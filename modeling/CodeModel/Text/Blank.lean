/-!
# White space

White space is the Unicode property of that name: 25 characters, among them the
no-break space and the ideographic space. A text is blank when nothing is left
of it after trimming.
-/

namespace CodeModel.Text

/-- Whether a character is white space. -/
def isWhite (c : Char) : Bool :=
  let n := c.toNat
  (0x09 ≤ n && n ≤ 0x0D) || n == 0x20 || n == 0x85 || n == 0xA0 || n == 0x1680 ||
    (0x2000 ≤ n && n ≤ 0x200A) || n == 0x2028 || n == 0x2029 || n == 0x202F
      || n == 0x205F ||
    n == 0x3000

/-- Drops the white space at both ends. -/
def trim (s : String) : String :=
  String.ofList ((s.toList.dropWhile isWhite).reverse.dropWhile isWhite).reverse

/-- A text is blank when it holds nothing but white space. -/
def IsBlank (s : String) : Prop :=
  trim s = ""

instance (s : String) : Decidable (IsBlank s) :=
  inferInstanceAs (Decidable (trim s = ""))

end CodeModel.Text
