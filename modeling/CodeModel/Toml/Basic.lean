/-!
# TOML values

The values of a TOML document, as configurations are written. Whoever reads a
configuration looks at texts, truth values, lists and tables; of a float or a
date only the text is kept.
-/

namespace CodeModel

/-- A value of a TOML document. -/
inductive Toml where
  | string (value : String)
  | integer (value : Int)
  | float (text : String)
  | boolean (value : Bool)
  | moment (text : String)
  | array (items : List Toml)
  | table (fields : List (String × Toml))
deriving Inhabited

namespace Toml

/-- Nesting and dotted keys stay below this depth. -/
def maxDepth : Nat :=
  80

/-- A blank within a line. -/
def isBlank (c : Char) : Bool :=
  c = ' ' ∨ c = '\t'

/-- A character that may stand in a comment: anything but control characters
    other than the tab. -/
def isPrintable (c : Char) : Bool :=
  c = '\t' ∨ (32 ≤ c.toNat ∧ c.toNat ≠ 127)

/-- A decimal digit. -/
def isDigit (c : Char) : Bool :=
  '0' ≤ c ∧ c ≤ '9'

/-- A hexadecimal digit. -/
def isHexDigit (c : Char) : Bool :=
  isDigit c || ('a' ≤ c ∧ c ≤ 'f') || ('A' ≤ c ∧ c ≤ 'F')

/-- What a digit counts for. -/
def digitValue (c : Char) : Nat :=
  if isDigit c then c.toNat - '0'.toNat
  else if 'a' ≤ c then c.toNat - 'a'.toNat + 10
  else c.toNat - 'A'.toNat + 10

/-- The number that digits stand for in a base. Underscores between them count
    for nothing. -/
def numeral (base : Nat) (digits : List Char) : Nat :=
  (digits.filter (· ≠ '_')).foldl (fun n c => n * base + digitValue c) 0

/-- Whether digits follow each other with at most one underscore between two of
    them. -/
def isDigitRun (ok : Char → Bool) : List Char → Bool
  | [] => false
  | [c] => ok c
  | c :: '_' :: rest => ok c && isDigitRun ok rest
  | c :: rest => ok c && isDigitRun ok rest

/-- Whether characters are a whole number without a sign: no zero in front of
    other digits. -/
def isWhole : List Char → Bool
  | [c] => isDigit c
  | c :: rest => c ≠ '0' && isDigitRun isDigit (c :: rest)
  | [] => false

/-- A sign, as whether it is a minus, and what follows it. -/
def splitSign : List Char → Bool × List Char
  | '+' :: rest => (false, rest)
  | '-' :: rest => (true, rest)
  | cs => (false, cs)

end Toml

end CodeModel
