import CodeModel.Text.CaseClass
import CodeModel.Text.CaseTable

/-!
# Letter case

Upper and lower case of characters, of the first character of an identifier, and
of a whole text.

* **`upperChar`**, **`lowerChar`**: the full mapping of one character, which may
  be several characters (the upper case of `ß` is `SS`).
* **`capitalize`**, **`uncapitalize`**: change the first character of an
  identifier and keep the rest.
* **`lowercase`**: a whole text. A capital sigma becomes the final form at the
  end of a word and the ordinary form elsewhere; every other character is mapped
  on its own.
-/

namespace CodeModel.Text

/-- The code point that the run of `n` moves it to, or `none` if no run holds
    it. -/
def CaseRun.find? (n : Nat) : List CaseRun → Option Nat
  | [] => none
  | r :: rest =>
      if n < r.first then none
      else if n ≤ r.last then
        if (n - r.first) % r.stride = 0 then some (n + r.offset).toNat else none
      else CaseRun.find? n rest

/-- Maps one character by a table of special cases and a table of runs; a
    character in neither stays as it is. -/
def mapCase (special : List (Nat × List Nat)) (runs : List CaseRun) (c : Char) :
    List Char :=
  match special.lookup c.toNat with
  | some codes => codes.map Char.ofNat
  | none =>
      match CaseRun.find? c.toNat runs with
      | some code => [Char.ofNat code]
      | none => [c]

/-- The upper case of one character. -/
def upperChar (c : Char) : List Char :=
  mapCase upperSpecial upperRuns c

/-- The lower case of one character that stands alone. -/
def lowerChar (c : Char) : List Char :=
  mapCase lowerSpecial lowerRuns c

/-- Replaces the first character by its upper case and keeps the rest. -/
def capitalize (s : String) : String :=
  match s.toList with
  | [] => ""
  | c :: rest => String.ofList (upperChar c ++ rest)

/-- Replaces the first character by its lower case and keeps the rest. -/
def uncapitalize (s : String) : String :=
  match s.toList with
  | [] => ""
  | c :: rest => String.ofList (lowerChar c ++ rest)

/-- Whether the first character that is not looked through has a case. -/
def meetsCased (cs : List Char) : Bool :=
  match cs.dropWhile isCaseIgnorable with
  | [] => false
  | c :: _ => isCased c

/-- Lowercases the characters after `before`, which holds the ones already
    passed, nearest first. A capital sigma is final when a cased character
    stands before it and none after it. -/
def lowerFrom (before : List Char) : List Char → List Char
  | [] => []
  | c :: rest =>
      let mapped :=
        if c = 'Σ' then [if meetsCased before && !meetsCased rest then 'ς' else 'σ']
        else lowerChar c
      mapped ++ lowerFrom (c :: before) rest

/-- The lower case of a whole text. -/
def lowercase (s : String) : String :=
  String.ofList (lowerFrom [] s.toList)

end CodeModel.Text
