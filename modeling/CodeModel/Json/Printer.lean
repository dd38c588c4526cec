import CodeModel.Json.Basic

/-!
# The text of a JSON value

Values are printed one to a line with an indent of two spaces for each level; an
empty list or object takes no lines of its own. In a text, quotes, backslashes
and control characters are escaped and all else stands as it is.
-/

namespace CodeModel

namespace Json

/-- One hexadecimal digit. -/
def hexDigit (n : Nat) : Char :=
  if n < 10 then Char.ofNat ('0'.toNat + n) else Char.ofNat ('a'.toNat + (n - 10))

/-- A character within quotes. -/
def escapeChar (c : Char) : List Char :=
  if c = '"' then ['\\', '"']
  else if c = '\\' then ['\\', '\\']
  else if c = '\n' then ['\\', 'n']
  else if c = '\r' then ['\\', 'r']
  else if c = '\t' then ['\\', 't']
  else if c.toNat = 8 then ['\\', 'b']
  else if c.toNat = 12 then ['\\', 'f']
  else if c.toNat < 32 then
    ['\\', 'u', '0', '0', hexDigit (c.toNat / 16), hexDigit (c.toNat % 16)]
  else [c]

/-- A text within quotes. -/
def quote (s : String) : String :=
  String.ofList ('"' :: s.toList.flatMap escapeChar ++ ['"'])

/-- The blanks before a line of some level. -/
def indent (level : Nat) : String :=
  String.ofList (List.replicate (2 * level) ' ')

/-- Lines between an opening and a closing mark. -/
def block (level : Nat) (opening closing : String) (lines : List String) : String :=
  opening ++ "\n" ++ ",\n".intercalate (lines.map (indent (level + 1) ++ ·)) ++ "\n"
    ++ indent level
    ++ closing

mutual

/-- The text of a value that stands at some level. -/
def print (level : Nat) : Json → String
  | .null => "null"
  | .bool b => if b then "true" else "false"
  | .number n => n.repr
  | .string s => quote s
  | .array items =>
      if items.isEmpty then "[]"
        else block level "[" "]" (printItems (level + 1) items)
  | .object fields =>
      if fields.isEmpty then "\x7b\x7d"
        else block level "\x7b" "\x7d" (printFields (level + 1) fields)

/-- The texts of some values. -/
def printItems (level : Nat) : List Json → List String
  | [] => []
  | j :: rest => print level j :: printItems level rest

/-- The texts of the fields of a record. -/
def printFields (level : Nat) : List (String × Json) → List String
  | [] => []
  | (name, j) :: rest =>
      (quote name ++ ": " ++ print level j) :: printFields level rest

end

/-- The text of a value. -/
def pretty (j : Json) : String :=
  print 0 j

end Json

end CodeModel
