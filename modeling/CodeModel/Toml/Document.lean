import CodeModel.Toml.Moment
import CodeModel.Toml.Number
import CodeModel.Toml.Quoted
import CodeModel.Toml.Table

/-!
# TOML documents

A document is lines: keys with their values, headers of tables, comments and
blank lines. Lines end in a line feed, before which a carriage return may stand.
`Toml.document?` reads one; anything that breaks a rule makes the whole document
unreadable.

Readers are given a bound on their steps, which the length of the text provides;
each step takes at least one character.
-/

namespace CodeModel

namespace Toml

/-- What follows the rest of a line that holds nothing but blanks and a
    comment. -/
def endLine? (inComment : Bool) : List Char → Option (List Char)
  | [] => some []
  | '\n' :: rest => some rest
  | '\r' :: '\n' :: rest => some rest
  | c :: rest =>
      if inComment then if isPrintable c then endLine? true rest else none
      else if c = '#' then endLine? true rest
      else if isBlank c then endLine? false rest
      else none

/-- What follows blanks, line breaks and comments. -/
def skipLines? (inComment : Bool) : List Char → Option (List Char)
  | [] => if inComment then none else some []
  | '\n' :: rest => skipLines? false rest
  | '\r' :: '\n' :: rest => skipLines? false rest
  | c :: rest =>
      if inComment then if isPrintable c then skipLines? true rest else none
      else if c = '#' then skipLines? true rest
      else if isBlank c then skipLines? false rest
      else some (c :: rest)

/-- A character of a bare key. -/
def isBareKey (c : Char) : Bool :=
  isDigit c || ('a' ≤ c ∧ c ≤ 'z') || ('A' ≤ c ∧ c ≤ 'Z') || c = '-' || c = '_'

/-- One segment of a key. -/
def keySegment? (cs : List Char) : Option (String × List Char) :=
  match cs with
  | '"' :: rest => (basic? rest).map fun (text, rest) => (String.ofList text, rest)
  | '\'' :: rest =>
      (literal? rest).map fun (text, rest) => (String.ofList text, rest)
  | cs =>
      let bare := cs.takeWhile isBareKey
      if bare.isEmpty then none else some (String.ofList bare, cs.drop bare.length)

/-- The segments of a key, with blanks around each, in at most `n` steps. -/
def keySegments? : Nat → List Char → Option (List String × List Char)
  | 0, _ => none
  | n + 1, cs => do
      let (segment, rest) ← keySegment? (cs.dropWhile isBlank)
      match rest.dropWhile isBlank with
      | '.' :: rest => do
          let (more, rest) ← keySegments? n rest
          return (segment :: more, rest)
      | rest => return ([segment], rest)

/-- A key: the path before its last segment, that segment, and what follows. -/
def key? (cs : List Char) : Option (List String × String × List Char) := do
  let (segments, rest) ← keySegments? maxDepth cs
  if maxDepth ≤ segments.length then none
  let last ← segments.getLast?
  return (segments.dropLast, last, rest)

/-- A character of a number, a date or a truth value. -/
def isScalarChar (c : Char) : Bool :=
  isBareKey c || c = '+' || c = '.' || c = ':'

/-- The characters of a number, a date or a truth value. A blank may stand
    between a date and a time. -/
def scalarText (cs : List Char) : List Char :=
  let first := cs.takeWhile isScalarChar
  if afterDate? first = some [] then
    match cs.drop first.length with
    | ' ' :: a :: b :: ':' :: rest =>
        if isDigit a ∧ isDigit b then
          first ++ ' ' :: a :: b :: ':' :: rest.takeWhile isScalarChar
        else first
    | _ => first
  else first

/-- The value of a number, a date or a truth value. -/
def scalar (text : List Char) : Option Toml :=
  if text = ['t', 'r', 'u', 'e'] then some (.boolean true)
  else if text = ['f', 'a', 'l', 's', 'e'] then some (.boolean false)
  else if isMoment text then some (.moment (String.ofList text))
  else if isFloat text then some (.float (String.ofList text))
  else (integer? text).map .integer

mutual

/-- A value that is nested at most `depth` deep, in at most `n` steps, and what
    follows it. -/
def value? (depth : Nat) : Nat → List Char → Option (Toml × List Char)
  | 0, _ => none
  | n + 1, cs =>
      match cs with
      | '[' :: rest =>
          if depth = 0 then none
          else (items? (depth - 1) n rest).map
            fun (items, rest) => (.array items, rest)
      | '\x7b' :: rest => do
          if depth = 0 then none
          let (pairs, rest) ←
            match rest.dropWhile isBlank with
            | '\x7d' :: rest => some ([], rest)
            | rest => pairs? (depth - 1) n rest
          let fields ← inlineTable pairs
          return (.table (fieldsToToml fields), rest)
      | '"' :: _ =>
          (text? cs).map fun (text, rest) => (.string (String.ofList text), rest)
      | '\'' :: _ =>
          (text? cs).map fun (text, rest) => (.string (String.ofList text), rest)
      | _ =>
          let text := scalarText cs
          (scalar text).map fun v => (v, cs.drop text.length)

/-- The items of a list up to its closing bracket. A comma may follow the last. -/
def items? (depth : Nat) : Nat → List Char → Option (List Toml × List Char)
  | 0, _ => none
  | n + 1, cs => do
      match ← skipLines? false cs with
      | ']' :: rest => return ([], rest)
      | cs =>
          let (item, rest) ← value? depth n cs
          match ← skipLines? false rest with
          | ']' :: rest => return ([item], rest)
          | ',' :: rest =>
              let (items, rest) ← items? depth n rest
              return (item :: items, rest)
          | _ => none

/-- The keys and values of an inline table up to its closing brace. -/
def pairs? (depth : Nat) :
    Nat → List Char → Option (List (List String × String × Toml) × List Char)
  | 0, _ => none
  | n + 1, cs => do
      let (path, key, rest) ← key? cs
      match rest with
      | '=' :: rest =>
          let (v, rest) ← value? depth n (rest.dropWhile isBlank)
          match rest.dropWhile isBlank with
          | '\x7d' :: rest => return ([(path, key, v)], rest)
          | ',' :: rest =>
              let (pairs, rest) ← pairs? depth n rest
              return ((path, key, v) :: pairs, rest)
          | _ => none
      | _ => none

end

/-- The header of a table or, with `closing` of two brackets, of one more table
    of a list: its key and what follows the line. -/
def header? (closing : List Char) (cs : List Char) :
    Option (List String × String × List Char) := do
  let (path, key, rest) ← key? cs
  if closing.isPrefixOf rest then
    let rest ← endLine? false (rest.drop closing.length)
    return (path, key, rest)
  else none

/-- Reads lines into the table `root`, the header of the last table being
    `header`, in at most `n` steps. -/
def lines? : Nat → List String → Fields → List Char → Option Fields
  | 0, _, _, _ => none
  | n + 1, header, root, cs =>
      match cs.dropWhile isBlank with
      | [] => some root
      | '#' :: rest => do lines? n header root (← endLine? true rest)
      | '\n' :: rest => lines? n header root rest
      | '\r' :: '\n' :: rest => lines? n header root rest
      | '[' :: '[' :: rest => do
          let (path, key, rest) ← header? [']', ']'] rest
          lines? n (path ++ [key]) (← beginItem path key root) rest
      | '[' :: rest => do
          let (path, key, rest) ← header? [']'] rest
          lines? n (path ++ [key]) (← beginTable path key root) rest
      | cs => do
          let (path, key, rest) ← key? cs
          match rest with
          | '=' :: rest =>
              let (v, rest) ← value? (maxDepth - 1) (2 * rest.length + 2)
                (rest.dropWhile isBlank)
              let rest ← endLine? false rest
              lines? n header (← assign header path key v root) rest
          | _ => none

/-- What follows the mark that a text in Unicode may begin with. -/
def dropMark : List Char → List Char
  | c :: rest => if c.toNat = 0xFEFF then rest else c :: rest
  | [] => []

/-- The table of a document. -/
def document? (text : String) : Option Toml :=
  let cs := dropMark text.toList
  (lines? (cs.length + 1) [] [] cs).map fun fields => .table (fieldsToToml fields)

end Toml

end CodeModel
