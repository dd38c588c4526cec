import CodeModel.Toml.Basic

/-!
# Texts of TOML

A basic text stands in double quotes and knows escapes; a literal text stands in
single quotes and knows none. Either may stand in three quotes and then run over
several lines: a line break right after the opening quotes does not count, and
up to two quotes may stand before the closing ones. In a basic text of several
lines, a backslash at the end of a line swallows all blanks and line breaks that
follow.

Every reader here gets what follows the opening quotes and gives the text and
what follows the closing ones.
-/

namespace CodeModel

namespace Toml

/-- A text that was read and what follows it. -/
abbrev TextRead := Option (List Char × List Char)

/-- Puts a character before a text that was read. -/
def TextRead.cons (c : Char) (r : TextRead) : TextRead :=
  r.map fun (text, rest) => (c :: text, rest)

/-- The character with the code of some hexadecimal digits. -/
def scalar? (digits : List Char) : Option Char :=
  let n := numeral 16 digits
  if h : digits.all isHexDigit
    ∧ n.isValidChar then some (Char.ofNatAux n h.2) else none

/-- The character that a letter after a backslash stands for. -/
def escaped? : Char → Option Char
  | 'b' => some (Char.ofNat 8)
  | 't' => some '\t'
  | 'n' => some '\n'
  | 'f' => some (Char.ofNat 12)
  | 'r' => some '\r'
  | '"' => some '"'
  | '\\' => some '\\'
  | _ => none

/-- Reads a basic text of one line. -/
def basic? : List Char → TextRead
  | [] => none
  | '"' :: rest => some ([], rest)
  | '\\' :: 'u' :: a :: b :: c :: d :: rest => do
      let x ← scalar? [a, b, c, d]
      TextRead.cons x (basic? rest)
  | '\\' :: 'U' :: a :: b :: c :: d :: e :: f :: g :: h :: rest => do
      let x ← scalar? [a, b, c, d, e, f, g, h]
      TextRead.cons x (basic? rest)
  | '\\' :: c :: rest => do
      let x ← escaped? c
      TextRead.cons x (basic? rest)
  | c :: rest =>
      if isPrintable c ∧ c ≠ '\\' then TextRead.cons c (basic? rest) else none

/-- Reads a literal text of one line. -/
def literal? : List Char → TextRead
  | [] => none
  | '\'' :: rest => some ([], rest)
  | c :: rest => if isPrintable c then TextRead.cons c (literal? rest) else none

/-- Whether nothing but blanks is left of the line. -/
def endsLine (cs : List Char) : Bool :=
  match cs.dropWhile isBlank with
  | '\n' :: _ => true
  | '\r' :: '\n' :: _ => true
  | _ => false

/-- Reads a basic text of several lines; `swallow` says that blanks and line
    breaks do not count until something else comes. -/
def basicLines? (swallow : Bool) : List Char → TextRead
  | [] => none
  | '"' :: '"' :: '"' :: '"' :: '"' :: rest => some (['"', '"'], rest)
  | '"' :: '"' :: '"' :: '"' :: rest => some (['"'], rest)
  | '"' :: '"' :: '"' :: rest => some ([], rest)
  | '\r' :: '\n' :: rest =>
      if swallow then basicLines? true rest
        else TextRead.cons '\n' (basicLines? false rest)
  | '\n' :: rest =>
      if swallow then basicLines? true rest
        else TextRead.cons '\n' (basicLines? false rest)
  | '\\' :: 'u' :: a :: b :: c :: d :: rest => do
      let x ← scalar? [a, b, c, d]
      TextRead.cons x (basicLines? false rest)
  | '\\' :: 'U' :: a :: b :: c :: d :: e :: f :: g :: h :: rest => do
      let x ← scalar? [a, b, c, d, e, f, g, h]
      TextRead.cons x (basicLines? false rest)
  | '\\' :: c :: rest =>
      if endsLine (c :: rest) then basicLines? true (c :: rest)
      else do
        let x ← escaped? c
        TextRead.cons x (basicLines? false rest)
  | c :: rest =>
      if swallow && isBlank c then basicLines? true rest
      else if isPrintable c ∧ c ≠ '\\' then TextRead.cons c (basicLines? false rest)
      else none

/-- Reads a literal text of several lines. -/
def literalLines? : List Char → TextRead
  | [] => none
  | '\'' :: '\'' :: '\'' :: '\'' :: '\'' :: rest => some (['\'', '\''], rest)
  | '\'' :: '\'' :: '\'' :: '\'' :: rest => some (['\''], rest)
  | '\'' :: '\'' :: '\'' :: rest => some ([], rest)
  | '\r' :: '\n' :: rest => TextRead.cons '\n' (literalLines? rest)
  | '\n' :: rest => TextRead.cons '\n' (literalLines? rest)
  | c :: rest =>
      if isPrintable c then TextRead.cons c (literalLines? rest) else none

/-- Drops the line break right after opening quotes. -/
def dropLineBreak : List Char → List Char
  | '\r' :: '\n' :: rest => rest
  | '\n' :: rest => rest
  | cs => cs

/-- Reads a text of any form from its opening quotes on. -/
def text? : List Char → TextRead
  | '"' :: '"' :: '"' :: rest => basicLines? false (dropLineBreak rest)
  | '"' :: rest => basic? rest
  | '\'' :: '\'' :: '\'' :: rest => literalLines? (dropLineBreak rest)
  | '\'' :: rest => literal? rest
  | _ => none

end Toml

end CodeModel
