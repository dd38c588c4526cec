import CodeModel.Toml.Basic

/-!
# Numbers of TOML

Whole numbers fit into 64 bits with a sign; hexadecimal, octal and binary ones
have no sign. A float has a fraction, an exponent or both, or is infinite or not
a number by name. A written float that is too large to be finite is refused.
-/

namespace CodeModel

namespace Toml

/-- A whole number in a base other than ten. -/
def integerInBase? (base : Nat) (ok : Char → Bool) (digits : List Char) :
    Option Int :=
  if isDigitRun ok digits
    ∧ numeral base digits < Nat.pow 2 63 then some (numeral base digits) else none

/-- A whole number. -/
def integer? : List Char → Option Int
  | '0' :: 'x' :: rest => integerInBase? 16 isHexDigit rest
  | '0' :: 'o' :: rest => integerInBase? 8 (fun c => '0' ≤ c ∧ c ≤ '7') rest
  | '0' :: 'b' :: rest => integerInBase? 2 (fun c => c = '0' ∨ c = '1') rest
  | cs =>
      let (negative, digits) := splitSign cs
      let n := numeral 10 digits
      if !isWhole digits then none
      else if negative then if n ≤ Nat.pow 2 63 then some (-n) else none
      else if n < Nat.pow 2 63 then some n
      else none

/-- The parts of a float after its sign: the digits before the point, those
    after it, and the exponent. Without a point there are no digits after it,
    and without an exponent it is zero. -/
structure FloatParts where
  whole : List Char
  fraction : List Char
  exponent : Int

/-- Whether a character announces an exponent. -/
def isExponentMark (c : Char) : Bool :=
  c = 'e' ∨ c = 'E'

/-- The exponent that follows its mark. -/
def exponent? (cs : List Char) : Option Int :=
  let (negative, digits) := splitSign cs
  if isDigitRun isDigit digits then
    some (if negative then -(numeral 10 digits : Int) else numeral 10 digits)
  else none

/-- The parts of a float. -/
def floatParts? (cs : List Char) : Option FloatParts :=
  let whole := cs.takeWhile fun c => c ≠ '.' && !isExponentMark c
  if !isWhole whole then none
  else
    match cs.drop whole.length with
    | '.' :: rest =>
        let fraction := rest.takeWhile fun c => !isExponentMark c
        if !isDigitRun isDigit fraction then none
        else
          match rest.drop fraction.length with
          | [] => some ⟨whole, fraction, 0⟩
          | _ :: exponent => (exponent? exponent).map fun e => ⟨whole, fraction, e⟩
    | _ :: exponent => (exponent? exponent).map fun e => ⟨whole, [], e⟩
    | [] => none

/-- The least number that is rounded to infinity: half a unit beyond the largest
    double. -/
def infinityBound : Nat :=
  Nat.pow 2 1024 - Nat.pow 2 970

/-- Whether the value of a float is rounded to infinity. The number of digits
    decides it, except near the bound. -/
def FloatParts.isInfinite (p : FloatParts) : Bool :=
  let fraction := p.fraction.filter (· ≠ '_')
  let digits := ((p.whole.filter (· ≠ '_')) ++ fraction).dropWhile (· = '0')
  let power := p.exponent - (fraction.length : Int)
  let magnitude := (digits.length : Int) + power
  if digits.isEmpty then false
  else if 310 < magnitude then true
  else if magnitude < 308 then false
  else
    let n := numeral 10 digits
    if 0 ≤ power then infinityBound ≤ n * Nat.pow 10 power.toNat
    else infinityBound * Nat.pow 10 (-power).toNat ≤ n

/-- Whether characters are a float. -/
def isFloat (cs : List Char) : Bool :=
  let (negative, rest) := splitSign cs
  if rest = ['i', 'n', 'f'] ∨ rest = ['n', 'a', 'n'] then true
  else
    match floatParts? rest with
    | none => false
    | some p => negative || !p.isInfinite

end Toml

end CodeModel
