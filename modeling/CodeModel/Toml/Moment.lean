import CodeModel.Toml.Basic

/-!
# Dates and times of TOML

A date, a time of day, or both with or without an offset. Days fit their months,
and a minute may have a leap second.
-/

namespace CodeModel

namespace Toml

/-- Two digits of a number within bounds. -/
def twoDigits? (low high : Nat) (a b : Char) : Option Nat :=
  let n := numeral 10 [a, b]
  if isDigit a ∧ isDigit b ∧ low ≤ n ∧ n ≤ high then some n else none

/-- The number of days of a month. -/
def daysOfMonth (year month : Nat) : Nat :=
  if month = 2 then
    if year % 4 = 0 ∧ (year % 100 ≠ 0 ∨ year % 400 = 0) then 29 else 28
  else if month = 4 ∨ month = 6 ∨ month = 9 ∨ month = 11 then 30
  else 31

/-- What follows a date. -/
def afterDate? : List Char → Option (List Char)
  | y₁ :: y₂ :: y₃ :: y₄ :: '-' :: m₁ :: m₂ :: '-' :: d₁ :: d₂ :: rest => do
      let year := [y₁, y₂, y₃, y₄]
      if !year.all isDigit then none
      let month ← twoDigits? 1 12 m₁ m₂
      let _ ← twoDigits? 1 (daysOfMonth (numeral 10 year) month) d₁ d₂
      return rest
  | _ => none

/-- What follows the fraction of a second, if there is one. -/
def afterFraction? : List Char → Option (List Char)
  | '.' :: c :: rest => if isDigit c then some (rest.dropWhile isDigit) else none
  | '.' :: [] => none
  | cs => some cs

/-- What follows a time of day. -/
def afterTime? : List Char → Option (List Char)
  | h₁ :: h₂ :: ':' :: m₁ :: m₂ :: ':' :: s₁ :: s₂ :: rest => do
      let _ ← twoDigits? 0 23 h₁ h₂
      let _ ← twoDigits? 0 59 m₁ m₂
      let _ ← twoDigits? 0 60 s₁ s₂
      afterFraction? rest
  | _ => none

/-- Whether characters are an offset, or nothing. -/
def isOffset : List Char → Bool
  | [] => true
  | ['Z'] => true
  | ['z'] => true
  | [sign, h₁, h₂, ':', m₁, m₂] =>
      (sign = '+' ∨ sign = '-') && (twoDigits? 0 23 h₁ h₂).isSome
        && (twoDigits? 0 59 m₁ m₂).isSome
  | _ => false

/-- Whether characters are a date, a time, or both. -/
def isMoment (cs : List Char) : Bool :=
  match afterDate? cs with
  | some [] => true
  | some (c :: rest) =>
      (c = 'T' ∨ c = 't' ∨ c = ' ') &&
        match afterTime? rest with
        | some offset => isOffset offset
        | none => false
  | none => afterTime? cs = some []

end Toml

end CodeModel
