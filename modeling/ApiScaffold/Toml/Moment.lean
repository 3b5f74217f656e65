import ApiScaffold.Calendar
import ApiScaffold.Text.Digits

set_option autoImplicit false

/-! # Dates and times of settings

A time of day is told by its first eight characters. A date is told by the places of its numbers
alone: what stands between them does not matter, but for one hyphen somewhere. -/

namespace ApiScaffold.Toml

/-- The hour, the minute and the second of a time of day at the front of a text. -/
def clock? : List Char → Option (Nat × Nat × Nat)
  | a :: b :: ':' :: c :: d :: ':' :: e :: f :: _ =>
    if [a, b, c, d, e, f].all Char.isDigit then do
      return (← Text.natural? [a, b], ← Text.natural? [c, d], ← Text.natural? [e, f])
    else none
  | _ => none

/-- The number in so many characters of a text behind the first few. -/
def numberAt? (skip width : Nat) (text : List Char) : Option Nat :=
  match Text.integer? ((text.drop skip).take width) with
  | some (.ofNat n) => some n
  | _ => none

/-- Whether a text is a date: a day in ten characters, or else a day and a time. -/
def isDate (text : List Char) : Bool :=
  let day : Option Bool := do
    return Calendar.isDay (← numberAt? 0 4 text) (← numberAt? 5 2 text) (← numberAt? 8 2 text)
  let time : Option Bool := do
    return Calendar.isTime (← numberAt? 11 2 text) (← numberAt? 14 2 text) (← numberAt? 17 2 text)
  (text.drop 1).contains '-' && day = some true && (text.length = 10 || time = some true)

example : isDate "1979-05-27".toList = true ∧ isDate "1979-05-27T07:32:00Z".toList = true ∧
    isDate "1979-02-30".toList = false ∧ clock? "07:32:00.5".toList = some (7, 32, 0) := by
  decide +kernel

end ApiScaffold.Toml
