set_option autoImplicit false

/-! # Days and times of day

The days of the calendar, for years from one on, and the times of a day to the second. -/

namespace ApiScaffold.Calendar

/-- How many days a month has. -/
def daysIn (year month : Nat) : Nat :=
  if month = 2 then
    if year % 4 = 0 && (year % 100 != 0 || year % 400 = 0) then 29 else 28
  else if [4, 6, 9, 11].contains month then 30
  else 31

/-- Whether there is such a day. -/
def isDay (year month day : Nat) : Bool :=
  1 ≤ year && 1 ≤ month && month ≤ 12 && 1 ≤ day && day ≤ daysIn year month

/-- Whether there is such a time of day; there are no leap seconds. -/
def isTime (hour minute second : Nat) : Bool :=
  hour < 24 && minute < 60 && second < 60

example : isDay 2000 2 29 = true ∧ isDay 1900 2 29 = false ∧ isTime 23 59 60 = false := by decide

end ApiScaffold.Calendar
