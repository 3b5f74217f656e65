import ApiScaffold.Calendar
import ApiScaffold.Text.Cut
import ApiScaffold.Text.Digits
import ApiScaffold.Yaml.Value

set_option autoImplicit false

/-! # Plain scalars

What a text without quotes stands for: null, a truth value, a number, a date, or itself. The forms
are those of YAML 1.1, where `yes` is a truth value, a leading zero makes a number octal, colons
separate the digits of base sixty, and a fraction without a signed exponent is no number with an
exponent. -/

namespace ApiScaffold.Yaml

/-- Whether a character is a decimal digit. -/
def isDecimal (c : Char) : Bool := c.isDigit

/-- Whether a character may stand among the digits of a number of some base. -/
def isDigitOf (base : Nat) (c : Char) : Bool :=
  c = '_' || match Text.hexDigitValue? c with
    | some d => d < base
    | none => false

/-- The number that digits of a base write; underscores do not count. -/
def ofDigits (base : Nat) (digits : List Char) : Nat :=
  (digits.filterMap Text.hexDigitValue?).foldl (fun n d => base * n + d) 0

/-- A text without its sign, and whether the sign is a minus. -/
def splitSign : List Char → Bool × List Char
  | '-' :: rest => (true, rest)
  | '+' :: rest => (false, rest)
  | text => (false, text)

/-- Digits of a base, at least one of them no underscore. -/
def areDigits (base : Nat) (text : List Char) : Bool :=
  text.all (isDigitOf base) && text.any (· != '_')

/-- Whether a text is a digit of base sixty: one decimal digit or two, at most 59. -/
def isSixtieth : List Char → Bool
  | [a] => isDecimal a
  | [a, b] => isDecimal a && a ≤ '5' && isDecimal b
  | _ => false

/-- A whole number without its sign. -/
def natural? (text : List Char) : Option Nat :=
  match text with
  | ['0'] => some 0
  | '0' :: 'b' :: digits => if areDigits 2 digits then some (ofDigits 2 digits) else none
  | '0' :: 'x' :: digits => if areDigits 16 digits then some (ofDigits 16 digits) else none
  | '0' :: digits => if digits.all (isDigitOf 8) then some (ofDigits 8 digits) else none
  | c :: _ =>
    if !isDecimal c then none
    else
      match Text.cut [':'] text with
      | [] => none
      | whole :: sixtieths =>
        if whole.all (isDigitOf 10) && sixtieths.all isSixtieth then
          some (sixtieths.foldl (fun n s => 60 * n + ofDigits 10 s) (ofDigits 10 whole))
        else none
  | [] => none

/-- A whole number. -/
def integer? (text : List Char) : Option Int :=
  let (negative, digits) := splitSign text
  (natural? digits).map fun n => if negative then -(n : Int) else n

/-- The exponent behind the digits of a fraction: none, or a signed one. -/
def exponent? : List Char → Option Int
  | [] => some 0
  | e :: sign :: digits =>
    if (e = 'e' || e = 'E') && (sign = '-' || sign = '+') && !digits.isEmpty && digits.all isDecimal
    then some (if sign = '-' then -(ofDigits 10 digits : Int) else ofDigits 10 digits)
    else none
  | _ => none

/-- The number that a fraction below sixty and the digits of base sixty in front of it make, rounded
after every step. -/
def sumOfSixtieths (fraction : Binary64) (digits : List (List Char)) : Binary64 :=
  let add (state : Binary64 × Nat) (digit : List Char) : Binary64 × Nat :=
    let unit := Binary64.ofDecimal false (ofDigits 10 digit) 0
    (state.1.sumOfMagnitudes (unit.multipleOfMagnitude state.2), 60 * state.2)
  (digits.reverse.foldl add (fraction, 60)).1

/-- A number with a point whose whole part is written in base sixty. -/
def sexagesimalFloat? (negative : Bool) (body : List Char) : Option Binary64 :=
  match Text.cut [':'] (body.takeWhile (· != '.')), body.dropWhile (· != '.') with
  | whole :: sixtieths, '.' :: places =>
    let startsWell := (whole.head?.map isDecimal).getD false && whole.all (isDigitOf 10)
    match sixtieths.reverse with
    | [] => none
    | last :: between =>
      if startsWell && sixtieths.all isSixtieth && places.all (isDigitOf 10) then
        let places := places.filter isDecimal
        let fraction := Binary64.ofDecimal false (ofDigits 10 (last ++ places)) (-places.length)
        some ((sumOfSixtieths fraction (whole :: between.reverse)).withSign negative)
      else none
  | _, _ => none

/-- A number with a point. -/
def float? (text : List Char) : Option Binary64 :=
  let (negative, body) := splitSign text
  let word := String.ofList body
  if word = ".inf" || word = ".Inf" || word = ".INF" then some (.infinity negative)
  else if text = body && (word = ".nan" || word = ".NaN" || word = ".NAN") then some .invalid
  else
    let whole := body.takeWhile (isDigitOf 10)
    match body.drop whole.length with
    | '.' :: rest =>
      let places := rest.takeWhile (isDigitOf 10)
      let startsWell :=
        match whole, places with
        | c :: _, _ => isDecimal c
        | [], c :: _ => text = body && isDecimal c
        | [], [] => false
      if startsWell then
        (exponent? (rest.drop places.length)).map fun exponent =>
          let count := (places.filter isDecimal).length
          Binary64.ofDecimal negative (ofDigits 10 (whole ++ places)) (exponent - count)
      else none
    | ':' :: _ => sexagesimalFloat? negative body
    | _ => none

/-- Whether a text has the form of a number of base two or sixteen, but has no digits. -/
def lacksDigits (text : List Char) : Bool :=
  match (splitSign text).2 with
  | '0' :: base :: digits =>
    (base = 'b' || base = 'x') && !digits.isEmpty && digits.all (· = '_')
  | _ => false

/-! ## Dates -/

/-- A number with zeros in front up to a width. -/
def padded (width n : Nat) : String :=
  let digits := (toString n).toList
  String.ofList (List.replicate (width - digits.length) '0' ++ digits)

/-- The text of a day, if there is such a day. -/
def day? (year month day : Nat) : Option String :=
  if Calendar.isDay year month day then
    some (padded 4 year ++ "-" ++ padded 2 month ++ "-" ++ padded 2 day)
  else none

/-- A number of some digits, at least and at most so many. -/
def counted? (least most : Nat) (text : List Char) : Option Nat :=
  if least ≤ text.length && text.length ≤ most && text.all isDecimal then some (ofDigits 10 text)
  else none

/-- The text of an offset from universal time: `Z`, or hours and perhaps minutes with a sign. An
offset of a day or more has the form of one, but no text. -/
def offset? (text : List Char) : Option (Option String) :=
  match text with
  | [] => some (some "")
  | ['Z'] => some (some "+00:00")
  | sign :: rest =>
    if sign = '-' || sign = '+' then do
      let (hours, minutes) ← match Text.cut [':'] rest with
        | [h] => (counted? 1 2 h).map (·, 0)
        | [h, m] => do pure (← counted? 1 2 h, ← counted? 2 2 m)
        | _ => none
      let total := 60 * hours + minutes
      let shown := if total = 0 then "+" else String.singleton sign
      return if total < 1440 then
        some (shown ++ padded 2 (total / 60) ++ ":" ++ padded 2 (total % 60))
      else none
    else none

/-- What a text that has the form of a date stands for: none if it has another form, and inside none
if there is no such date. -/
def moment? (text : List Char) : Option (Option Yaml) := do
  let isTimeStart (c : Char) : Bool := c = 'T' || c = 't' || c = ' ' || c = '\t'
  let date := text.takeWhile (!isTimeStart ·)
  let rest := text.drop date.length
  let (y, m, d) ← match Text.cut ['-'] date with
    | [y, m, d] => some (y, m, d)
    | _ => none
  let year ← counted? 4 4 y
  if rest.isEmpty then
    let month ← counted? 2 2 m
    let day ← counted? 2 2 d
    return (day? year month day).map .moment
  else
    let month ← counted? 1 2 m
    let day ← counted? 1 2 d
    let time := if rest.head? = some 'T' || rest.head? = some 't' then rest.drop 1
      else rest.dropWhile fun c => c = ' ' || c = '\t'
    let clock := time.takeWhile fun c => isDecimal c || c = ':'
    let (h, mi, s) ← match Text.cut [':'] clock with
      | [h, mi, s] => some (h, mi, s)
      | _ => none
    let hour ← counted? 1 2 h
    let minute ← counted? 2 2 mi
    let second ← counted? 2 2 s
    let behind := time.drop clock.length
    let (places, zone) :=
      match behind with
      | '.' :: more => (more.takeWhile isDecimal, more.dropWhile isDecimal)
      | _ => ([], behind)
    let zone ← offset? (zone.dropWhile fun c => c = ' ' || c = '\t')
    let micros := ofDigits 10 ((places ++ List.replicate 6 '0').take 6)
    if Calendar.isTime hour minute second then
      return do
        let date ← day? year month day
        return .moment (date ++ " " ++ padded 2 hour ++ ":" ++ padded 2 minute ++ ":" ++
          padded 2 second ++ (if micros = 0 then "" else "." ++ padded 6 micros) ++ (← zone))
    else return none

/-! ## All forms -/

/-- The words that stand for something else than themselves. -/
def words : List (String × Json) :=
  [("", .null), ("~", .null), ("null", .null), ("Null", .null), ("NULL", .null)] ++
    ["yes", "Yes", "YES", "true", "True", "TRUE", "on", "On", "ON"].map (·, .bool true) ++
    ["no", "No", "NO", "false", "False", "FALSE", "off", "Off", "OFF"].map (·, .bool false)

/-- What a plain scalar stands for; none if it has the form of a number or a date that is none. -/
def ofPlain (text : List Char) : Option Yaml :=
  let word := String.ofList text
  if word = "<<" then some .mergeMark
  else if word = "=" then some .valueMark
  else if lacksDigits text then none
  else
  match words.lookup word with
  | some v => some (.scalar v)
  | none =>
    match integer? text with
    | some n => some (.scalar (.int n))
    | none =>
      match float? text with
      | some x => some (.scalar (.float x))
      | none =>
        match moment? text with
        | some found => found
        | none => some (.scalar (.str word))

end ApiScaffold.Yaml
