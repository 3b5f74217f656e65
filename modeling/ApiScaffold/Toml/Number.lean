import ApiScaffold.Json.Value
import ApiScaffold.Text.Cut
import ApiScaffold.Text.Digits

set_option autoImplicit false

/-! # Numerals of settings

Numerals with a sign, in four bases, with underscores between digits, with a fraction or a power of
ten. Digits may be of any script. A numeral is read in two steps: `isStrict` tells whether zeros and
underscores stand where they may, and `number?` reads it without its underscores. -/

namespace ApiScaffold.Toml

/-- Whether two characters follow each other somewhere in a text. -/
def holdsPair (a b : Char) : List Char → Bool
  | x :: y :: rest => (x = a && y = b) || holdsPair a b (y :: rest)
  | _ => false

/-- Whether a text keeps the rules for zeros in front and for underscores. -/
def isStrict (text : List Char) : Bool :=
  match Text.trim Text.isBlank text with
  | [] => false
  | [c] => c != '_'
  | a :: b :: rest =>
    let all := a :: b :: rest
    if a = '_' || all.getLast? = some '_' || holdsPair '_' '.' all || holdsPair '.' '_' all then
      false
    else if a = '0' then
      (b = '.' || b = 'o' || b = 'b' || b = 'x') && !holdsPair '_' '_' all
    else if a = '+' || a = '-' then
      !(b = '0' && !rest.isEmpty && rest.head? != some '.') && !holdsPair '_' '_' (b :: rest)
    else !holdsPair '_' '_' all

/-- A text with the digits of every script as `0` to `9`. -/
def plainDigits (text : List Char) : List Char :=
  text.map fun c =>
    match Text.digitValue? c with
    | some d => Nat.digitChar d
    | none => c

/-- The number that digits of a base write, at least one. -/
def digitsOf? (base : Nat) (digits : List Char) : Option Nat :=
  if digits.isEmpty then none
  else
    digits.foldlM (fun n c =>
      (Text.hexDigitValue? c).bind fun d => if d < base then some (base * n + d) else none) 0

/-- A text without its sign, and whether the sign is a minus. -/
def splitSign : List Char → Bool × List Char
  | '-' :: rest => (true, rest)
  | '+' :: rest => (false, rest)
  | text => (false, text)

/-- A whole number, with a mark in front for bases other than ten. In base ten a zero comes first in
zero alone. -/
def integer? (text : List Char) : Option Int :=
  let (negative, body) := splitSign (plainDigits (Text.trim Text.isBlank text))
  let magnitude : Option Nat :=
    match body with
    | '0' :: mark :: digits =>
      if mark = 'x' || mark = 'X' then digitsOf? 16 digits
      else if mark = 'o' || mark = 'O' then digitsOf? 8 digits
      else if mark = 'b' || mark = 'B' then digitsOf? 2 digits
      else if (mark :: digits).all (· = '0') then some 0
      else none
    | digits => digitsOf? 10 digits
  magnitude.map fun n => if negative then -(n : Int) else n

/-- Digits with single underscores between them, as digits; there may be none. -/
def groups? (text : List Char) : Option (List Char) :=
  if text.isEmpty then some []
  else (Text.grouped? text).map fun _ => text.filter (· != '_')

/-- A number with or without a fraction and a power of ten, or one of the words for an infinity and
for what is no number. -/
def float? (text : List Char) : Option Binary64 := do
  let (negative, body) := splitSign (plainDigits (Text.trim Text.isBlank text))
  let word := Text.lowerLatin (String.ofList body)
  if word = "inf" || word = "infinity" then return .infinity negative
  if word = "nan" then return .invalid
  let mantissa := body.takeWhile fun c => c != 'e' && c != 'E'
  let power := body.drop mantissa.length
  let whole ← groups? (mantissa.takeWhile (· != '.'))
  let places ← groups? ((mantissa.dropWhile (· != '.')).drop 1)
  if whole.isEmpty && places.isEmpty then none
  let exponent ← match power with
    | [] => some (0 : Int)
    | _ :: signed =>
      let (minus, digits) := splitSign signed
      (Text.grouped? digits).map fun n => if minus then -(n : Int) else n
  let digits ← digitsOf? 10 (whole ++ places)
  return .ofDecimal negative digits (exponent - places.length)

/-- Zero less a number: zero has no sign then. -/
def negated (x : Binary64) : Binary64 :=
  if x.isZero then .ofDecimal false 0 0
  else if x.isInvalid then x
  else x.withSign (!x.negative)

/-- What a numeral stands for. A point asks for digits on both sides; with a point or a power of ten
the number is a floating-point number. -/
def number? (text : List Char) : Option Json := do
  let (negative, body) := splitSign text
  let body := body.filter (· != '_')
  let word := Text.lowerLatin (String.ofList body)
  let hasPoint := body.contains '.'
  if hasPoint || (!body.contains 'x' && (body.contains 'e' || body.contains 'E')) then
    if hasPoint && ((body.dropWhile (· != '.')).drop 1).isEmpty then none
    if !(body.head?.map Char.isDigit).getD false then none
    let x ← float? body
    return .float (if negative then negated x else x)
  else if word = "inf" || word = "nan" then
    let x ← float? body
    return .float (if negative then negated x else x)
  else
    let n ← integer? body
    return .int (if negative then -n else n)

example : number? "-0b101".toList = some (.int (-5)) ∧ number? "1_0.5".toList ≠ none ∧
    number? "1.".toList = none ∧ number? "٣".toList = some (.int 3) := by
  decide +kernel

example : isStrict "0x_1".toList = true ∧ isStrict "-0x1".toList = false ∧
    isStrict "01".toList = false := by
  decide +kernel

end ApiScaffold.Toml
