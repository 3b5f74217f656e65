import ApiScaffold.Decimal.Binary64

set_option autoImplicit false

/-! # Shortest decimal texts

A finite number is written with the fewest digits that read back as the same number, and of those
with the digits nearest to it. Where the point stands is a matter of layout. -/

namespace ApiScaffold

/-! ## Digits -/

/-- A decimal `digits * 10 ^ exponent`. -/
structure Decimal where
  digits : Nat
  exponent : Int
deriving DecidableEq, Repr, Inhabited

namespace Decimal

/-- The decimals that round to one binary number, as multiples of `1 / unit`. -/
structure Window where
  low : Nat
  value : Nat
  high : Nat
  unit : Nat
  /-- Whether the ends themselves round to the number. -/
  closed : Bool

/-- The window of a finite number that is not zero: it reaches half way to both neighbours, and down
to a power of two only a quarter. -/
def window (x : Binary64) : Window :=
  let m := x.significand
  let up := twoTo (x.scale - 2).toNat
  let below := if m = twoTo 52 && (-1074 : Int) < x.scale then 1 else 2
  { low := (4 * m - below) * up
    value := 4 * m * up
    high := (4 * m + 2) * up
    unit := twoTo (2 - x.scale).toNat
    closed := m % 2 == 0 }

/-- Whether a decimal lies in the window. -/
def Window.admits (w : Window) (d : Decimal) : Bool :=
  let point := d.digits * tenTo d.exponent.toNat * w.unit
  let grow := tenTo (-d.exponent).toNat
  if w.closed then w.low * grow ≤ point && point ≤ w.high * grow
  else w.low * grow < point && point < w.high * grow

/-- The power of ten of the first digit of `value / unit`. -/
def Window.magnitude (w : Window) : Int :=
  if w.unit ≤ w.value then (Nat.toDigits 10 (w.value / w.unit)).length - 1
  else
    match (List.range 400).find? fun j => w.unit ≤ w.value * tenTo j with
    | some j => -(j : Int)
    | none => -400

/-- The best decimal of a given count of digits, if one lies in the window: of the two neighbours of
the value the nearer, of two equally near ones the even one. -/
def Window.best? (w : Window) (count : Nat) : Option Decimal :=
  let exponent := w.magnitude - (count : Int) + 1
  let num := w.value * tenTo (-exponent).toNat
  let den := w.unit * tenTo exponent.toNat
  let below : Decimal := ⟨num / den, exponent⟩
  let above : Decimal := ⟨num / den + 1, exponent⟩
  match w.admits below, w.admits above with
  | false, false => none
  | true, false => some below
  | false, true => some above
  | true, true => some ⟨Binary64.roundHalfEven num den, exponent⟩

/-- A decimal without trailing zeros in its digits. -/
def stripZeros : Nat → Decimal → Decimal
  | 0, d => d
  | fuel + 1, d =>
    if d.digits != 0 && d.digits % 10 == 0 then stripZeros fuel ⟨d.digits / 10, d.exponent + 1⟩
    else d

/-- The shortest decimal that reads back as a finite number; seventeen digits always suffice. -/
def shortest (x : Binary64) : Decimal :=
  if x.isZero then ⟨0, 0⟩
  else
    let w := window x
    stripZeros 20 (((List.range 17).findSome? fun n => w.best? (n + 1)).getD ⟨0, 0⟩)

end Decimal

/-! ## Layout -/

/-- How numbers are laid out as text. -/
structure NumberLayout where
  /-- The least exponent of the first digit that is written without a power of ten. -/
  leastPlain : Int
  /-- The least exponent of the first digit from which on a power of ten is written. -/
  firstScientific : Int
  infinity : String
  invalid : String

namespace NumberLayout

/-- Digits with the point after the first `point` of them, and at least one digit on either side. -/
def plain (digits : List Char) (point : Int) : List Char :=
  if point ≤ 0 then ['0', '.'] ++ List.replicate (-point).toNat '0' ++ digits
  else
    let whole := digits.take point.toNat
    let rest := digits.drop point.toNat
    whole ++ List.replicate (point.toNat - whole.length) '0' ++ ['.'] ++
      (if rest.isEmpty then ['0'] else rest)

/-- One digit, the others after a point, and the power of ten with its sign and two digits. -/
def scientific (digits : List Char) (exponent : Int) : List Char :=
  let power := Nat.toDigits 10 exponent.natAbs
  digits.take 1 ++ (if digits.length > 1 then '.' :: digits.drop 1 else []) ++ ['e'] ++
    [if exponent < 0 then '-' else '+'] ++ (if power.length < 2 then '0' :: power else power)

/-- The text of a number. -/
def text (layout : NumberLayout) (x : Binary64) : String :=
  let sign := if x.negative then "-" else ""
  if x.isInvalid then layout.invalid
  else if !x.isFinite then sign ++ layout.infinity
  else
    let d := Decimal.shortest x
    let digits := Nat.toDigits 10 d.digits
    let exponent : Int := if d.digits = 0 then 0 else (digits.length : Int) + d.exponent - 1
    sign ++ String.ofList
      (if layout.leastPlain ≤ exponent && exponent < layout.firstScientific then
        plain digits (exponent + 1)
      else scientific digits exponent)

end NumberLayout

end ApiScaffold
