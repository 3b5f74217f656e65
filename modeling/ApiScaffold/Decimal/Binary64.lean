set_option autoImplicit false

/-! # Binary floating-point numbers

A number of 64 bits: a sign, a significand below `2 ^ 53` and a power of two. Decimal numerals are
rounded to the nearest such number, of two equally near ones to the one with an even significand. -/

namespace ApiScaffold

/-- A power of two. -/
def twoTo (exponent : Nat) : Nat := Nat.pow 2 exponent

/-- A power of ten. -/
def tenTo (exponent : Nat) : Nat := Nat.pow 10 exponent

/-- A binary floating-point number, known by its 64 bits. -/
structure Binary64 where
  bits : UInt64
deriving DecidableEq, Repr, Inhabited

namespace Binary64

/-! ## Reading the bits -/

/-- The sign bit. -/
def negative (x : Binary64) : Bool :=
  twoTo 63 ≤ x.bits.toNat

/-- The eleven bits of the exponent. -/
def exponentField (x : Binary64) : Nat :=
  x.bits.toNat / twoTo 52 % twoTo 11

/-- The 52 bits of the fraction. -/
def fraction (x : Binary64) : Nat :=
  x.bits.toNat % twoTo 52

/-- Neither an infinity nor an invalid number. -/
def isFinite (x : Binary64) : Bool :=
  x.exponentField < 2047

/-- The bits stand for no number at all. -/
def isInvalid (x : Binary64) : Bool :=
  x.exponentField == 2047 && x.fraction != 0

/-- A finite number is its significand times two to its scale, with its sign. -/
def significand (x : Binary64) : Nat :=
  if x.exponentField = 0 then x.fraction else x.fraction + twoTo 52

/-- The power of two that the significand counts. -/
def scale (x : Binary64) : Int :=
  if x.exponentField = 0 then -1074 else (x.exponentField : Int) - 1075

/-- Zero of either sign. -/
def isZero (x : Binary64) : Bool :=
  x.isFinite && x.significand == 0

/-! ## Rounding to the nearest -/

/-- The whole number nearest to a quotient, of two equally near ones the even one. -/
def roundHalfEven (num den : Nat) : Nat :=
  let quotient := num / den
  let twice := 2 * (num % den)
  if twice < den then quotient
  else if den < twice then quotient + 1
  else quotient + quotient % 2

/-- Assemble a number from its sign and the bits below it. -/
def assemble (negative : Bool) (low : Nat) : Binary64 :=
  ⟨UInt64.ofNat (if negative then twoTo 63 + low else low)⟩

/-- The infinity of a sign. -/
def infinity (negative : Bool) : Binary64 :=
  assemble negative (2047 * twoTo 52)

/-- The invalid number. -/
def invalid : Binary64 :=
  assemble false (2047 * twoTo 52 + twoTo 51)

/-- The number nearest to a quotient of positive numbers. -/
def ofRatio (negative : Bool) (num den : Nat) : Binary64 :=
  if num = 0 then assemble negative 0
  else
    -- the logarithms give the scale up to one; subnormal numbers have the least scale there is
    let estimate : Int := (num.log2 : Int) - den.log2 - 53
    let scaled (scale : Int) : Nat × Nat :=
      (num * twoTo (-scale).toNat, den * twoTo scale.toNat)
    let fits (scale : Int) : Bool :=
      (scaled scale).1 / (scaled scale).2 < twoTo 53
    let scale := max (-1074) (if fits estimate then estimate else estimate + 1)
    let rounded := roundHalfEven (scaled scale).1 (scaled scale).2
    -- rounding up can reach the next power of two
    let (significand, scale) :=
      if rounded = twoTo 53 then (twoTo 52, scale + 1) else (rounded, scale)
    if 971 < scale then infinity negative
    else if significand < twoTo 52 then assemble negative significand
    else assemble negative ((scale + 1075).toNat * twoTo 52 + (significand - twoTo 52))

/-- The number nearest to `digits * 10 ^ exponent`. Exponents that are out of reach for the count of
digits are not computed with. -/
def ofDecimal (negative : Bool) (digits : Nat) (exponent : Int) : Binary64 :=
  let size : Int := (Nat.toDigits 10 digits).length
  if digits = 0 then assemble negative 0
  else if 400 < size + exponent then infinity negative
  else if size + exponent < -400 then assemble negative 0
  else ofRatio negative (digits * tenTo exponent.toNat) (tenTo (-exponent).toNat)

/-! ## Sums -/

/-- The quotient that the magnitude of a finite number is. -/
def ratio (x : Binary64) : Nat × Nat :=
  (x.significand * twoTo x.scale.toNat, twoTo (-x.scale).toNat)

/-- The number nearest to the sum of two magnitudes. -/
def sumOfMagnitudes (x y : Binary64) : Binary64 :=
  ofRatio false (x.ratio.1 * y.ratio.2 + y.ratio.1 * x.ratio.2) (x.ratio.2 * y.ratio.2)

/-- The number nearest to a multiple of a magnitude. -/
def multipleOfMagnitude (n : Nat) (x : Binary64) : Binary64 :=
  ofRatio false (n * x.ratio.1) x.ratio.2

/-- The number of the same magnitude with a sign. -/
def withSign (negative : Bool) (x : Binary64) : Binary64 :=
  assemble negative (x.bits.toNat % twoTo 63)

/-! ## Exact comparison -/

/-- Whether a finite number is exactly an integer. -/
def equalsInt (x : Binary64) (n : Int) : Bool :=
  x.isFinite &&
    let magnitude := x.significand * twoTo x.scale.toNat
    (if x.negative then -(magnitude : Int) else magnitude) == n * (twoTo (-x.scale).toNat : Nat)

/-- Equality of the numbers, not of the bits: zeros of both signs are equal, an invalid number
equals nothing. -/
def equals (x y : Binary64) : Bool :=
  !x.isInvalid && !y.isInvalid && (x == y || (x.isZero && y.isZero))

end Binary64

end ApiScaffold
