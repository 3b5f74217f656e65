set_option autoImplicit false

/-! # Halves of surrogate pairs

In UTF-16 a character beyond U+FFFF is a pair of units, and an escape can write one unit of a pair
alone. Such a half is no character; a text holds in its place the character for private use whose
code is higher by `standInShift`. Two halves that meet can be joined to the character that they
encode. -/

namespace ApiScaffold.Text

/-- How much higher the code of the character in place of a half is. -/
def standInShift : Nat := 0x100000

/-- The first half of a pair. -/
def isHighUnit (unit : Nat) : Bool := 0xd800 ≤ unit && unit < 0xdc00

/-- The second half of a pair. -/
def isLowUnit (unit : Nat) : Bool := 0xdc00 ≤ unit && unit < 0xe000

/-- The character of a unit: itself, or one in place of a half. -/
def ofUnit (unit : Nat) : Char :=
  if isHighUnit unit || isLowUnit unit then Char.ofNat (standInShift + unit) else Char.ofNat unit

/-- The half that a character stands in place of. -/
def half? (c : Char) : Option Nat :=
  let unit := c.toNat - standInShift
  if standInShift ≤ c.toNat && (isHighUnit unit || isLowUnit unit) then some unit else none

/-- The character that two halves encode. -/
def ofPair (high low : Nat) : Char :=
  Char.ofNat (0x10000 + (high - 0xd800) * 0x400 + (low - 0xdc00))

/-- A text with the halves that meet joined. -/
def joinHalves : List Char → List Char
  | a :: b :: rest =>
    match half? a, half? b with
    | some high, some low =>
      if isHighUnit high && isLowUnit low then ofPair high low :: joinHalves rest
      else a :: joinHalves (b :: rest)
    | _, _ => a :: joinHalves (b :: rest)
  | text => text

example : half? (ofUnit 0xd83d) = some 0xd83d ∧ half? 'a' = none := by decide

example : joinHalves [ofUnit 0xd83d, ofUnit 0xd83d, ofUnit 0xde00] = [ofUnit 0xd83d, '😀'] := by
  decide +kernel

end ApiScaffold.Text
