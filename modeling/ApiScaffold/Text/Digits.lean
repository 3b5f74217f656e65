import ApiScaffold.Text.Cut

set_option autoImplicit false

/-! # Digits and numerals

Decimal digits of every script (Unicode 14) count as digits and have a value; superscripts, circled
digits and the like also count as digits but have none, so a text of digits need not be a
numeral. -/

namespace ApiScaffold.Text

/-- The code points of the zeros: each is followed by the digits one to nine of its script. -/
def zeros : List Nat := [
    0x30, 0x660, 0x6f0, 0x7c0, 0x966, 0x9e6, 0xa66, 0xae6, 0xb66, 0xbe6, 0xc66, 0xce6, 0xd66, 0xde6,
    0xe50, 0xed0, 0xf20, 0x1040, 0x1090, 0x17e0, 0x1810, 0x1946, 0x19d0, 0x1a80, 0x1a90, 0x1b50,
    0x1bb0, 0x1c40, 0x1c50, 0xa620, 0xa8d0, 0xa900, 0xa9d0, 0xa9f0, 0xaa50, 0xabf0, 0xff10, 0x104a0,
    0x10d30, 0x11066, 0x110f0, 0x11136, 0x111d0, 0x112f0, 0x11450, 0x114d0, 0x11650, 0x116c0,
    0x11730, 0x118e0, 0x11950, 0x11c50, 0x11d50, 0x11da0, 0x16a60, 0x16ac0, 0x16b50, 0x1d7ce,
    0x1d7d8, 0x1d7e2, 0x1d7ec, 0x1d7f6, 0x1e140, 0x1e2f0, 0x1e950, 0x1fbf0]

/-- Ranges of the digits that do not belong to a decimal numeral. -/
def ornamentalDigits : List (Nat × Nat) := [
    (0xb2, 0xb3), (0xb9, 0xb9), (0x1369, 0x1371), (0x19da, 0x19da), (0x2070, 0x2070),
    (0x2074, 0x2079), (0x2080, 0x2089), (0x2460, 0x2468), (0x2474, 0x247c), (0x2488, 0x2490),
    (0x24ea, 0x24ea), (0x24f5, 0x24fd), (0x24ff, 0x24ff), (0x2776, 0x277e), (0x2780, 0x2788),
    (0x278a, 0x2792), (0x10a40, 0x10a43), (0x10e60, 0x10e68), (0x11052, 0x1105a),
    (0x1f100, 0x1f10a)]

/-- The value of a decimal digit of any script. -/
def digitValue? (c : Char) : Option Nat :=
  (zeros.find? fun start => start ≤ c.toNat && c.toNat < start + 10).map (c.toNat - ·)

/-- The value of a hexadecimal digit. -/
def hexDigitValue? (c : Char) : Option Nat :=
  if '0' ≤ c && c ≤ '9' then some (c.toNat - '0'.toNat)
  else if 'a' ≤ c && c ≤ 'f' then some (c.toNat - 'a'.toNat + 10)
  else if 'A' ≤ c && c ≤ 'F' then some (c.toNat - 'A'.toNat + 10)
  else none

/-- Whether a character counts as a digit, with or without a value. -/
def isDigit (c : Char) : Bool :=
  (digitValue? c).isSome ||
    ornamentalDigits.any fun r => r.1 ≤ c.toNat && c.toNat ≤ r.2

/-- A nonempty text of digits alone. -/
def allDigits (text : List Char) : Bool :=
  !text.isEmpty && text.all isDigit

/-- The number that a text of decimal digits writes. -/
def natural? : List Char → Option Nat
  | [] => none
  | text => text.foldlM (fun n c => (digitValue? c).map (10 * n + ·)) 0

/-- The number that digits write in which single underscores may stand between two digits. -/
def grouped? : List Char → Option Nat
  | [] => none
  | text =>
    let step (state : Nat × Bool) (c : Char) : Option (Nat × Bool) :=
      match digitValue? c with
      | some d => some (10 * state.1 + d, true)
      | none => if c = '_' && state.2 then some (state.1, false) else none
    match text.foldlM step (0, false) with
    | some (n, true) => some n
    | _ => none

/-- An integer in decimal digits, perhaps with a sign, underscores between digits, and blanks
around it. -/
def integer? (text : List Char) : Option Int :=
  match trim isBlank text with
  | '-' :: digits => (grouped? digits).map fun n => -(n : Int)
  | '+' :: digits => (grouped? digits).map fun n => (n : Int)
  | digits => (grouped? digits).map fun n => (n : Int)

example : natural? ['٢', '0'] = some 20 ∧ natural? ['²'] = none ∧ allDigits ['²'] = true := by
  decide +kernel

example : grouped? ['1', '_', '0'] = some 10 ∧ grouped? ['1', '_'] = none := by decide +kernel

end ApiScaffold.Text
