import ApiScaffold.Text.Digits

set_option autoImplicit false

/-! # Percent escapes

`%` and two hexadecimal digits stand for a byte, and bytes for the characters that they encode in
UTF-8. Bytes that encode nothing become the replacement character. -/

namespace ApiScaffold.Text

/-- A character of the text, or a byte that is part of one. -/
inductive Unescaped where
  | byte (value : Nat)
  | char (value : Char)
deriving DecidableEq, Repr

/-- The characters of a text with its escapes turned into bytes; an escape that is not complete
stands for itself. -/
def unescapeBytes : List Char → List Unescaped
  | [] => []
  | '%' :: a :: b :: rest =>
    match hexDigitValue? a, hexDigitValue? b with
    | some high, some low => .byte (16 * high + low) :: unescapeBytes rest
    | _, _ => .char '%' :: unescapeBytes (a :: b :: rest)
  | c :: rest => .char c :: unescapeBytes rest

/-- How many bytes follow the first one of a character, and what the first one adds. -/
def leadByte? (value : Nat) : Option (Nat × Nat) :=
  if value < 0x80 then some (0, value)
  else if 0xc2 ≤ value && value < 0xe0 then some (1, value - 0xc0)
  else if 0xe0 ≤ value && value < 0xf0 then some (2, value - 0xe0)
  else if 0xf0 ≤ value && value < 0xf5 then some (3, value - 0xf0)
  else none

/-- The least and the greatest byte that may come second, behind a first one. The narrower ranges
leave out codes that fewer bytes would do for, surrogates, and codes beyond the last one. -/
def secondBytes (lead : Nat) : Nat × Nat :=
  if lead = 0xe0 then (0xa0, 0xbf)
  else if lead = 0xed then (0x80, 0x9f)
  else if lead = 0xf0 then (0x90, 0xbf)
  else if lead = 0xf4 then (0x80, 0x8f)
  else (0x80, 0xbf)

/-- How many of the bytes that should follow stand at the front, and the code point that they make
up with the bits of the first one if they all do; `range` is for the next byte. -/
def followBytes : Nat → Nat × Nat → Nat → List Unescaped → Nat × Option Nat
  | 0, _, code, _ => (0, some code)
  | n + 1, range, code, .byte v :: rest =>
    if range.1 ≤ v && v ≤ range.2 then
      let (used, found) := followBytes n (0x80, 0xbf) (code * 64 + (v - 0x80)) rest
      (used + 1, found)
    else (0, none)
  | _ + 1, _, _, _ => (0, none)

/-- Bytes put together to characters; `skip` counts the bytes that a character already used. Bytes
that begin a character and do not complete it become one replacement character together. -/
def gatherBytes : Nat → List Unescaped → List Char
  | _, [] => []
  | skip + 1, _ :: rest => gatherBytes skip rest
  | 0, .char c :: rest => c :: gatherBytes 0 rest
  | 0, .byte v :: rest =>
    match leadByte? v with
    | none => '\ufffd' :: gatherBytes 0 rest
    | some (count, start) =>
      let (used, found) := followBytes count (secondBytes v) start rest
      (found.elim '\ufffd' Char.ofNat) :: gatherBytes used rest

/-- A text with its percent escapes resolved. -/
def percentDecode (text : List Char) : List Char :=
  gatherBytes 0 (unescapeBytes text)

example : percentDecode "a%2Fb%C3%A9%".toList = "a/bé%".toList := by decide +kernel

example : percentDecode "%E2%82x%ED%A0".toList = "\ufffdx\ufffd\ufffd".toList := by decide +kernel

end ApiScaffold.Text
