import ApiScaffold.Code.Literal
import Mathlib.Data.List.Basic

set_option autoImplicit false

/-! # Texts in quotes

A text is written between single quotes with some of its characters escaped. Code reads it again as
a sequence of UTF-16 units (`readLiteral`): up to the first quote that no backslash escapes, with
every escape that a literal may have, and no further than the end of the line.

Escaping keeps every quote and every line feed from standing bare, so no text ends its literal or
breaks it into lines, and two texts never have the same literal. A carriage return ends a line too,
but it is not escaped: the literal of a text without one is read as that text, whatever follows it,
and the literal of a text with one is not read at all (`stringLiteral_outcome`). -/

namespace ApiScaffold

namespace Text

/-! ## Units -/

/-- The UTF-16 units of a code point. -/
def unitsOfCode (code : Nat) : List Nat :=
  if code < 0x10000 then [code]
  else [0xd800 + (code - 0x10000) / 0x400, 0xdc00 + (code - 0x10000) % 0x400]

/-- The UTF-16 units of a character; a half of a pair is one. -/
def units (c : Char) : List Nat :=
  match half? c with
  | some unit => [unit]
  | none => unitsOfCode c.toNat

example : units 'a' = [0x61] ∧ units '😀' = [0xd83d, 0xde00] ∧ units (ofUnit 0xd83d) = [0xd83d] := by
  decide

/-! ## Escaped characters -/

/-- Whether a mark stands in a text without a backslash that escapes it; `escaped` tells that a
backslash stands in front. -/
def standsBare (mark : Char) : Bool → List Char → Bool
  | _, [] => false
  | true, _ :: rest => standsBare mark false rest
  | false, c :: rest =>
    if c = '\\' then standsBare mark true rest else c == mark || standsBare mark false rest

end Text

namespace Code

open Text (units unitsOfCode standsBare)

/-! ## Reading literals -/

/-- Where in a literal its reading is. -/
inductive LiteralPlace where
  /-- Between characters and escapes. -/
  | plain
  /-- Behind a backslash. -/
  | escape
  /-- Behind the letter of an escape that gives a code point or a unit. -/
  | unicode
  /-- Among the digits of a unit, some of which are left. -/
  | digits (left value : Nat)
  /-- Among the digits of a code point in braces; there is none yet, or they have a value. -/
  | braces (value : Option Nat)

/-- The characters that end a line of code. -/
def endsLine (c : Char) : Bool := c = '\n' || c = '\r' || c = '\u2028' || c = '\u2029'

/-- The letters that stand for a control character when they are escaped. -/
def controlEscapes : List (Char × Char) :=
  [('b', '\x08'), ('t', '\t'), ('n', '\n'), ('v', '\x0b'), ('f', '\x0c'), ('r', '\r')]

/-- What an escaped character stands for. -/
def unescaped (c : Char) : Char := (controlEscapes.lookup c).getD c

/-- Put units in front of what the rest of a literal gives. -/
def inFront (found : List Nat) (rest : Option (List Nat × List Char)) :
    Option (List Nat × List Char) :=
  rest.map fun r => (found ++ r.1, r.2)

/-- Read a literal from a place behind its opening quote: its units and what follows the closing
quote. Digits are escaped only as a zero that no digit follows. -/
def readLiteral : LiteralPlace → List Char → Option (List Nat × List Char)
  | _, [] => none
  | .plain, c :: rest =>
    if c = '\'' then some ([], rest)
    else if c = '\\' then readLiteral .escape rest
    else if c = '\n' || c = '\r' then none
    else inFront (units c) (readLiteral .plain rest)
  | .escape, c :: rest =>
    -- the two characters of one line end are passed one after the other
    if c = '\r' && rest.head? = some '\n' then readLiteral .escape rest
    else if endsLine c then readLiteral .plain rest
    else if c = 'x' then readLiteral (.digits 2 0) rest
    else if c = 'u' then readLiteral .unicode rest
    else if c.isDigit then
      if c = '0' && !rest.head?.any Char.isDigit then inFront [0] (readLiteral .plain rest)
      else none
    else inFront (units (unescaped c)) (readLiteral .plain rest)
  | .unicode, c :: rest =>
    if c = '\x7b' then readLiteral (.braces none) rest
    else (Text.hexDigitValue? c).bind fun d => readLiteral (.digits 3 d) rest
  | .digits left value, c :: rest =>
    (Text.hexDigitValue? c).bind fun d =>
      if left ≤ 1 then inFront [16 * value + d] (readLiteral .plain rest)
      else readLiteral (.digits (left - 1) (16 * value + d)) rest
  | .braces value, c :: rest =>
    if c = '\x7d' then value.bind fun code => inFront (unitsOfCode code) (readLiteral .plain rest)
    else (Text.hexDigitValue? c).bind fun d =>
      let code := 16 * value.getD 0 + d
      if code < 0x110000 then readLiteral (.braces (some code)) rest else none

/-- Read a literal at the front of some code. -/
def readQuoted : List Char → Option (List Nat × List Char)
  | '\'' :: rest => readLiteral .plain rest
  | _ => none

example : readQuoted "'\\x41\\u\x7b1f600\x7d\\\r\n\\0\\q'.b".toList =
      some ([0x41, 0xd83d, 0xde00, 0, 0x71], ['.', 'b']) ∧
    readQuoted "'a\nb'".toList = none ∧ readQuoted "'\\01'".toList = none := by
  decide +kernel

/-! ## Escaping -/

variable {c d : Char} {text rest : List Char}

/-- A backslash, a quote and a line feed are escaped, and nothing else. -/
theorem literalChar_cases (c : Char) :
    (c = '\\' ∨ c = '\'') ∧ literalChar c = ['\\', c] ∨ c = '\n' ∧ literalChar c = ['\\', 'n'] ∨
      (c ≠ '\\' ∧ c ≠ '\'' ∧ c ≠ '\n') ∧ literalChar c = [c] := by
  unfold literalChar
  split
  · next h => simp [h]
  · split
    · next h => simp [h]
    · split
      · next h => simp [h]
      · next h => simp_all

theorem literalChar_append_inj {other : List Char}
    (h : literalChar c ++ text = literalChar d ++ other) : c = d ∧ text = other := by
  rcases literalChar_cases c with ⟨hc, hcs⟩ | ⟨hc, hcs⟩ | ⟨hc, hcs⟩ <;>
    rcases literalChar_cases d with ⟨hd, hds⟩ | ⟨hd, hds⟩ | ⟨hd, hds⟩ <;>
    simp only [hcs, hds, List.cons_append, List.nil_append, List.cons.injEq] at h <;> grind

/-- What is escaped tells the text. -/
theorem flatMap_literalChar_inj {other : List Char}
    (h : text.flatMap literalChar = other.flatMap literalChar) : text = other := by
  have hne : ∀ c, literalChar c ≠ [] := by
    intro c
    rcases literalChar_cases c with ⟨-, hc⟩ | ⟨-, hc⟩ | ⟨-, hc⟩ <;> simp [hc]
  induction text generalizing other with
  | nil =>
      cases other with
      | nil => rfl
      | cons d other => simp [hne d] at h
  | cons c text ih =>
      cases other with
      | nil => simp [hne c] at h
      | cons d other =>
          rw [List.flatMap_cons, List.flatMap_cons] at h
          obtain ⟨rfl, hrest⟩ := literalChar_append_inj h
          rw [ih hrest]

theorem stringLiteral_inj {s t : String} (h : stringLiteral s = stringLiteral t) : s = t := by
  have hlist := congrArg String.toList h
  simp only [stringLiteral, String.toList_ofList, List.cons_append, List.cons.injEq, true_and,
    List.append_cancel_right_eq] at hlist
  exact String.toList_inj.mp (flatMap_literalChar_inj hlist)

/-- Escaped characters leave no quote bare, and no backslash that would escape what follows. -/
theorem standsBare_flatMap :
    standsBare '\'' false (text.flatMap literalChar ++ rest) = standsBare '\'' false rest := by
  induction text with
  | nil => rfl
  | cons c text ih =>
      rw [List.flatMap_cons, List.append_assoc, ← ih]
      rcases literalChar_cases c with ⟨-, hc⟩ | ⟨-, hc⟩ | ⟨⟨hback, hquote, -⟩, hc⟩
      · rw [hc]; rfl
      · rw [hc]; rfl
      · rw [hc]
        simp [standsBare, hback, hquote]

theorem lineFeed_notMem_flatMap : '\n' ∉ text.flatMap literalChar := by
  rw [List.mem_flatMap]
  rintro ⟨c, -, hmem⟩
  rcases literalChar_cases c with ⟨rfl | rfl, hc⟩ | ⟨-, hc⟩ | ⟨⟨-, -, hline⟩, hc⟩ <;>
    rw [hc] at hmem
  · simp at hmem
  · simp at hmem
  · simp at hmem
  · exact hline (List.mem_singleton.mp hmem).symm

theorem carriageReturn_mem_flatMap : '\r' ∈ text.flatMap literalChar ↔ '\r' ∈ text := by
  rw [List.mem_flatMap]
  constructor
  · rintro ⟨c, hc, hmem⟩
    rcases literalChar_cases c with ⟨rfl | rfl, h⟩ | ⟨-, h⟩ | ⟨-, h⟩ <;> rw [h] at hmem
    · simp at hmem
    · simp at hmem
    · simp at hmem
    · exact List.mem_singleton.mp hmem ▸ hc
  · intro h
    exact ⟨'\r', h, List.mem_singleton_self _⟩

/-! ## Reading what is escaped -/

theorem inFront_inFront {found more : List Nat} {result : Option (List Nat × List Char)} :
    inFront found (inFront more result) = inFront (found ++ more) result := by
  cases result <;> simp [inFront]

/-- An escaped character is read as the character. -/
theorem readLiteral_literalChar (h : c ≠ '\r') :
    readLiteral .plain (literalChar c ++ rest) = inFront (units c) (readLiteral .plain rest) := by
  rcases literalChar_cases c with ⟨rfl | rfl, hc⟩ | ⟨rfl, hc⟩ | ⟨⟨hback, hquote, hline⟩, hc⟩
  · rw [hc]; rfl
  · rw [hc]; rfl
  · rw [hc]; rfl
  · rw [hc]
    simp [readLiteral, hback, hquote, hline, h]

theorem readLiteral_flatMap (h : '\r' ∉ text) :
    readLiteral .plain (text.flatMap literalChar ++ rest) =
      inFront (text.flatMap units) (readLiteral .plain rest) := by
  induction text with
  | nil => cases hrest : readLiteral .plain rest <;> simp [inFront, hrest]
  | cons c text ih =>
      rw [List.mem_cons, not_or] at h
      obtain ⟨hc, htext⟩ := h
      rw [List.flatMap_cons, List.append_assoc, readLiteral_literalChar (Ne.symm hc), ih htext,
        inFront_inFront, List.flatMap_cons]

/-- The literal of a text ends where its line ends. -/
theorem readLiteral_carriageReturn (h : '\r' ∈ text) :
    readLiteral .plain (text.flatMap literalChar ++ rest) = none := by
  obtain ⟨before, after, rfl, hbefore⟩ := List.eq_append_cons_of_mem h
  rw [List.flatMap_append, List.append_assoc, readLiteral_flatMap hbefore]
  rfl

/-- The literal of a text stands between single quotes. No quote stands bare inside, so that the
one behind it closes it, and no line feed. If the text has no carriage return, then neither has its
literal, and this is read as the text, whatever follows; else it is not read. No other text has the
same literal. -/
theorem stringLiteral_outcome (s : String) :
    (∃ inside, (stringLiteral s).toList = '\'' :: inside ++ ['\''] ∧
        standsBare '\'' false inside = false ∧ standsBare '\'' false (inside ++ ['\'']) = true ∧
        '\n' ∉ inside ∧ ('\r' ∈ inside ↔ '\r' ∈ s.toList)) ∧
      (∀ rest, readQuoted ((stringLiteral s).toList ++ rest) =
        if '\r' ∈ s.toList then none else some (s.toList.flatMap units, rest)) ∧
      ∀ t, stringLiteral t = stringLiteral s → t = s := by
  refine ⟨⟨s.toList.flatMap literalChar, by simp [stringLiteral], ?_, ?_, lineFeed_notMem_flatMap,
    carriageReturn_mem_flatMap⟩, ?_, fun t h => stringLiteral_inj h⟩
  · simpa [standsBare] using @standsBare_flatMap s.toList []
  · rw [standsBare_flatMap]
    rfl
  · intro rest
    have hlist : (stringLiteral s).toList ++ rest =
        '\'' :: (s.toList.flatMap literalChar ++ '\'' :: rest) := by
      simp [stringLiteral]
    rw [hlist, readQuoted]
    split
    · next h => exact readLiteral_carriageReturn h
    · next h =>
        rw [readLiteral_flatMap h]
        simp [readLiteral, inFront]

/-- A text of two lines that a carriage return parts has no literal on one line. -/
theorem carriageReturn_unread :
    ¬∀ s : String, (∃ inside, (stringLiteral s).toList = '\'' :: inside ++ ['\''] ∧ '\r' ∉ inside) ∧
      ∃ units, readQuoted (stringLiteral s).toList = some (units, []) := by
  intro h
  obtain ⟨-, units, hread⟩ := h "a\rb"
  have hnone : readQuoted (stringLiteral "a\rb").toList = none := by decide
  cases hnone.symm.trans hread

end Code

end ApiScaffold
