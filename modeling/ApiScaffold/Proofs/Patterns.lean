import ApiScaffold.Code.Decorator
import ApiScaffold.Proofs.Quoting
import ApiScaffold.Proofs.WrittenPointers

set_option autoImplicit false

/-! # Patterns between slashes

A pattern is written between slashes, with a backslash put in front of each slash that it holds. A
reader goes through a pattern item by item: a backslash makes one item with the character behind it
(`items`). So a slash that stands alone becomes an escaped one, as it should, but one that was
escaped before gets a second backslash that escapes the first: it stands bare behind them.

The literal of a pattern is the pattern just when no slash of it is escaped (`matches_outcome`).
Then no slash stands bare in the literal, the literal says what the pattern says, and, unless the
pattern ends in a backslash that escapes nothing, it is read from slash to slash. Slashes in the
brackets of a class are looked at like all others. -/

namespace ApiScaffold.Code

open Text (standsBare)

/-! ## Items -/

/-- What a pattern is made of. A backslash at the end of a pattern, which escapes nothing, counts as
a character. -/
inductive PatternItem where
  | char (c : Char)
  /-- A backslash with the character that it escapes. -/
  | escape (c : Char)
deriving DecidableEq, Repr

namespace PatternItem

/-- The text of an item. -/
def text : PatternItem → List Char
  | char c => [c]
  | escape c => ['\\', c]

/-- An item as it is, but for an escaped slash, which stands for a slash. -/
def withPlainSlash (i : PatternItem) : PatternItem :=
  if i = escape '/' then char '/' else i

/-- What an item becomes when each slash gets a backslash. -/
def guarded (i : PatternItem) : List PatternItem :=
  if i = char '/' then [escape '/'] else if i = escape '/' then [escape '\\', char '/'] else [i]

end PatternItem

/-- The items of a pattern, from left to right. -/
def items : List Char → List PatternItem
  | '\\' :: c :: rest => .escape c :: items rest
  | c :: rest => .char c :: items rest
  | [] => []

/-- A pattern with a slash for each escaped slash. -/
def withPlainSlashes (p : List Char) : List Char :=
  (items p).flatMap fun i => i.withPlainSlash.text

/-- Whether every backslash of a pattern escapes something. -/
def isComplete (p : List Char) : Bool := !(items p).contains (.char '\\')

/-- A pattern with a backslash in front of each slash. -/
def escapeSlashes (p : List Char) : List Char :=
  p.flatMap fun c => if c = '/' then ['\\', '/'] else [c]

/-- The text in front of the first slash that no backslash escapes, and what follows the slash;
`escaped` tells that a backslash stands in front. -/
def cutAtSlash : Bool → List Char → Option (List Char × List Char)
  | _, [] => none
  | true, c :: rest => (cutAtSlash false rest).map fun r => (c :: r.1, r.2)
  | false, c :: rest =>
    if c = '/' then some ([], rest)
    else (cutAtSlash (c = '\\') rest).map fun r => (c :: r.1, r.2)

example : items "\\\\/\\/".toList = [.escape '\\', .char '/', .escape '/'] ∧
    cutAtSlash false "a\\/b/)".toList = some ("a\\/b".toList, [')']) := by
  decide

variable {c : Char} {p q rest : List Char}

theorem items_cons_of_ne (h : c ≠ '\\') : items (c :: rest) = .char c :: items rest := by
  rw [items]
  rintro d more rfl
  exact absurd rfl h

/-! ## Escaping -/

/-- A lone slash is escaped, an escaped one is laid bare, and the other items are as they were. -/
theorem items_escapeSlashes : items (escapeSlashes p) = (items p).flatMap PatternItem.guarded := by
  fun_induction items p with
  | case1 c rest ih =>
      by_cases hc : c = '/'
      · subst hc
        simpa [escapeSlashes, items_cons_of_ne, PatternItem.guarded, items] using ih
      · simpa [escapeSlashes, items, PatternItem.guarded, hc] using ih
  | case2 c rest hlone ih =>
      by_cases hc : c = '/'
      · subst hc
        simpa [escapeSlashes, PatternItem.guarded, items] using ih
      · by_cases hback : c = '\\'
        · subst hback
          cases rest with
          | nil => rfl
          | cons d more => exact absurd rfl (hlone d more rfl)
        · simpa [escapeSlashes, PatternItem.guarded, items_cons_of_ne, hc, hback] using ih
  | case3 => rfl

theorem patternLiteral_eq (s : String) :
    patternLiteral s = "/" ++ String.ofList (escapeSlashes s.toList) ++ "/" := by
  have hreplace : Text.replace ['/'] ['\\', '/'] s.toList = escapeSlashes s.toList :=
    Pointer.replace_singleton
  rw [patternLiteral, Text.substitute, ← hreplace]
  rfl

theorem endsLine_mem_escapeSlashes (h : endsLine c = true) :
    c ∈ escapeSlashes p ↔ c ∈ p := by
  have hslash : c ≠ '/' := by
    rintro rfl
    cases h
  have hback : c ≠ '\\' := by
    rintro rfl
    cases h
  have hiff : ∀ d, c ∈ (if d = '/' then ['\\', '/'] else [d]) ↔ c = d := by
    intro d
    split
    · next hd => simp [hd, hslash, hback]
    · exact List.mem_singleton
  simp [escapeSlashes, List.mem_flatMap, hiff]

theorem isComplete_escapeSlashes : isComplete (escapeSlashes p) = isComplete p := by
  have hiff : ∀ i, .char '\\' ∈ PatternItem.guarded i ↔ i = .char '\\' := by
    intro i
    unfold PatternItem.guarded
    split
    · next h => simp [h]
    · split
      · next h => simp [h]
      · simp [eq_comm]
  rw [isComplete, isComplete, items_escapeSlashes, Bool.eq_iff_iff]
  simp [List.mem_flatMap, hiff]

/-! ## Bare slashes -/

/-- A mark other than the backslash stands bare just when it is an item. -/
theorem standsBare_iff {mark : Char} (h : mark ≠ '\\') :
    standsBare mark false p = true ↔ .char mark ∈ items p := by
  fun_induction items p with
  | case1 c rest ih => simpa [standsBare] using ih
  | case2 c rest hlone ih =>
      by_cases hback : c = '\\'
      · subst hback
        cases rest with
        | nil => simpa [standsBare, items] using h
        | cons d more => exact absurd rfl (hlone d more rfl)
      · rw [standsBare, if_neg hback, Bool.or_eq_true, ih, beq_iff_eq, List.mem_cons,
          PatternItem.char.injEq, @eq_comm _ c mark]
  | case3 => simp [standsBare]

/-- A slash stands bare in the literal just when it is escaped in the pattern. -/
theorem standsBare_escapeSlashes :
    standsBare '/' false (escapeSlashes p) = true ↔ .escape '/' ∈ items p := by
  have hiff : ∀ i, .char '/' ∈ PatternItem.guarded i ↔ i = .escape '/' := by
    intro i
    unfold PatternItem.guarded
    split
    · next h => simp [h]
    · split
      · next h => simp [h]
      · next hslash hescape => simp [Ne.symm hslash, hescape]
  rw [standsBare_iff (by decide), items_escapeSlashes, List.mem_flatMap]
  simp [hiff]

/-! ## What a pattern says -/

/-- For each escaped slash of a pattern, the literal says two backslashes more. -/
theorem length_withPlainSlashes :
    (withPlainSlashes (escapeSlashes p)).length =
      (withPlainSlashes p).length + 2 * (items p).count (.escape '/') := by
  rw [withPlainSlashes, withPlainSlashes, items_escapeSlashes]
  induction items p with
  | nil => rfl
  | cons i more ih =>
      rw [List.flatMap_cons, List.flatMap_append, List.length_append, ih, List.flatMap_cons,
        List.length_append, List.count_cons]
      by_cases hslash : i = .char '/'
      · subst hslash
        simp [PatternItem.guarded, PatternItem.withPlainSlash, PatternItem.text]
        omega
      · by_cases hescape : i = .escape '/'
        · subst hescape
          simp [PatternItem.guarded, PatternItem.withPlainSlash, PatternItem.text]
          omega
        · simp [PatternItem.guarded, hslash, hescape]
          omega

theorem withPlainSlashes_escapeSlashes :
    withPlainSlashes (escapeSlashes p) = withPlainSlashes p ↔ .escape '/' ∉ items p := by
  constructor
  · intro h hmem
    have hlength := congrArg List.length h
    have hpos : 0 < (items p).count (.escape '/') := List.count_pos_iff.mpr hmem
    rw [length_withPlainSlashes] at hlength
    omega
  · intro h
    rw [withPlainSlashes, withPlainSlashes, items_escapeSlashes, List.flatMap_assoc]
    refine List.flatMap_congr fun i hi => ?_
    have hescape : i ≠ .escape '/' := fun heq => h (heq ▸ hi)
    unfold PatternItem.guarded
    split
    · next hslash => simp [hslash, PatternItem.withPlainSlash]
    · simp

/-! ## Where the literal ends -/

/-- A text in front of a slash is read up to this slash just when no slash stands bare in it and no
backslash escapes the slash behind it. -/
theorem cutAtSlash_eq_some :
    cutAtSlash false (q ++ '/' :: rest) = some (q, rest) ↔
      .char '/' ∉ items q ∧ isComplete q = true := by
  fun_induction items q with
  | case1 c more ih =>
      simpa [cutAtSlash, isComplete, items] using ih
  | case2 c more hlone ih =>
      by_cases hslash : c = '/'
      · simp [cutAtSlash, hslash]
      · by_cases hback : c = '\\'
        · subst hback
          cases more with
          | nil =>
              -- the backslash escapes the slash behind the text, so more than the text is read
              simp [cutAtSlash, isComplete, items]
          | cons d more => exact absurd rfl (hlone d more rfl)
        · simpa [cutAtSlash, isComplete, items_cons_of_ne, hslash, hback, Ne.symm hslash,
            Ne.symm hback] using ih
  | case3 => simp [cutAtSlash, isComplete, items]

/-! ## Literals -/

theorem text_ofConstraint_pattern (s : String) :
    (Decorator.ofConstraint ⟨.pattern, .text s⟩).map Decorator.text =
      .ok ("@Matches(/" ++ String.ofList (escapeSlashes s.toList) ++ "/)") := by
  have hfront : "@Matches(/" = "@" ++ "Matches" ++ "(" ++ "/" := by decide
  have hback : "/)" = "/" ++ ")" := by decide
  have hliteral : patternLiteral (Json.str s).display =
      "/" ++ String.ofList (escapeSlashes s.toList) ++ "/" := patternLiteral_eq s
  rw [hfront, hback]
  simp only [Decorator.ofConstraint, Excerpt.text, Excerpt.plain, Except.map, Decorator.text,
    hliteral, String.append_assoc]

/-- The decorator of a pattern shows it between slashes, with a backslash in front of each slash and
with no line end of its own. A slash stands bare in between just when some slash of the pattern is
escaped already, and just then the literal does not say what the pattern says. Whatever follows, the
literal is read as a whole just when no slash of the pattern is escaped and every backslash of it
escapes something. -/
theorem matches_outcome (s : String) :
    (Decorator.ofConstraint ⟨.pattern, .text s⟩).map Decorator.text =
        .ok ("@Matches(/" ++ String.ofList (escapeSlashes s.toList) ++ "/)") ∧
      (∀ c, endsLine c = true → (c ∈ escapeSlashes s.toList ↔ c ∈ s.toList)) ∧
      (standsBare '/' false (escapeSlashes s.toList) = true ↔ .escape '/' ∈ items s.toList) ∧
      (withPlainSlashes (escapeSlashes s.toList) = withPlainSlashes s.toList ↔
        .escape '/' ∉ items s.toList) ∧
      ∀ rest, cutAtSlash false (escapeSlashes s.toList ++ '/' :: rest) =
          some (escapeSlashes s.toList, rest) ↔
        .escape '/' ∉ items s.toList ∧ isComplete s.toList = true := by
  refine ⟨text_ofConstraint_pattern s, fun c => endsLine_mem_escapeSlashes,
    standsBare_escapeSlashes, withPlainSlashes_escapeSlashes, fun rest => ?_⟩
  rw [cutAtSlash_eq_some, isComplete_escapeSlashes, ← standsBare_iff (by decide),
    standsBare_escapeSlashes]

/-- In the literal of a pattern whose slash is escaped, this slash stands bare. -/
theorem escapedSlash_bare :
    ¬∀ s : String, isComplete s.toList = true → (∀ c ∈ s.toList, endsLine c = false) →
      ∃ q : List Char, (Decorator.ofConstraint ⟨.pattern, .text s⟩).map Decorator.text =
          .ok ("@Matches(/" ++ String.ofList q ++ "/)") ∧
        standsBare '/' false q = false ∧ withPlainSlashes q = withPlainSlashes s.toList := by
  intro h
  have hlines : "a\\/b".toList.any endsLine = false := by decide
  obtain ⟨q, htext, hbare, -⟩ := h "a\\/b" (by decide) (by simpa using hlines)
  rw [text_ofConstraint_pattern, Except.ok.injEq, String.append_left_inj, String.append_right_inj,
    String.ofList_inj] at htext
  rw [← htext] at hbare
  exact absurd hbare (by decide)

end ApiScaffold.Code
