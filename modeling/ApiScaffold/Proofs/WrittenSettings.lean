import ApiScaffold.Proofs.Outcome
import ApiScaffold.Proofs.Pointers
import ApiScaffold.Toml.Writer

set_option autoImplicit false

/-! # Settings as they are written

A table of texts and truth values is written one setting a line, in its order
(`write_of_simple`). Whatever the texts hold, no carriage return stands in what is written, so it is
the same text when it is read back from a file (`write_noReturn`). A text that needs no escapes
stands in its quotes as it is. -/

namespace ApiScaffold

variable {α β ε : Type}

/-! ## Lists of steps -/

theorem filterMapM_of_some {f : α → Except ε (Option β)} {g : α → Except ε β} {xs : List α}
    (h : ∀ x ∈ xs, f x = some <$> g x) : xs.filterMapM f = xs.mapM g := by
  induction xs with
  | nil => rfl
  | cons x xs ih =>
      rw [List.filterMapM_cons, List.mapM_cons, h x List.mem_cons_self,
        ih fun y hy => h y (List.mem_cons_of_mem _ hy)]
      cases g x <;> rfl

theorem filterMapM_of_none {f : α → Except ε (Option β)} {xs : List α}
    (h : ∀ x ∈ xs, f x = pure none) : xs.filterMapM f = pure [] := by
  induction xs with
  | nil => rfl
  | cons x xs ih =>
      rw [List.filterMapM_cons, h x List.mem_cons_self,
        ih fun y hy => h y (List.mem_cons_of_mem _ hy)]
      rfl

/-! ## What the pieces of a text hold -/

namespace Text

variable {c : Char} {old new text piece p : List Char} {pieces : List (List Char)}

theorem mem_of_mem_cutFrom {skip : Nat} (hp : p ∈ cutFrom old skip text piece) (hc : c ∈ p) :
    c ∈ text ∨ c ∈ piece := by
  induction text generalizing skip piece with
  | nil =>
      rw [cutFrom, List.mem_singleton] at hp
      exact .inr (List.mem_reverse.mp (hp ▸ hc))
  | cons d text ih =>
      cases skip with
      | succ skip => exact (ih hp).imp_left (List.mem_cons_of_mem _)
      | zero =>
          rw [cutFrom] at hp
          split at hp
          · rcases List.mem_cons.mp hp with rfl | hp
            · exact .inr (List.mem_reverse.mp hc)
            · rcases ih hp with hrest | hnone
              · exact .inl (List.mem_cons_of_mem _ hrest)
              · cases hnone
          · rcases ih hp with hrest | hbegun
            · exact .inl (List.mem_cons_of_mem _ hrest)
            · rcases List.mem_cons.mp hbegun with rfl | hbegun
              · exact .inl List.mem_cons_self
              · exact .inr hbegun

theorem mem_of_mem_cut (hp : p ∈ cut old text) (hc : c ∈ p) : c ∈ text := by
  rcases mem_of_mem_cutFrom hp hc with htext | hnone
  · exact htext
  · cases hnone

theorem mem_of_mem_intercalate (hc : c ∈ new.intercalate pieces) :
    c ∈ new ∨ ∃ p ∈ pieces, c ∈ p := by
  induction pieces with
  | nil => simp at hc
  | cons p pieces ih =>
      cases pieces with
      | nil => exact .inr ⟨p, List.mem_cons_self, by simpa using hc⟩
      | cons next more =>
          rw [List.intercalate_cons_cons, List.mem_append, List.mem_append] at hc
          rcases hc with (hp | hnew) | hrest
          · exact .inr ⟨p, List.mem_cons_self, hp⟩
          · exact .inl hnew
          · exact (ih hrest).imp_right fun ⟨q, hq, hcq⟩ => ⟨q, List.mem_cons_of_mem _ hq, hcq⟩

/-- A text without the first character of the separator is one piece. -/
theorem cutFrom_of_first_notMem (h : c ∉ text) :
    cutFrom (c :: new) 0 text piece = [piece.reverse ++ text] := by
  induction text generalizing piece with
  | nil => simp [cutFrom]
  | cons d text ih =>
      rw [List.mem_cons, not_or] at h
      rw [cutFrom, if_neg (by simp [h.1]), ih h.2]
      simp

/-- A replacement holds what was there and what is new. -/
theorem mem_of_mem_replace (hc : c ∈ replace old new text) : c ∈ new ∨ c ∈ text :=
  (mem_of_mem_intercalate hc).imp_right fun ⟨_, hp, hcp⟩ => mem_of_mem_cut hp hcp

end Text

namespace Json

/-! ## What escapes hold -/

theorem mem_toDigits {n : Nat} {c : Char} (h : c ∈ Nat.toDigits 16 n) :
    ∃ d < 16, c = d.digitChar := by
  induction n using Nat.strongRecOn with
  | ind n ih =>
      rw [Nat.toDigits_eq_if (by decide)] at h
      split at h
      · next hlt => exact ⟨n, hlt, List.mem_singleton.mp h⟩
      · rcases List.mem_append.mp h with hfront | hlast
        · exact ih (n / 16) (by omega) hfront
        · exact ⟨n % 16, by omega, List.mem_singleton.mp hlast⟩

theorem return_notMem_toDigits (n : Nat) : '\r' ∉ Nat.toDigits 16 n := by
  have hdigits : ∀ d < 16, '\r' ≠ d.digitChar := by decide
  intro h
  obtain ⟨d, hd, heq⟩ := mem_toDigits h
  exact hdigits d hd heq

theorem return_notMem_hexDigits (width n : Nat) : '\r' ∉ hexDigits width n := by
  rw [hexDigits, List.mem_append, List.mem_replicate, not_or]
  exact ⟨fun h => absurd h.2 (by decide), return_notMem_toDigits n⟩

theorem return_notMem_codeEscape (c : Char) : '\r' ∉ codeEscape c := by
  unfold codeEscape
  dsimp only
  split_ifs <;> simp [return_notMem_hexDigits]

theorem return_notMem_quotedChar {quote : Char} (hquote : quote ≠ '\r') (c : Char) :
    '\r' ∉ quotedChar quote c := by
  unfold quotedChar
  split_ifs with hescaped
  · rcases (by simpa using hescaped : c = quote ∨ c = '\\') with rfl | rfl
    · simp [hquote.symm]
    · decide
  · decide
  · decide
  · decide
  · exact return_notMem_codeEscape c
  · simpa using fun h => absurd h.symm ‹_›

end Json

namespace Toml

variable {fields : Fields} {text : String}

/-! ## Texts -/

theorem return_notMem_hexMark (front : List Char) : '\r' ∉ hexMark front := by
  unfold hexMark
  dsimp only
  split_ifs <;> decide

theorem return_notMem_joinAtHexMarks {fuel : Nat} {pieces : List (List Char)} {joined : List Char}
    (h : joinAtHexMarks fuel pieces = .ok joined) (hpieces : ∀ p ∈ pieces, '\r' ∉ p) :
    '\r' ∉ joined := by
  induction fuel generalizing pieces with
  | zero => 
      unfold joinAtHexMarks at h
      cases h
  | succ fuel ih =>
      match pieces with
      | [] => cases h
      | [piece] =>
          obtain rfl := Except.ok.inj h
          exact hpieces _ List.mem_cons_self
      | piece :: second :: rest =>
          unfold joinAtHexMarks at h
          have hleft : ∀ p ∈ (if piece.isEmpty then second :: rest else piece :: second :: rest),
              '\r' ∉ p := by
            intro p hp
            split at hp
            · exact hpieces p (List.mem_cons_of_mem _ hp)
            · exact hpieces p hp
          split at h
          · next front next others heq =>
              rw [heq] at hleft
              split at h
              · cases h
              · refine ih h fun p hp => ?_
                rcases List.mem_cons.mp hp with rfl | hp
                · simp only [List.mem_append, not_or]
                  refine ⟨⟨fun hc => ?_, return_notMem_hexMark _⟩, hleft next (by simp)⟩
                  rcases Text.mem_of_mem_replace hc with hnew | hfront
                  · exact absurd hnew (by decide)
                  · exact hleft front (by simp) hfront
                · exact hleft p (by simp [hp])
          · cases h

theorem return_notMem_quoted {s : String} (h : quoted s = .ok text) : '\r' ∉ text.toList := by
  obtain ⟨joined, hjoined, h⟩ := bind_eq_ok.mp h
  obtain rfl := pure_eq_ok.mp h
  have hescaped : '\r' ∉ s.toList.flatMap (Json.quotedChar '"') := by
    rw [List.mem_flatMap]
    rintro ⟨c, -, hc⟩
    exact Json.return_notMem_quotedChar (by decide) c hc
  have hno := return_notMem_joinAtHexMarks hjoined fun p hp hc =>
    hescaped (Text.mem_of_mem_cut hp hc)
  simp [hno]

/-! ## Tables of simple settings -/

/-- Whether a value is a text or a truth value. -/
def isSimple : Json → Bool
  | .str _ | .bool _ => true
  | _ => false

/-- The line that makes a setting. -/
def settingLine (f : String × Json) : Except Fault String := do
  return (← writtenKey f.1) ++ " = " ++ (← writeValue f.2) ++ "\n"

theorem isSimple_cases {value : Json} (h : isSimple value = true) :
    (∃ s, value = .str s) ∨ ∃ b, value = .bool b := by
  cases value with
  | str s => exact .inl ⟨s, rfl⟩
  | bool b => exact .inr ⟨b, rfl⟩
  | _ => cases h

theorem tableText_of_simple (h : ∀ f ∈ fields, isSimple f.2 = true) (fuel : Nat) (path : String) :
    tableText (fuel + 1) path fields = String.join <$> fields.mapM settingLine := by
  rw [tableText, filterMapM_of_some (g := settingLine) fun f hf => ?line,
    filterMapM_of_none fun f hf => ?list]
  · cases fields.mapM settingLine with
    | error fault => rfl
    | ok lines => simp [bind, Except.bind, pure, Except.pure, Functor.map, Except.map]
  case line =>
    obtain ⟨key, value⟩ := f
    rw [settingLine]
    obtain ⟨s, rfl⟩ | ⟨b, rfl⟩ := isSimple_cases (h _ hf)
    · cases writtenKey key with
      | error fault => rfl
      | ok name => cases hvalue : writeValue (.str s) <;> simp [listsObjects, hvalue]
    · cases writtenKey key <;> rfl
  case list =>
    obtain ⟨key, value⟩ := f
    obtain ⟨s, rfl⟩ | ⟨b, rfl⟩ := isSimple_cases (h _ hf)
    · rfl
    · rfl

theorem innerTables_of_simple (h : ∀ f ∈ fields, isSimple f.2 = true) (path : String) :
    innerTables path fields = .ok [] := by
  refine filterMapM_of_none fun f hf => ?_
  obtain ⟨key, value⟩ := f
  obtain ⟨s, rfl⟩ | ⟨b, rfl⟩ := isSimple_cases (h _ hf)
  · rfl
  · rfl

/-- Simple settings are written one a line, in their order. -/
theorem write_of_simple (h : ∀ f ∈ fields, isSimple f.2 = true) :
    write fields = String.join <$> fields.mapM settingLine := by
  rw [write, tableText_of_simple h, innerTables_of_simple h]
  cases String.join <$> fields.mapM settingLine <;> rfl

theorem return_notMem_writtenKey {key : String} (h : writtenKey key = .ok text) :
    '\r' ∉ text.toList := by
  unfold writtenKey at h
  dsimp only at h
  split at h
  · next hbare =>
      obtain rfl := Except.ok.inj h
      rw [Bool.and_eq_true, List.all_eq_true] at hbare
      exact fun hc => absurd (hbare.2 _ hc) (by decide)
  · exact return_notMem_quoted h

theorem return_notMem_settingLine {f : String × Json} (hsimple : isSimple f.2 = true)
    (h : settingLine f = .ok text) : '\r' ∉ text.toList := by
  obtain ⟨key, hkey, h⟩ := bind_eq_ok.mp h
  obtain ⟨value, hvalue, h⟩ := bind_eq_ok.mp h
  obtain rfl := pure_eq_ok.mp h
  have hno : '\r' ∉ value.toList := by
    obtain ⟨s, hs⟩ | ⟨b, hb⟩ := isSimple_cases hsimple
    · rw [hs, writeValue] at hvalue
      exact return_notMem_quoted hvalue
    · rw [hb, writeValue] at hvalue
      obtain rfl := Except.ok.inj hvalue
      cases b <;> decide
  simp [return_notMem_writtenKey hkey, hno]

/-- What is written holds no carriage return, whatever the texts hold. -/
theorem return_notMem_write (hsimple : ∀ f ∈ fields, isSimple f.2 = true)
    (h : write fields = .ok text) : '\r' ∉ text.toList := by
  rw [write_of_simple hsimple] at h
  obtain ⟨lines, hlines, rfl⟩ := map_eq_ok h
  rw [String.toList_join, List.mem_flatMap]
  rintro ⟨line, hline, hc⟩
  obtain ⟨f, hf, hwritten⟩ := mem_of_mapM hlines line hline
  exact return_notMem_settingLine (hsimple f hf) hwritten hc

/-! ## Plain settings -/

/-- Whether a text needs no escapes. -/
def isPlain (s : String) : Bool :=
  s.toList.all fun c => Json.quotedChar '"' c == [c]

theorem ne_of_plain {s : String} (h : isPlain s = true) {c : Char} (hc : c ∈ s.toList) :
    c ≠ '"' ∧ c ≠ '\\' ∧ c ≠ '\n' := by
  have hsame : Json.quotedChar '"' c = [c] := by simpa using List.all_eq_true.mp h c hc
  refine ⟨?_, ?_, ?_⟩
  all_goals
    rintro rfl
    exact absurd hsame (by decide)

/-- A text without escapes stands in its quotes as it is. -/
theorem quoted_of_plain {s : String} (h : isPlain s = true) :
    quoted s = .ok (String.ofList ('"' :: s.toList ++ ['"'])) := by
  have hsame : s.toList.flatMap (Json.quotedChar '"') = s.toList := by
    rw [List.flatMap_congr fun c hc => by simpa using List.all_eq_true.mp h c hc]
    exact List.flatMap_singleton' _
  have hno : '\\' ∉ s.toList := fun hc => (ne_of_plain h hc).2.1 rfl
  rw [quoted, hsame, Text.cut, Text.cutFrom_of_first_notMem hno]
  rfl

/-- Whether a character can stand in a key without quotes. -/
def isKeyChar (c : Char) : Bool :=
  c.isAlphanum || c = '_' || c = '-'

/-- Whether a key needs no quotes. -/
def isBare (key : String) : Bool :=
  key != "" && key.toList.all isKeyChar

/-- Whether nothing of a setting needs quotes or escapes, but for the quotes of a text. -/
def isPlainSetting (f : String × Json) : Bool :=
  isBare f.1 &&
    match f.2 with
    | .str s => isPlain s
    | .bool _ => true
    | _ => false

/-- A plain value as it is written. -/
def plainValue : Json → List Char
  | .str s => '"' :: s.toList ++ ['"']
  | .bool true => ['t', 'r', 'u', 'e']
  | .bool false => ['f', 'a', 'l', 's', 'e']
  | _ => []

/-- A plain setting as it is written. -/
def plainLine (f : String × Json) : List Char :=
  f.1.toList ++ ' ' :: '=' :: ' ' :: plainValue f.2

theorem isPlainSetting_cases {f : String × Json} (h : isPlainSetting f = true) :
    isBare f.1 = true ∧ ((∃ s, f.2 = .str s ∧ isPlain s = true) ∨ ∃ b, f.2 = .bool b) := by
  obtain ⟨key, value⟩ := f
  rw [isPlainSetting, Bool.and_eq_true] at h
  refine ⟨h.1, ?_⟩
  cases value with
  | str s => exact .inl ⟨s, rfl, h.2⟩
  | bool b => exact .inr ⟨b, rfl⟩
  | _ => cases h.2

theorem isSimple_of_plain {f : String × Json} (h : isPlainSetting f = true) :
    isSimple f.2 = true := by
  obtain ⟨-, ⟨s, hs, -⟩ | ⟨b, hb⟩⟩ := isPlainSetting_cases h
  · rw [hs]
    rfl
  · rw [hb]
    rfl

theorem settingLine_of_plain {f : String × Json} (h : isPlainSetting f = true) :
    settingLine f = .ok (String.ofList (plainLine f ++ ['\n'])) := by
  obtain ⟨hkey, hvalue⟩ := isPlainSetting_cases h
  have hwritten : writtenKey f.1 = .ok f.1 := if_pos hkey
  have hvalue : writeValue f.2 = .ok (String.ofList (plainValue f.2)) := by
    obtain ⟨s, hs, hplain⟩ | ⟨b, hb⟩ := hvalue
    · rw [hs, writeValue, quoted_of_plain hplain]
      rfl
    · rw [hb]
      cases b <;> rfl
  rw [settingLine, hwritten, hvalue]
  show Except.ok (f.1 ++ " = " ++ String.ofList (plainValue f.2) ++ "\n") = _
  refine congrArg Except.ok (String.toList_inj.mp ?_)
  simp [plainLine]

/-- Plain settings are written as they are, one a line. -/
theorem write_of_plain (h : ∀ f ∈ fields, isPlainSetting f = true) :
    write fields = .ok (String.ofList (fields.flatMap fun f => plainLine f ++ ['\n'])) := by
  have hlines : fields.mapM settingLine =
      .ok (fields.map fun f => String.ofList (plainLine f ++ ['\n'])) :=
    mapM_eq_ok (List.forall₂_map_right_iff.mpr
      (List.forall₂_same.mpr fun f hf => settingLine_of_plain (h f hf)))
  rw [write_of_simple fun f hf => isSimple_of_plain (h f hf), hlines]
  refine congrArg Except.ok (String.toList_inj.mp ?_)
  simp [String.toList_join, List.flatMap_map]

end Toml

end ApiScaffold
