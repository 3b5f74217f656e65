import ApiScaffold.Proofs.Collecting
import ApiScaffold.Proofs.Identifiers

set_option autoImplicit false

/-! # Keys of enum members

The key of a member is its value in upper case, with an underscore in place of each character but
`A` to `Z` and `0` to `9`. So keys do not tell apart values whose upper-case forms differ only where
neither has such a character (`Homonyms`), and no others; and a key is an identifier unless its
value has no characters or begins with a digit (`add_keys`). -/

namespace ApiScaffold

/-! ## Digits -/

namespace Text

variable {c d : Char} {text : List Char}

theorem isDigit_eq_false (h : 58 ≤ c.toNat) : c.isDigit = false := by
  rw [← Bool.not_eq_true, isDigit_iff]
  omega

theorem isDigit_toUpper (c : Char) : c.toUpper.isDigit = c.isDigit := by
  unfold Char.toUpper
  split
  · next hlower =>
      obtain ⟨hfrom, hto⟩ : 97 ≤ c.toNat ∧ c.toNat ≤ 122 := hlower
      rw [isDigit_eq_false (c := c) (by omega)]
      refine isDigit_eq_false ?_
      change 58 ≤ (c.val + ('A'.val - 'a'.val)).toNat
      rw [UInt32.toNat_add]
      change 58 ≤ (c.toNat + 4294967264) % 4294967296
      omega
  · rfl

theorem isDigit_of_isAlpha (h : c.isAlpha = true) : c.isDigit = false :=
  isDigit_eq_false (by have := isAlpha_cases h; omega)

theorem isDigit_ofNat {code : Nat} (h : 58 ≤ code) : (Char.ofNat code).isDigit = false := by
  by_cases hvalid : code.isValidChar
  · refine isDigit_eq_false ?_
    rw [Char.ofNat, dif_pos hvalid]
    exact h
  · rw [Char.ofNat, dif_neg hvalid]
    rfl

/-- No digit begins the upper-case form of a character that is none. -/
theorem isDigit_head_upperChar (h : d ∈ (upperChar c).head?) : d.isDigit = c.isDigit := by
  have hspelled : ∀ p ∈ upperMap.spelled, ∀ code ∈ p.2.head?, 58 ≤ code := by decide
  have hruns : ∀ r ∈ upperMap.runs, 58 ≤ (r.first : Int) + r.shift := by
    set_option maxRecDepth 2000 in
    decide
  unfold upperChar at h
  split at h
  · next hlatin =>
      obtain rfl : c.toUpper = d := Option.some.inj h
      exact isDigit_toUpper c
  · next hbeyond =>
      rw [isDigit_eq_false (c := c) (by omega)]
      unfold CaseMap.image at h
      split at h
      · next codes hcodes =>
          obtain ⟨before, after, heq, -⟩ := List.lookup_eq_some_iff.mp hcodes
          rw [List.head?_map] at h
          obtain ⟨code, hcode, rfl⟩ := Option.map_eq_some_iff.mp h
          exact isDigit_ofNat (hspelled (c.toNat, codes) (by simp [heq]) code hcode)
      · split at h
        · next run hrun =>
            obtain rfl := Option.some.inj h
            have hmem := hruns run (List.mem_of_find?_eq_some hrun)
            have hcovers := List.find?_some hrun
            simp only [CaseRun.covers, Bool.and_eq_true, decide_eq_true_eq] at hcovers
            exact isDigit_ofNat (by omega)
        · obtain rfl : c = d := Option.some.inj h
          exact isDigit_eq_false (by omega)

end Text

theorem Letters.begins_of_isDigit {l : Letters} {c : Char} (h : c.isDigit = true) :
    l.begins c = false := by
  have hlatin : c.toNat < 128 := toNat_of_isAlphanum (Bool.or_eq_true_iff.mpr (.inr h))
  rw [begins, if_pos hlatin]
  by_contra hbegins
  rw [Bool.not_eq_false, Bool.or_eq_true, Bool.or_eq_true, beq_iff_eq, beq_iff_eq] at hbegins
  rcases hbegins with (halpha | rfl) | rfl
  · cases h.symm.trans (Text.isDigit_of_isAlpha halpha)
  · cases h
  · cases h

/-! ## Keys -/

namespace Naming

variable {c d : Char} {a b : String}

/-- Whether a key holds a character as it is. -/
def staysInKey (c : Char) : Bool := c.isUpper || c.isDigit

/-- Characters that keys do not tell apart. -/
def SameInKey (c d : Char) : Prop := c = d ∨ staysInKey c = false ∧ staysInKey d = false

/-- Values whose upper-case forms differ only where neither has a character that stays in keys. -/
def Homonyms (a b : String) : Prop :=
  List.Forall₂ SameInKey (Text.upper a.toList) (Text.upper b.toList)

theorem keyChar_cases (c : Char) :
    staysInKey c = true ∧ keyChar c = c ∨ staysInKey c = false ∧ keyChar c = '_' := by
  cases h : staysInKey c
  · exact Or.inr ⟨rfl, if_neg (by simpa [staysInKey] using h)⟩
  · exact Or.inl ⟨rfl, if_pos h⟩

theorem keyChar_eq_iff : keyChar c = keyChar d ↔ SameInKey c d := by
  have hmark : staysInKey '_' = false := by decide
  unfold SameInKey
  rcases keyChar_cases c with ⟨hc, hkey⟩ | ⟨hc, hkey⟩ <;>
    rcases keyChar_cases d with ⟨hd, hkey'⟩ | ⟨hd, hkey'⟩ <;> rw [hkey, hkey', hc, hd]
  · simp
  · constructor
    · rintro rfl
      cases hmark.symm.trans hc
    · rintro (rfl | ⟨h, -⟩)
      · cases hc.symm.trans hd
      · cases h
  · constructor
    · rintro rfl
      cases hmark.symm.trans hd
    · rintro (rfl | ⟨-, h⟩)
      · cases hd.symm.trans hc
      · cases h
  · simp

/-- Two values have one key just when keys do not tell them apart. -/
theorem enumKey_eq_iff : enumKey (.str a) = enumKey (.str b) ↔ Homonyms a b := by
  have hmap : ∀ x y : List Char, x.map keyChar = y.map keyChar ↔ List.Forall₂ SameInKey x y := by
    intro x y
    rw [← List.forall₂_eq_eq_eq, List.forall₂_map_left_iff, List.forall₂_map_right_iff]
    simp only [keyChar_eq_iff]
  rw [enumKey, enumKey, String.ofList_inj]
  exact hmap _ _

theorem isAlphanum_of_staysInKey (h : staysInKey c = true) : c.isAlphanum = true := by
  rcases Bool.or_eq_true_iff.mp h with hupper | hdigit
  · exact isAlphanum_of_isAlpha (Bool.or_eq_true_iff.mpr (.inl hupper))
  · exact Bool.or_eq_true_iff.mpr (.inr hdigit)

theorem holds_keyChar (l : Letters) (c : Char) : l.holds (keyChar c) = true := by
  rcases keyChar_cases c with ⟨h, hkey⟩ | ⟨-, hkey⟩ <;> rw [hkey]
  · exact l.holds_of_isAlphanum (isAlphanum_of_staysInKey h)
  · rfl

/-- A key may begin with what stands for any character but a digit. -/
theorem begins_keyChar (l : Letters) (c : Char) :
    l.begins (keyChar c) = true ↔ c.isDigit = false := by
  rcases keyChar_cases c with ⟨h, hkey⟩ | ⟨h, hkey⟩ <;> rw [hkey]
  · rcases Bool.or_eq_true_iff.mp h with hupper | hdigit
    · have halpha : c.isAlpha = true := Bool.or_eq_true_iff.mpr (.inl hupper)
      exact ⟨fun _ => Text.isDigit_of_isAlpha halpha, fun _ => l.begins_of_isAlpha halpha⟩
    · rw [Letters.begins_of_isDigit hdigit, hdigit]
      simp
  · exact ⟨fun _ => (Bool.or_eq_false_iff.mp h).2, fun _ => rfl⟩

theorem keyChar_free {rest : List Char} : String.ofList (keyChar c :: rest) ∉ reservedWords := by
  have hother : ∀ w ∈ reservedWords,
      w.toList.head?.all (fun d => !staysInKey d && d != '_') = true := by
    decide
  intro hmem
  have hfirst := hother _ hmem
  rw [String.toList_ofList, List.head?_cons, Option.all_some, Bool.and_eq_true, Bool.not_eq_true',
    bne_iff_ne] at hfirst
  obtain ⟨hstays, hmark⟩ := hfirst
  rcases keyChar_cases c with ⟨h, hkey⟩ | ⟨-, hkey⟩
  · rw [hkey] at hstays
    cases hstays.symm.trans h
  · exact hmark hkey

/-- A key is an identifier unless its value has no characters or begins with a digit. -/
theorem isIdentifier_enumKey {l : Letters} : IsIdentifier l (enumKey (.str a)) ↔
    a ≠ "" ∧ ∀ c ∈ a.toList.head?, c.isDigit = false := by
  have hkey : enumKey (.str a) = String.ofList ((Text.upper a.toList).map keyChar) := rfl
  rw [hkey]
  cases hchars : a.toList with
  | nil =>
      rw [String.toList_eq_nil_iff] at hchars
      constructor
      · rintro ⟨⟨c, rest, hc, -⟩, -, -⟩
        cases hc
      · rintro ⟨hne, -⟩
        exact absurd hchars hne
  | cons c rest =>
      have hne : a ≠ "" := by
        rintro rfl
        cases hchars
      obtain ⟨d, more, hupper⟩ := List.exists_cons_of_ne_nil (Text.upperChar_ne_nil c)
      have hhead : d.isDigit = c.isDigit := Text.isDigit_head_upperChar (by simp [hupper])
      rw [Text.upper, List.flatMap_cons, hupper, List.cons_append, List.map_cons]
      constructor
      · rintro ⟨⟨e, others, he, hbegins⟩, -, -⟩
        rw [String.toList_ofList] at he
        obtain ⟨rfl, -⟩ := List.cons.inj he
        rw [begins_keyChar, hhead] at hbegins
        exact ⟨hne, by simpa using hbegins⟩
      · rintro ⟨-, hdigit⟩
        refine ⟨⟨_, _, String.toList_ofList, ?_⟩, ?_, keyChar_free⟩
        · rw [begins_keyChar, hhead]
          exact hdigit c rfl
        · intro e he
          rw [String.toList_ofList, ← List.map_cons] at he
          obtain ⟨f, -, rfl⟩ := List.mem_map.mp he
          exact holds_keyChar l f

end Naming

/-! ## Members -/

namespace EnumCollection

open Naming (Homonyms staysInKey)

/-- The member that stands for a text: its key is the upper-case form of the text, with underscores
for what does not stay in keys. -/
structure IsMember (text : String) (m : EnumMember) : Prop where
  value : m.value = .text text
  key : List.Forall₂ (fun c k => if staysInKey c = true then k = c else k = '_')
    (Text.upper text.toList) m.key.toList
  /-- The key is an identifier unless the text has no characters or begins with a digit. -/
  isIdentifier : ∀ l : Letters, IsIdentifier l m.key ↔
    text ≠ "" ∧ ∀ c ∈ text.toList.head?, c.isDigit = false

theorem isMember (text : String) :
    IsMember text { key := Naming.enumKey (.str text), value := .text text } where
  value := rfl
  key := by
    have hkey : (Naming.enumKey (.str text)).toList =
        (Text.upper text.toList).map Naming.keyChar := String.toList_ofList
    rw [hkey, List.forall₂_map_right_iff]
    refine List.forall₂_same.mpr fun c _ => ?_
    rcases Naming.keyChar_cases c with ⟨h, hc⟩ | ⟨h, hc⟩ <;> simp [h, hc]
  isIdentifier _ := Naming.isIdentifier_enumKey

/-- Some texts that are added under a new name become members in their order. No two members have
one key just when no two of the texts are homonyms, and a key is an identifier just when its text
has a character and does not begin with a digit. -/
theorem add_keys {c : EnumCollection} {name : String} {texts : List String}
    (hnew : c.find? name = none) (htexts : texts ≠ []) :
    ∃ e, (c.add name (texts.map .text)).find? name = some e ∧
      List.Forall₂ IsMember texts e.members ∧
      ((e.members.map (·.key)).Nodup ↔ texts.Pairwise fun a b => ¬ Homonyms a b) := by
  have hmembers : (enumeration name (texts.map .text)).members =
      texts.map fun t => { key := Naming.enumKey (.str t), value := .text t } := by
    rw [enumeration, List.map_map]
    rfl
  refine ⟨enumeration name (texts.map .text), ?_, ?_, ?_⟩
  · have hnone : c.enums.find? (·.name == name) = none := hnew
    have hadd : (c.add name (texts.map .text)).enums =
        c.enums ++ [enumeration name (texts.map .text)] := by
      rw [add, hnew, if_neg (by simpa using htexts)]
    rw [find?, hadd, List.find?_append, hnone, Option.none_or]
    exact List.find?_cons_of_pos (beq_self_eq_true name)
  · rw [hmembers, List.forall₂_map_right_iff]
    exact List.forall₂_same.mpr fun text _ => isMember text
  · rw [hmembers, List.map_map, List.Nodup, List.pairwise_map]
    simp only [ne_eq, Function.comp_apply, Naming.enumKey_eq_iff]

/-- The states of an order; the last two have the same letters in upper case. -/
def states : List String := ["new", "in-transit", "In Transit"]

/-- Added under a new name, the states become three members, two of which have one key. -/
theorem states_keys :
    ∃ e, (({} : EnumCollection).add "StateEnum" (states.map .text)).find? "StateEnum" = some e ∧
      List.Forall₂ IsMember states e.members ∧
      ((e.members.map (·.key)).Nodup ↔ states.Pairwise fun a b => ¬ Homonyms a b) ∧
      e.members.map (·.key) = ["NEW", "IN_TRANSIT", "IN_TRANSIT"] := by
  have hnew : ({} : EnumCollection).find? "StateEnum" = none := rfl
  have hstates : states ≠ [] := List.cons_ne_nil _ _
  obtain ⟨e, he, hmembers, hnodup⟩ := add_keys hnew hstates
  have hbuilt : (({} : EnumCollection).add "StateEnum" (states.map .text)).find? "StateEnum" =
      some (enumeration "StateEnum" (states.map .text)) := by decide
  refine ⟨e, he, hmembers, hnodup, ?_⟩
  rw [Option.some.inj (he.symm.trans hbuilt)]
  decide

/-- Different texts, one key. -/
theorem states_homonymous :
    ¬∀ texts : List String, texts.Nodup → ∀ e,
      (({} : EnumCollection).add "StateEnum" (texts.map .text)).find? "StateEnum" = some e →
      (e.members.map (·.key)).Nodup ∧ ∀ m ∈ e.members, IsIdentifier .ascii m.key := by
  intro h
  obtain ⟨hnodup, -⟩ := h states (by decide) _ rfl
  exact absurd hnodup (by decide)

end EnumCollection

end ApiScaffold
