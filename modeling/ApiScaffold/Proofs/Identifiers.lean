import ApiScaffold.Naming
import ApiScaffold.Proofs.Words

set_option autoImplicit false

/-! # Identifiers

A name of the generated code is an identifier when it begins with a letter, holds nothing but
letters, digits and a few marks, and is no word of the language. The identifier that stands for a
header drops the hyphens before letters only: it is one just when there are no others
(`isIdentifier_headerIdentifier`). -/

namespace ApiScaffold

/-! ## Characters of identifiers -/

/-- The characters beyond ASCII that identifiers may begin with, and those that they may hold. -/
structure Letters where
  start : Char → Bool
  part : Char → Bool
  part_of_start : ∀ c, start c = true → part c = true

namespace Letters

/-- No characters beyond ASCII. -/
def ascii : Letters := ⟨fun _ => false, fun _ => false, fun _ h => h⟩

/-- Whether an identifier may begin with a character. -/
def begins (l : Letters) (c : Char) : Bool :=
  if c.toNat < 128 then c.isAlpha || c == '_' || c == '$' else l.start c

/-- Whether an identifier may hold a character. -/
def holds (l : Letters) (c : Char) : Bool :=
  if c.toNat < 128 then c.isAlphanum || c == '_' || c == '$' else l.part c

end Letters

/-- The words that the language keeps for itself, also in the strict code of classes and modules. -/
def reservedWords : List String :=
  ["arguments", "await", "break", "case", "catch", "class", "const", "continue", "debugger",
    "default", "delete", "do", "else", "enum", "eval", "export", "extends", "false", "finally",
    "for", "function", "if", "implements", "import", "in", "instanceof", "interface", "let", "new",
    "null", "package", "private", "protected", "public", "return", "static", "super", "switch",
    "this", "throw", "true", "try", "typeof", "var", "void", "while", "with", "yield"]

/-- A name that can be declared, written without escapes. -/
structure IsIdentifier (l : Letters) (name : String) : Prop where
  begins : ∃ c rest, name.toList = c :: rest ∧ l.begins c = true
  holds : ∀ c ∈ name.toList, l.holds c = true
  free : name ∉ reservedWords

section Characters

variable {l : Letters} {c : Char}

theorem isWordChar_of_isAlphanum (h : c.isAlphanum = true) : isWordChar c = true :=
  Bool.or_eq_true_iff.mpr (Or.inl h)

theorem isAlphanum_of_isAlpha (h : c.isAlpha = true) : c.isAlphanum = true :=
  Bool.or_eq_true_iff.mpr (Or.inl h)

theorem toNat_of_isAlphanum (h : c.isAlphanum = true) : c.toNat < 128 :=
  toNat_of_isWordChar (isWordChar_of_isAlphanum h)

theorem Letters.holds_of_isAlphanum (h : c.isAlphanum = true) : l.holds c = true := by
  rw [Letters.holds, if_pos (toNat_of_isAlphanum h), h]
  rfl

theorem Letters.begins_of_isAlpha (h : c.isAlpha = true) : l.begins c = true := by
  rw [Letters.begins, if_pos (toNat_of_isAlphanum (isAlphanum_of_isAlpha h)), h]
  rfl

theorem Letters.holds_hyphen : l.holds '-' = false := rfl

theorem isAlpha_toUpper (h : c.isAlpha = true) : c.toUpper.isAlpha = true :=
  forall_of_latin (P := fun c => c.isAlpha = true → c.toUpper.isAlpha = true)
    (by decide) (toNat_of_isAlphanum (isAlphanum_of_isAlpha h)) h

theorem isAlpha_toLower (h : c.isAlpha = true) : c.toLower.isAlpha = true :=
  forall_of_latin (P := fun c => c.isAlpha = true → c.toLower.isAlpha = true)
    (by decide) (toNat_of_isAlphanum (isAlphanum_of_isAlpha h)) h

end Characters

theorem Text.upperChar_ne_nil (c : Char) : Text.upperChar c ≠ [] := by
  have hspelled : ∀ p ∈ Text.upperMap.spelled, p.2 ≠ [] := by decide
  unfold Text.upperChar
  split
  · exact List.cons_ne_nil _ _
  · unfold Text.CaseMap.image
    split
    · next codes hcodes =>
        obtain ⟨before, after, heq, -⟩ := List.lookup_eq_some_iff.mp hcodes
        have hne := hspelled (c.toNat, codes) (by simp [heq])
        simpa using hne
    · split <;> exact List.cons_ne_nil _ _

theorem Naming.capitalize_ne_empty {name : String} (h : name ≠ "") :
    Naming.capitalize name ≠ "" := by
  cases hname : name.toList with
  | nil => exact absurd (String.toList_eq_nil_iff.mp hname) h
  | cons c rest =>
      rw [Naming.capitalize, hname, Naming.capitalizeChars]
      simpa using fun hnil => absurd hnil (Text.upperChar_ne_nil c)

/-! ## Headers -/

/-- The name of a header: letters, digits and hyphens, and a letter first. -/
def IsHeaderName (name : String) : Prop :=
  ∃ c rest, name.toList = c :: rest ∧ c.isAlpha = true ∧
    ∀ d ∈ rest, d.isAlphanum = true ∨ d = '-'

/-- Every hyphen stands before a letter. -/
def HyphensJoin (text : List Char) : Prop :=
  ∀ front back, text = front ++ '-' :: back → ∃ c rest, back = c :: rest ∧ c.isAlpha = true

section Hyphens

variable {c : Char} {text rest : List Char}

theorem hyphensJoin_cons (hc : c ≠ '-') : HyphensJoin (c :: text) ↔ HyphensJoin text := by
  constructor
  · intro h front back heq
    exact h (c :: front) back (by rw [heq]; rfl)
  · intro h front back heq
    cases front with
    | nil => exact absurd (List.cons.inj heq).1 hc
    | cons d front => exact h front back (List.cons.inj heq).2

theorem hyphensJoin_hyphen :
    HyphensJoin ('-' :: text) ↔
      (∃ c rest, text = c :: rest ∧ c.isAlpha = true) ∧ HyphensJoin text := by
  constructor
  · intro h
    refine ⟨h [] text rfl, fun front back heq => ?_⟩
    exact h ('-' :: front) back (by rw [heq]; rfl)
  · rintro ⟨hnext, h⟩ front back heq
    cases front with
    | nil =>
        obtain rfl := (List.cons.inj heq).2
        exact hnext
    | cons d front => exact h front back (List.cons.inj heq).2

theorem ne_hyphen_of_isAlpha (hc : c.isAlpha = true) : c ≠ '-' := by
  rintro rfl
  cases hc

namespace Naming

/-- A hyphen is left just when some hyphen stands before no letter. -/
theorem hyphen_mem_joinHyphens : '-' ∈ joinHyphens text ↔ ¬ HyphensJoin text := by
  fun_induction joinHyphens text with
  | case1 => simp [HyphensJoin]
  | case2 c =>
      by_cases hc : c = '-'
      · subst hc
        simp [hyphensJoin_hyphen]
      · rw [hyphensJoin_cons hc]
        simp [HyphensJoin, Ne.symm hc]
  | case3 c rest hc ih =>
      have hupper : c.toUpper ≠ '-' := ne_hyphen_of_isAlpha (isAlpha_toUpper hc)
      rw [List.mem_cons, ih, hyphensJoin_hyphen, hyphensJoin_cons (ne_hyphen_of_isAlpha hc)]
      simp [Ne.symm hupper, hc]
  | case4 c rest hc ih =>
      rw [hyphensJoin_hyphen]
      simp [hc]
  | case5 c d rest hc ih =>
      have hne : c ≠ '-' := fun h => hc h
      rw [List.mem_cons, ih, hyphensJoin_cons hne]
      simp [Ne.symm hne]

/-- What is left besides hyphens are letters and digits if there was nothing else before. -/
theorem isAlphanum_of_mem_joinHyphens (h : ∀ d ∈ text, d.isAlphanum = true ∨ d = '-') :
    ∀ d ∈ joinHyphens text, d.isAlphanum = true ∨ d = '-' := by
  fun_induction joinHyphens text with
  | case1 => exact h
  | case2 c => exact h
  | case3 c rest hc ih =>
      intro d hd
      rcases List.mem_cons.mp hd with rfl | hd
      · exact Or.inl (isAlphanum_of_isAlpha (isAlpha_toUpper hc))
      · exact ih (fun e he => h e (by simp [he])) d hd
  | case4 c rest hc ih =>
      intro d hd
      rcases List.mem_cons.mp hd with rfl | hd
      · exact Or.inr rfl
      · exact ih (fun e he => h e (List.mem_cons_of_mem _ he)) d hd
  | case5 c d rest hc ih =>
      intro e he
      rcases List.mem_cons.mp he with rfl | he
      · exact h e List.mem_cons_self
      · exact ih (fun f hf => h f (List.mem_cons_of_mem _ hf)) e he

theorem joinHyphens_cons (hc : c ≠ '-') : joinHyphens (c :: rest) = c :: joinHyphens rest := by
  cases rest with
  | nil => rfl
  | cons d rest => rw [joinHyphens.eq_4 c d rest (fun h => hc h)]

end Naming

end Hyphens

section Headers

variable {l : Letters} {header : String}

theorem headerIdentifier_eq (h : IsHeaderName header) :
    ∃ c rest, header.toList = c :: rest ∧ c.isAlpha = true ∧
      (∀ d ∈ rest, d.isAlphanum = true ∨ d = '-') ∧
      (Naming.headerIdentifier header).toList = c.toLower :: Naming.joinHyphens rest := by
  obtain ⟨c, rest, hheader, hc, hrest⟩ := h
  refine ⟨c, rest, hheader, hc, hrest, ?_⟩
  rw [Naming.headerIdentifier, hheader, Naming.joinHyphens_cons (ne_hyphen_of_isAlpha hc)]
  exact String.toList_ofList

/-- The identifier for a header is one just when all hyphens of the header stand before letters and
it is no word of the language. -/
theorem isIdentifier_headerIdentifier (h : IsHeaderName header) :
    IsIdentifier l (Naming.headerIdentifier header) ↔
      HyphensJoin header.toList ∧ Naming.headerIdentifier header ∉ reservedWords := by
  obtain ⟨c, rest, hheader, hc, hrest, hname⟩ := headerIdentifier_eq h
  rw [hheader, hyphensJoin_cons (ne_hyphen_of_isAlpha hc)]
  have hlower : c.toLower.isAlpha = true := isAlpha_toLower hc
  constructor
  · intro hid
    refine ⟨?_, hid.free⟩
    by_contra hjoin
    have hmem : '-' ∈ (Naming.headerIdentifier header).toList := by
      rw [hname]
      exact List.mem_cons_of_mem _ (Naming.hyphen_mem_joinHyphens.mpr hjoin)
    cases (Letters.holds_hyphen (l := l)).symm.trans (hid.holds '-' hmem)
  · rintro ⟨hjoin, hfree⟩
    refine ⟨⟨c.toLower, Naming.joinHyphens rest, hname, Letters.begins_of_isAlpha hlower⟩, ?_,
      hfree⟩
    intro d hd
    rw [hname] at hd
    rcases List.mem_cons.mp hd with rfl | hd
    · exact Letters.holds_of_isAlphanum (isAlphanum_of_isAlpha hlower)
    · rcases Naming.isAlphanum_of_mem_joinHyphens hrest d hd with hd' | rfl
      · exact Letters.holds_of_isAlphanum hd'
      · exact absurd hjoin (Naming.hyphen_mem_joinHyphens.mp hd)

end Headers

/-! ## Texts in front of an ending -/

namespace Letters

variable {l : Letters} {a b : String}

/-- Identifiers may hold all characters of a text. -/
def HoldsAll (l : Letters) (text : String) : Prop :=
  ∀ c ∈ text.toList, l.holds c = true

/-- Identifiers may begin with a text; an empty one leaves the beginning to what stands behind it. -/
structure Fits (l : Letters) (text : String) : Prop where
  begins : ∀ c ∈ text.toList.head?, l.begins c = true
  holds : l.HoldsAll text

-- through the list, as for words
instance (l : Letters) (text : String) : Decidable (l.HoldsAll text) :=
  decidable_of_iff (text.toList.all l.holds = true) List.all_eq_true

instance (l : Letters) (text : String) : Decidable (l.Fits text) :=
  decidable_of_iff (text.toList.head?.all l.begins = true ∧ l.HoldsAll text) (by
    rw [Option.all_eq_true]
    exact ⟨fun h => ⟨h.1, h.2⟩, fun h => ⟨h.begins, h.holds⟩⟩)

theorem holdsAll_append : l.HoldsAll (a ++ b) ↔ l.HoldsAll a ∧ l.HoldsAll b := by
  simp only [HoldsAll, String.toList_append, List.mem_append, or_imp, forall_and]

theorem fits_append (h : a ≠ "") : l.Fits (a ++ b) ↔ l.Fits a ∧ l.HoldsAll b := by
  have hhead : (a ++ b).toList.head? = a.toList.head? := by
    rw [String.toList_append]
    exact List.head?_append_of_ne_nil _ (by simpa using h)
  constructor
  · rintro ⟨hbegins, hholds⟩
    obtain ⟨ha, hb⟩ := holdsAll_append.mp hholds
    exact ⟨⟨hhead ▸ hbegins, ha⟩, hb⟩
  · rintro ⟨⟨hbegins, ha⟩, hb⟩
    exact ⟨hhead.symm ▸ hbegins, holdsAll_append.mpr ⟨ha, hb⟩⟩

theorem holdsAll_of_isAlphanum (h : a.toList.all Char.isAlphanum = true) : l.HoldsAll a :=
  fun c hc => holds_of_isAlphanum (List.all_eq_true.mp h c hc)

theorem holdsAll_number (n : Nat) : l.HoldsAll (toString n) := by
  refine holdsAll_of_isAlphanum (List.all_eq_true.mpr fun c hc => ?_)
  have hdigit : c.isDigit = true :=
    Nat.isDigit_of_mem_toDigits (by decide) (Nat.le_refl 10) (by simpa [Nat.repr] using hc)
  simp [Char.isAlphanum, hdigit]

/-- What identifiers may begin with, they may also begin with in upper case. -/
def KeepsCase (l : Letters) : Prop :=
  ∀ c, l.begins c = true → l.Fits (String.ofList (Text.upperChar c))

theorem Fits.capitalize (hl : l.KeepsCase) (h : l.Fits a) : l.Fits (Naming.capitalize a) := by
  cases ha : a.toList with
  | nil =>
      rw [Naming.capitalize, ha]
      exact ⟨by simp [Naming.capitalizeChars], by simp [HoldsAll, Naming.capitalizeChars]⟩
  | cons c rest =>
      have hupper : l.Fits (String.ofList (Text.upperChar c)) := hl c (h.begins c (by simp [ha]))
      have hsplit : Naming.capitalize a =
          String.ofList (Text.upperChar c) ++ String.ofList rest := by
        rw [Naming.capitalize, ha, Naming.capitalizeChars, String.ofList_append]
      have hne : String.ofList (Text.upperChar c) ≠ "" := by
        simpa using Text.upperChar_ne_nil c
      rw [hsplit, fits_append hne]
      refine ⟨hupper, fun d hd => h.holds d ?_⟩
      rw [ha]
      exact List.mem_cons_of_mem _ (by simpa using hd)

theorem keepsCase_ascii : ascii.KeepsCase := by
  intro c hc
  have hlatin : c.toNat < 128 := by
    by_contra hbeyond
    rw [begins, if_neg hbeyond] at hc
    cases hc
  have hupper : ascii.begins c.toUpper = true ∧ ascii.holds c.toUpper = true :=
    forall_of_latin (P := fun c => ascii.begins c = true →
      ascii.begins c.toUpper = true ∧ ascii.holds c.toUpper = true)
      (by decide) hlatin hc
  rw [Text.upperChar, if_pos hlatin]
  exact ⟨by simpa using hupper.1, by simpa [HoldsAll] using hupper.2⟩

end Letters

section Endings

variable {l : Letters} {text ending : String}

/-- What names may end with: letters, and no word of the language ends with them. -/
structure IsEnding (ending : String) : Prop where
  ne : ending ≠ ""
  letters : ending.toList.all Char.isAlpha = true
  free : ∀ w ∈ reservedWords, ¬ ending.toList <:+ w.toList

/-- A name with an ending is an identifier just when what stands in front of the ending fits. -/
theorem isIdentifier_append (hending : IsEnding ending) :
    IsIdentifier l (text ++ ending) ↔ l.Fits text := by
  constructor
  · intro h
    obtain ⟨c, rest, hname, hc⟩ := h.begins
    refine ⟨fun d hd => ?_, (Letters.holdsAll_append.mp h.holds).1⟩
    rw [String.toList_append] at hname
    cases htext : text.toList with
    | nil =>
        rw [htext] at hd
        cases hd
    | cons e more =>
        rw [htext] at hd hname
        obtain rfl : e = d := Option.some.inj hd
        obtain rfl : e = c := (List.cons.inj hname).1
        exact hc
  · intro h
    have hall : l.HoldsAll (text ++ ending) := Letters.holdsAll_append.mpr
      ⟨h.holds, fun c hc => Letters.holds_of_isAlphanum
        (isAlphanum_of_isAlpha (List.all_eq_true.mp hending.letters c hc))⟩
    refine ⟨?_, hall, fun hmem => hending.free _ hmem ⟨text.toList, by simp⟩⟩
    rw [String.toList_append]
    cases htext : text.toList with
    | nil =>
        cases hchars : ending.toList with
        | nil => exact absurd (String.toList_eq_nil_iff.mp hchars) hending.ne
        | cons c rest =>
            have hc : c.isAlpha = true :=
              List.all_eq_true.mp hending.letters c (by simp [hchars])
            exact ⟨c, rest, rfl, Letters.begins_of_isAlpha hc⟩
    | cons c rest => exact ⟨c, rest ++ ending.toList, rfl, h.begins c (by simp [htext])⟩

theorem isIdentifier_ofBase : IsIdentifier l (ModelName.ofBase text) ↔ l.Fits text :=
  isIdentifier_append ⟨by decide, by decide, by decide⟩

theorem isIdentifier_enumName :
    IsIdentifier l (Naming.enumName text) ↔ l.Fits (Naming.capitalize text) :=
  isIdentifier_append ⟨by decide, by decide, by decide⟩

end Endings

end ApiScaffold
