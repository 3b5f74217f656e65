import ApiScaffold.Naming
import ApiScaffold.Proofs.Rules

set_option autoImplicit false

/-! # Words

The words of a text are its longest pieces of letters, digits and underscores. The words of a type
are those of its parts, besides those that records are written with. Names of classes and
enumerations that are made from single words are single words. -/

namespace ApiScaffold

/-! ## Words of texts -/

/-- Whether a character can stand in a word: the letters `A` to `Z` in either case, digits and the
underscore. -/
def isWordChar (c : Char) : Bool := c.isAlphanum || c == '_'

/-- The word read so far, if there is one; its characters are given backwards. -/
def wordRead (word : List Char) : List String :=
  if word.isEmpty then [] else [String.ofList word.reverse]

/-- The words of a text behind what was read of a word. -/
def wordsFrom (word : List Char) : List Char → List String
  | [] => wordRead word
  | c :: text =>
    if isWordChar c then wordsFrom (c :: word) text else wordRead word ++ wordsFrom [] text

/-- The words of a text. -/
def words (text : String) : List String := wordsFrom [] text.toList

/-- A text that is a single word, or empty. -/
def IsWord (name : String) : Prop := ∀ c ∈ name.toList, isWordChar c = true

-- through the list: the quantifier alone could be decided by running through all characters
instance (name : String) : Decidable (IsWord name) :=
  decidable_of_iff (name.toList.all isWordChar = true) List.all_eq_true

section Words

variable {word front text : List Char} {c : Char}

theorem wordsFrom_append (hc : isWordChar c = false) :
    wordsFrom word (front ++ c :: text) = wordsFrom word front ++ wordsFrom [] text := by
  induction front generalizing word with
  | nil => simp [wordsFrom, hc]
  | cons d front ih =>
      rw [List.cons_append, wordsFrom, wordsFrom]
      split
      · exact ih
      · rw [ih, List.append_assoc]

theorem wordsFrom_of_isWord (h : ∀ c ∈ text, isWordChar c = true) :
    wordsFrom word text = wordRead (text.reverse ++ word) := by
  induction text generalizing word with
  | nil => rfl
  | cons c text ih =>
      rw [wordsFrom, if_pos (h c List.mem_cons_self),
        ih fun d hd => h d (List.mem_cons_of_mem _ hd)]
      simp

/-- No word goes on from one text to another that does not begin with a word. -/
theorem words_append_of_head (a : String) {b : String}
    (h : ∀ c ∈ b.toList.head?, isWordChar c = false) : words (a ++ b) = words a ++ words b := by
  rw [words, words, words, String.toList_append]
  cases hb : b.toList with
  | nil => simp [wordsFrom, wordRead]
  | cons c text =>
      have hc : isWordChar c = false := h c (by simp [hb])
      have hback : wordsFrom [] (c :: text) = wordsFrom [] text := by
        simpa [wordsFrom, wordRead] using @wordsFrom_append [] [] text c hc
      rw [wordsFrom_append hc, hback]

/-- No word goes on to a text from another that does not end with a word. -/
theorem words_append_of_last {a : String} (b : String)
    (h : ∀ c ∈ a.toList.getLast?, isWordChar c = false) : words (a ++ b) = words a ++ words b := by
  rw [words, words, words, String.toList_append]
  rcases List.eq_nil_or_concat' a.toList with ha | ⟨front, c, ha⟩
  · simp [ha, wordsFrom, wordRead]
  · have hc : isWordChar c = false := h c (by simp [ha])
    have hfront : wordsFrom [] (front ++ [c]) = wordsFrom [] front := by
      simpa [wordsFrom, wordRead] using @wordsFrom_append [] front [] c hc
    rw [ha, hfront, List.append_assoc, List.singleton_append, wordsFrom_append hc]

theorem words_of_isWord {name : String} (h : IsWord name) (hne : name ≠ "") :
    words name = [name] := by
  rw [words, wordsFrom_of_isWord h]
  simp [wordRead, hne]

end Words

/-! ## Words of types -/

namespace TypeExpr

theorem words_list (item : TypeExpr) : words (list item).text = words item.text := by
  have hback : words "[]" = [] ∧ words "(" = [] ∧ words ")[]" = [] := by decide
  rw [text_list]
  split
  · rw [words_append_of_head _ (by simp [isWordChar]),
      words_append_of_last _ (by simp [isWordChar]), hback.2.1, hback.2.2]
    simp
  · rw [words_append_of_head _ (by simp [isWordChar]), hback.1]
    simp

theorem words_listOfClass (name : String) : words (listOfClass name).text = words name := by
  have hback : words "[]" = [] := by decide
  rw [text_listOfClass, words_append_of_head _ (by simp [isWordChar]), hback, List.append_nil]

theorem words_record (value : TypeExpr) :
    words (record value).text = "Record" :: "string" :: words value.text := by
  have hclosed : words "Record<string, " = ["Record", "string"] ∧ words ">" = [] := by
    decide
  rw [text_record, words_append_of_head _ (by simp [isWordChar]),
    words_append_of_last _ (by simp [isWordChar]), hclosed.1, hclosed.2]
  simp

theorem words_intercalate (texts : List String) :
    words (" | ".intercalate texts) = texts.flatMap words := by
  have hbar : words " | " = [] := by decide
  induction texts with
  | nil => rfl
  | cons u texts ih =>
      cases texts with
      | nil => simp
      | cons v texts =>
          rw [String.intercalate_cons_cons, words_append_of_last _ (by simp [isWordChar]),
            words_append_of_head _ (by simp [isWordChar]), ih, hbar]
          simp

theorem mem_words_union {types : List TypeExpr} {w : String} :
    w ∈ words (union types).text ↔ ∃ t ∈ types, w ∈ words t.text := by
  rw [text_union, words_intercalate, texts_eq_map]
  simp

/-- Types of different texts have the same words as all types. -/
theorem mem_words_distinct {types : List TypeExpr} {w : String} :
    (∃ t ∈ distinct types, w ∈ words t.text) ↔ ∃ t ∈ types, w ∈ words t.text := by
  constructor
  · rintro ⟨t, ht, hw⟩
    exact ⟨t, mem_of_mem_distinct ht, hw⟩
  · rintro ⟨t, ht, hw⟩
    obtain ⟨u, hu, htext⟩ := exists_mem_distinct ht
    exact ⟨u, hu, htext ▸ hw⟩

end TypeExpr

/-- A union has the words of its variants, and none but `any` without variants. -/
theorem Mapper.mem_words_unionType {types : List MappedType} {w : String} (hw : w ≠ "any") :
    w ∈ words (unionType types).type.text ↔ ∃ a ∈ types, w ∈ words a.type.text := by
  cases types with
  | nil =>
      have hany : words "any" = ["any"] := by decide
      simp [unionType, MappedType.any, TypeExpr.any, TypeExpr.text_named, hany, hw]
  | cons first rest =>
      have hall : (∃ t ∈ TypeExpr.distinct ((first :: rest).map (·.type)), w ∈ words t.text) ↔
          ∃ a ∈ first :: rest, w ∈ words a.type.text := by
        rw [TypeExpr.mem_words_distinct]
        simp
      rw [← hall]
      rcases unionType_cons first rest with ⟨t, hone, htext, heq⟩ | ⟨-, heq⟩
      · rw [heq, hone, ← htext]
        simp
      · rw [heq]
        exact TypeExpr.mem_words_union

/-! ## Names that are words -/

theorem IsWord.append {a b : String} (ha : IsWord a) (hb : IsWord b) : IsWord (a ++ b) := by
  intro c hc
  rw [String.toList_append, List.mem_append] at hc
  exact hc.elim (ha c) (hb c)

/-- A property of all characters below 128, checked one by one. -/
theorem forall_of_latin {P : Char → Prop} (h : ∀ n, n < 128 → P (Char.ofNat n)) {c : Char}
    (hc : c.toNat < 128) : P c := by
  have hat := h c.toNat hc
  rwa [Char.ofNat_toNat] at hat

theorem isAlpha_cases {c : Char} (h : c.isAlpha = true) :
    65 ≤ c.toNat ∧ c.toNat ≤ 90 ∨ 97 ≤ c.toNat ∧ c.toNat ≤ 122 := by
  change (decide ('A'.val ≤ c.val ∧ c.val ≤ 'Z'.val) ||
    (decide ('a'.val ≤ c.val) && decide (c.val ≤ 'z'.val))) = true at h
  rwa [Bool.or_eq_true, Bool.and_eq_true, decide_eq_true_eq, decide_eq_true_eq,
    decide_eq_true_eq] at h

theorem isDigit_iff {c : Char} : c.isDigit = true ↔ 48 ≤ c.toNat ∧ c.toNat ≤ 57 := by
  change (decide ('0'.val ≤ c.val) && decide (c.val ≤ '9'.val)) = true ↔ _
  rw [Bool.and_eq_true, decide_eq_true_eq, decide_eq_true_eq]
  exact Iff.rfl

theorem isAlphanum_cases {c : Char} (h : c.isAlphanum = true) :
    48 ≤ c.toNat ∧ c.toNat ≤ 57 ∨ 65 ≤ c.toNat ∧ c.toNat ≤ 90 ∨
      97 ≤ c.toNat ∧ c.toNat ≤ 122 := by
  rcases Bool.or_eq_true_iff.mp h with halpha | hdigit
  · exact .inr (isAlpha_cases halpha)
  · exact .inl (isDigit_iff.mp hdigit)

theorem toNat_of_isWordChar {c : Char} (h : isWordChar c = true) : c.toNat < 128 := by
  rcases Bool.or_eq_true_iff.mp h with h | h
  · have := isAlphanum_cases h
    omega
  · obtain rfl := beq_iff_eq.mp h
    decide

theorem isWordChar_toUpper {c : Char} (h : isWordChar c = true) : isWordChar c.toUpper = true :=
  forall_of_latin (P := fun c => isWordChar c = true → isWordChar c.toUpper = true)
    (by decide) (toNat_of_isWordChar h) h

theorem IsWord.capitalize {name : String} (h : IsWord name) : IsWord (Naming.capitalize name) := by
  intro c hc
  unfold IsWord at h
  rw [Naming.capitalize, String.toList_ofList] at hc
  cases hname : name.toList with
  | nil =>
      rw [hname] at hc
      exact absurd hc List.not_mem_nil
  | cons d rest =>
      rw [hname] at h hc
      have hd := h d List.mem_cons_self
      rw [Naming.capitalizeChars, Text.upperChar, if_pos (toNat_of_isWordChar hd)] at hc
      rcases List.mem_cons.mp hc with rfl | hc
      · exact isWordChar_toUpper hd
      · exact h c (List.mem_cons_of_mem _ hc)

theorem IsWord.ofBase {base : String} (h : IsWord base) : IsWord (ModelName.ofBase base) :=
  h.append (by decide)

theorem IsWord.base {name : String} (h : IsWord name) : IsWord (ModelName.base name) := by
  unfold ModelName.base
  split
  · exact h
  · next rest hdrop =>
      intro c hc
      rw [Text.dropBack?_eq_some_iff] at hdrop
      refine h c ?_
      rw [hdrop]
      exact List.mem_append_left _ (by simpa using hc)
  · exact h

/-- What a claimed name is made from when the plain one is taken. -/
theorem IsWord.numbered {base : String} (h : IsWord base) (attempt : Nat) :
    IsWord (if attempt ≤ 1 then base else base ++ toString attempt) := by
  have hdigits : IsWord (toString attempt) := by
    intro c hc
    have hdigit : c.isDigit = true :=
      Nat.isDigit_of_mem_toDigits (by decide) (Nat.le_refl 10) (by simpa [Nat.repr] using hc)
    simp [isWordChar, Char.isAlphanum, hdigit]
  split
  · exact h
  · exact h.append hdigits

theorem IsWord.enumName {name : String} (h : IsWord name) : IsWord (Naming.enumName name) :=
  h.capitalize.append (by decide)

end ApiScaffold
