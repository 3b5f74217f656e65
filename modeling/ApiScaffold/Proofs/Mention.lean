import ApiScaffold.Typing.TypeExpr
import Mathlib.Data.List.Basic
import Mathlib.Data.List.Forall2

set_option autoImplicit false

/-! # The names that a type mentions

The text of a type is made of the texts of its parts, and every part stands in it as a word: between
the ends of the text, blanks and brackets. So a type mentions the names that its parts mention. -/

namespace ApiScaffold

/-! ## Words -/

/-- A text after which a word can begin. -/
def OpensWord (text : List Char) : Prop := ∀ c ∈ text.getLast?, c = ' ' ∨ c = '('

/-- A text with which a word can end. -/
def ClosesWord (text : List Char) : Prop := ∀ c ∈ text.head?, c = ' ' ∨ c = ')' ∨ c = '[' ∨ c = '>'

/-- A type mentions a name: the name stands in its text as a word. -/
def Mentions (type name : String) : Prop :=
  ∃ before after, type.toList = before ++ name.toList ++ after ∧ OpensWord before ∧ ClosesWord after

theorem mentions_self (name : String) : Mentions name name :=
  ⟨[], [], by simp, by simp [OpensWord], by simp [ClosesWord]⟩

theorem OpensWord.append {front text : List Char} (hf : OpensWord front) (ht : OpensWord text) :
    OpensWord (front ++ text) := by
  intro c hc
  rw [List.getLast?_append] at hc
  cases hlast : text.getLast? with
  | none => exact hf c (by simpa [hlast] using hc)
  | some d => exact ht c (by simpa [hlast] using hc)

theorem ClosesWord.append {text back : List Char} (ht : ClosesWord text) (hb : ClosesWord back) :
    ClosesWord (text ++ back) := by
  intro c hc
  rw [List.head?_append] at hc
  cases hhead : text.head? with
  | none => exact hb c (by simpa [hhead] using hc)
  | some d => exact ht c (by simpa [hhead] using hc)

/-- What stands in a text as a word with what it mentions is mentioned by the text. -/
theorem Mentions.surround {type name : String} (h : Mentions type name) (front back : String)
    (hf : OpensWord front.toList) (hb : ClosesWord back.toList) :
    Mentions (front ++ type ++ back) name := by
  obtain ⟨before, after, heq, hbefore, hafter⟩ := h
  refine ⟨front.toList ++ before, after ++ back.toList, ?_, hf.append hbefore, hafter.append hb⟩
  simp [heq]

/-! ## Parts of types -/

namespace TypeExpr

theorem mentions_list {item : TypeExpr} {name : String} (h : Mentions item.text name) :
    Mentions (list item).text name := by
  rw [text_list]
  split
  · exact h.surround _ _ (by simp [OpensWord]) (by simp [ClosesWord])
  · simpa using h.surround "" "[]" (by simp [OpensWord]) (by simp [ClosesWord])

theorem mentions_listOfClass (name : String) : Mentions (listOfClass name).text name := by
  rw [text_listOfClass]
  simpa using (mentions_self name).surround "" "[]" (by simp [OpensWord]) (by simp [ClosesWord])

theorem mentions_record {value : TypeExpr} {name : String} (h : Mentions value.text name) :
    Mentions (record value).text name := by
  rw [text_record]
  exact h.surround _ _ (by simp [OpensWord]) (by simp [ClosesWord])

/-- A union of texts has each of them as words. -/
theorem mentions_intercalate {texts : List String} {t name : String} (ht : t ∈ texts)
    (h : Mentions t name) : Mentions (" | ".intercalate texts) name := by
  induction texts with
  | nil => exact absurd ht List.not_mem_nil
  | cons u texts ih =>
      cases texts with
      | nil =>
          obtain rfl : t = u := by simpa using ht
          simpa using h
      | cons v texts =>
          rw [String.intercalate_cons_cons]
          rcases List.mem_cons.mp ht with rfl | ht
          · have hmore := h.surround ""
              (" | " ++ " | ".intercalate (v :: texts)) (by simp [OpensWord])
              (by simp [ClosesWord])
            simpa [String.append_assoc] using hmore
          · have hmore := (ih ht).surround (u ++ " | ") ""
              (by simp [OpensWord]) (by simp [ClosesWord])
            simpa using hmore

theorem mentions_union {t : TypeExpr} {types : List TypeExpr} {name : String} (ht : t ∈ types)
    (h : Mentions t.text name) : Mentions (union types).text name := by
  rw [text_union, texts_eq_map]
  exact mentions_intercalate (List.mem_map_of_mem ht) h

/-! ## Types of different texts -/

/-- Keep a type, unless one of its text is kept. -/
def keepNew (kept : List TypeExpr) (t : TypeExpr) : List TypeExpr :=
  if kept.any (·.text == t.text) then kept else kept ++ [t]

theorem subset_keepNew {kept : List TypeExpr} (t : TypeExpr) : kept ⊆ keepNew kept t := by
  unfold keepNew
  split
  · exact List.Subset.refl kept
  · exact List.subset_append_left kept [t]

theorem exists_mem_keepNew (kept : List TypeExpr) (t : TypeExpr) :
    ∃ u ∈ keepNew kept t, u.text = t.text := by
  unfold keepNew
  split
  · next hany => simpa using hany
  · exact ⟨t, by simp, rfl⟩

theorem distinct_eq_foldl (types : List TypeExpr) : distinct types = types.foldl keepNew [] := rfl

theorem subset_foldl_keepNew (types kept : List TypeExpr) : kept ⊆ types.foldl keepNew kept := by
  induction types generalizing kept with
  | nil => exact List.Subset.refl kept
  | cons t types ih => exact List.Subset.trans (subset_keepNew t) (ih (keepNew kept t))

/-- Every type has its text among the types of different texts. -/
theorem exists_mem_distinct {t : TypeExpr} {types : List TypeExpr} (ht : t ∈ types) :
    ∃ u ∈ distinct types, u.text = t.text := by
  obtain ⟨before, after, rfl⟩ := List.append_of_mem ht
  obtain ⟨u, hu, htext⟩ := exists_mem_keepNew (before.foldl keepNew []) t
  refine ⟨u, ?_, htext⟩
  rw [distinct_eq_foldl, List.foldl_append, List.foldl_cons]
  exact subset_foldl_keepNew after _ hu

end TypeExpr

end ApiScaffold
