set_option autoImplicit false

/-! # First occurrences

Lists without repetitions in which every value stands at the place where it came first. -/

namespace ApiScaffold

/-- Add a value at the end of a list that does not hold it. -/
def addNew {α : Type} [DecidableEq α] (values : List α) (value : α) : List α :=
  if value ∈ values then values else values ++ [value]

/-- A list without repetitions, each value at its first place. -/
def firsts {α : Type} [DecidableEq α] (values : List α) : List α :=
  values.foldl addNew []

theorem mem_addNew {α : Type} [DecidableEq α] {values : List α} {a b : α} :
    a ∈ addNew values b ↔ a ∈ values ∨ a = b := by
  unfold addNew
  split
  · constructor
    · exact Or.inl
    · rintro (h | rfl) <;> assumption
  · simp

theorem nodup_addNew {α : Type} [DecidableEq α] {values : List α} (b : α)
    (h : values.Nodup) : (addNew values b).Nodup := by
  unfold addNew
  split
  · exact h
  · rename_i hb
    refine List.nodup_append.mpr ⟨h, by simp, ?_⟩
    intro x hx y hy
    simp only [List.mem_singleton] at hy
    rintro rfl
    exact hb (hy ▸ hx)

theorem mem_foldl_addNew {α : Type} [DecidableEq α] {values kept : List α} {a : α} :
    a ∈ values.foldl addNew kept ↔ a ∈ kept ∨ a ∈ values := by
  induction values generalizing kept with
  | nil => simp
  | cons b values ih =>
    rw [List.foldl_cons, ih, mem_addNew, List.mem_cons, or_assoc]

theorem mem_firsts {α : Type} [DecidableEq α] {values : List α} {a : α} :
    a ∈ firsts values ↔ a ∈ values := by
  simp [firsts, mem_foldl_addNew]

theorem nodup_foldl_addNew {α : Type} [DecidableEq α] {values kept : List α} (h : kept.Nodup) :
    (values.foldl addNew kept).Nodup := by
  induction values generalizing kept with
  | nil => exact h
  | cons b values ih => exact ih (nodup_addNew b h)

theorem nodup_firsts {α : Type} [DecidableEq α] (values : List α) : (firsts values).Nodup :=
  nodup_foldl_addNew List.nodup_nil

/-- A list without repetitions is left as it is. -/
theorem firsts_of_nodup {α : Type} [DecidableEq α] {values : List α} (h : values.Nodup) :
    firsts values = values := by
  have hkept : ∀ (values kept : List α), (kept ++ values).Nodup →
      values.foldl addNew kept = kept ++ values := by
    intro values
    induction values with
    | nil =>
      intro kept _
      exact (List.append_nil kept).symm
    | cons a values ih =>
      intro kept h
      have hnew : a ∉ kept := fun ha => (List.nodup_append.mp h).2.2 a ha a List.mem_cons_self rfl
      rw [List.foldl_cons, addNew, if_neg hnew, ih (kept ++ [a]) (by simpa using h),
        List.append_assoc]
      rfl
  exact hkept values [] h

/-- Texts without repetitions, sorted by the code points of their characters. -/
def sortedFirsts (texts : List String) : List String :=
  (firsts texts).mergeSort (fun a b => a ≤ b)

theorem mem_sortedFirsts {texts : List String} {text : String} :
    text ∈ sortedFirsts texts ↔ text ∈ texts := by
  rw [sortedFirsts, List.mem_mergeSort, mem_firsts]

theorem nodup_sortedFirsts (texts : List String) : (sortedFirsts texts).Nodup :=
  (List.mergeSort_perm _ _).nodup_iff.mpr (nodup_firsts texts)

theorem pairwise_sortedFirsts (texts : List String) : (sortedFirsts texts).Pairwise (· ≤ ·) := by
  have htrans : ∀ a b c : String, decide (a ≤ b) = true → decide (b ≤ c) = true →
      decide (a ≤ c) = true := by
    simpa using fun a b c => String.le_trans
  have htotal : ∀ a b : String, (decide (a ≤ b) || decide (b ≤ a)) = true := by
    simpa using String.le_total
  exact (List.pairwise_mergeSort htrans htotal (firsts texts)).imp of_decide_eq_true

/-- Texts that are sorted are left as they are. -/
theorem sortedFirsts_of_pairwise {texts : List String} (h : texts.Pairwise (· < ·)) :
    sortedFirsts texts = texts := by
  have hnodup : texts.Nodup := by
    refine h.imp ?_
    rintro a b hlt rfl
    exact String.lt_irrefl a hlt
  have hle : texts.Pairwise (· ≤ ·) := 
    h.imp fun hlt => String.not_lt.mp (String.lt_asymm hlt)
  rw [sortedFirsts, firsts_of_nodup hnodup]
  exact List.mergeSort_of_pairwise (hle.imp decide_eq_true)

end ApiScaffold
