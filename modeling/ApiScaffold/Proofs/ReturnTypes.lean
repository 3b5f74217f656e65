import ApiScaffold.Proofs.Members

set_option autoImplicit false

/-! # What a method returns

A method returns the union of the types of its responses. When errors count as well, the union has
more members and none less (`returnType_widens`), but for one case: a response without a body, or
with one of any type, counts only while no other response does, so a success like that gives way to
the type of an error (`returnType_narrows`). -/

namespace ApiScaffold

open Text

variable {includeErrors : Bool} {responses : List Response} {t : String}

/-! ## The types that are joined -/

/-- Whether a response has a type of its own, and neither no body nor one of any type. -/
def Response.isTyped (r : Response) : Bool :=
  r.typeExpression != "void" && r.typeExpression != "any"

/-- Whether a response counts for what a method returns. -/
def Response.counts (includeErrors : Bool) (r : Response) : Bool :=
  includeErrors || r.isSuccess

/-- The types that responses have of their own, each once. -/
def ownTypes (responses : List Response) : List String :=
  firsts ((responses.filter (·.isTyped)).map (·.typeExpression))

/-- What responses return that have no types of their own. -/
def plainReturn (responses : List Response) : String :=
  if responses.any (·.typeExpression != "void") then "any" else "void"

/-- The types that are joined to what a method returns, when these responses count. -/
def joinedTypes (responses : List Response) : List String :=
  if (ownTypes responses).isEmpty then [plainReturn responses] else ownTypes responses

theorem returnType_eq (includeErrors : Bool) (responses : List Response) :
    returnType includeErrors responses =
      " | ".intercalate (joinedTypes (responses.filter (·.counts includeErrors))) := by
  have htypes : firsts (((responses.filter (·.counts includeErrors)).map (·.typeExpression)).filter
      fun t => t != "void" && t != "any") =
      ownTypes (responses.filter (·.counts includeErrors)) := by
    rw [List.filter_map]
    rfl
  unfold returnType joinedTypes
  dsimp only
  rw [show (responses.filter fun r => includeErrors || r.isSuccess) =
    responses.filter (·.counts includeErrors) from rfl, htypes]
  split
  · rw [String.intercalate_singleton, plainReturn]
  · rfl

theorem mem_ownTypes :
    t ∈ ownTypes responses ↔ ∃ r ∈ responses, r.isTyped = true ∧ r.typeExpression = t := by
  simp only [ownTypes, mem_firsts, List.mem_map, List.mem_filter, and_assoc]

theorem ownTypes_eq_nil : ownTypes responses = [] ↔ ∀ r ∈ responses, r.isTyped = false := by
  simp only [List.eq_nil_iff_forall_not_mem, mem_ownTypes, not_exists, not_and,
    Bool.eq_false_iff]
  exact ⟨fun h r hr htyped => h _ r hr htyped rfl, fun h t r hr htyped _ => h r hr htyped⟩

theorem joinedTypes_of_typed (h : ownTypes responses ≠ []) :
    joinedTypes responses = ownTypes responses := by
  rw [joinedTypes, if_neg (by simpa using h)]

theorem joinedTypes_of_plain (h : ownTypes responses = []) :
    joinedTypes responses = [plainReturn responses] := by
  rw [joinedTypes, if_pos (by simpa using h)]

theorem joinedTypes_ne_nil (responses : List Response) : joinedTypes responses ≠ [] := by
  unfold joinedTypes
  split
  · exact List.cons_ne_nil _ _
  · next hne => simpa using hne

/-- What is joined does not end like the beginning of a bar when no type of a response does. -/
theorem closing_joinedTypes (h : ∀ r ∈ responses, Closing r.typeExpression.toList) :
    ∀ t ∈ joinedTypes responses, Closing t.toList := by
  intro t ht
  unfold joinedTypes at ht
  split at ht
  · obtain rfl := List.mem_singleton.mp ht
    unfold plainReturn
    split
    · exact closing_append (a := ['a', 'n']) (b := ['y']) rfl (by decide)
    · exact closing_append (a := ['v', 'o', 'i']) (b := ['d']) rfl (by decide)
  · obtain ⟨r, hr, -, rfl⟩ := mem_ownTypes.mp ht
    exact h r hr

/-! ## Unions as texts -/

/-- A union is a plain word only as its only member. -/
theorem eq_singleton_of_intercalate {types : List String} {word : String} (hword : word ≠ "")
    (hblank : ' ' ∉ word.toList) (h : " | ".intercalate types = word) : types = [word] := by
  match types with
  | [] => exact absurd h.symm hword
  | [t] => rw [← h, String.intercalate_singleton]
  | t :: u :: types =>
      rw [String.intercalate_cons_cons] at h
      refine absurd ?_ hblank
      rw [← h]
      simp

/-- The pieces of a union are those of its members, when none of them ends like the beginning of a
bar. -/
theorem mem_pieces_intercalate {types : List String} {p : String} (hne : types ≠ [])
    (h : ∀ t ∈ types, Closing t.toList) :
    p ∈ pieces " | " (" | ".intercalate types) ↔ ∃ t ∈ types, p ∈ pieces " | " t := by
  induction types with
  | nil => exact absurd rfl hne
  | cons t types ih =>
      cases types with
      | nil => simp
      | cons u types =>
          have hrest := ih (List.cons_ne_nil _ _) fun t ht => h t (List.mem_cons_of_mem _ ht)
          have htext : (t ++ " | " ++ " | ".intercalate (u :: types)).toList =
              t.toList ++ bar ++ (" | ".intercalate (u :: types)).toList := by
            rw [String.toList_append, String.toList_append]
            rfl
          have hcut : pieces " | " (" | ".intercalate (t :: u :: types)) =
              pieces " | " t ++ pieces " | " (" | ".intercalate (u :: types)) := by
            rw [String.intercalate_cons_cons, pieces, htext]
            exact (congrArg _ (cut_bar (h t List.mem_cons_self) _)).trans List.map_append
          rw [hcut, List.mem_append, hrest]
          simp only [List.mem_cons, exists_eq_or_imp]

/-! ## Counting errors as well -/

theorem ownTypes_mono {fewer more : List Response} (h : fewer ⊆ more) :
    ownTypes fewer ⊆ ownTypes more := by
  intro t ht
  obtain ⟨r, hr, hr'⟩ := mem_ownTypes.mp ht
  exact mem_ownTypes.mpr ⟨r, h hr, hr'⟩

theorem plainReturn_mono {fewer more : List Response} (h : fewer ⊆ more) :
    plainReturn more = "any" ∨ plainReturn fewer = "void" ∧ plainReturn more = "void" := by
  unfold plainReturn
  split
  · exact Or.inl rfl
  · next hmore =>
      refine Or.inr ⟨if_neg fun hfewer => hmore ?_, rfl⟩
      obtain ⟨r, hr, hr'⟩ := List.any_eq_true.mp hfewer
      exact List.any_eq_true.mpr ⟨r, h hr, hr'⟩

/-- The types that are joined when more responses count, unless it is any type: all those that were
joined. Types that the responses have of their own must not be lost against others. -/
theorem joinedTypes_mono {fewer more : List Response} (h : fewer ⊆ more)
    (hown : ownTypes more ≠ [] → ownTypes fewer ≠ []) :
    joinedTypes more = ["any"] ∨
      joinedTypes fewer ⊆ joinedTypes more ∧ joinedTypes fewer ≠ ["any"] := by
  by_cases htyped : ownTypes fewer = []
  · have hplain : ownTypes more = [] := Classical.not_not.mp fun hmore => hown hmore htyped
    rw [joinedTypes_of_plain htyped, joinedTypes_of_plain hplain]
    rcases plainReturn_mono h with hany | ⟨hfewer, hmore⟩
    · exact Or.inl (by rw [hany])
    · rw [hfewer, hmore]
      exact Or.inr ⟨List.Subset.refl _, by decide⟩
  · have hmore : ownTypes more ≠ [] := fun hnil =>
      htyped (List.eq_nil_of_subset_nil (hnil ▸ ownTypes_mono h))
    rw [joinedTypes_of_typed htyped, joinedTypes_of_typed hmore]
    refine Or.inr ⟨ownTypes_mono h, fun hany => ?_⟩
    obtain ⟨r, -, hr, htype⟩ := mem_ownTypes.mp (hany ▸ List.mem_cons_self)
    simp [Response.isTyped, htype] at hr

/-- Where successes have no types of their own, the errors have all the types that there are. -/
theorem ownTypes_errors (h : ∀ r ∈ responses, r.isSuccess = true → r.isTyped = false) :
    ownTypes (responses.filter (!·.isSuccess)) = ownTypes responses := by
  rw [ownTypes, ownTypes, List.filter_filter]
  refine congrArg (fun kept : List Response => firsts (kept.map (·.typeExpression)))
    (List.filter_congr fun r hr => ?_)
  cases hsuccess : r.isSuccess with
  | false => simp
  | true => simp [h r hr hsuccess]

theorem filter_counts_true : responses.filter (·.counts true) = responses :=
  List.filter_eq_self.mpr fun _ _ => rfl

theorem filter_counts_false :
    responses.filter (·.counts false) = responses.filter (·.isSuccess) := rfl

/-- When errors count as well, a method returns any type or all that it returned before, unless the
successes have no types of their own while an error does: then it returns those of the errors. -/
theorem returnType_widens (responses : List Response) :
    returnType false responses =
        " | ".intercalate (joinedTypes (responses.filter (·.isSuccess))) ∧
      returnType true responses = " | ".intercalate (joinedTypes responses) ∧
      (((∃ r ∈ responses, r.isTyped = true) →
          ∃ r ∈ responses, r.isSuccess = true ∧ r.isTyped = true) →
        (returnType true responses = "any" ∨
          joinedTypes (responses.filter (·.isSuccess)) ⊆ joinedTypes responses ∧
            ((∀ r ∈ responses, Closing r.typeExpression.toList) →
              pieces " | " (returnType false responses) ⊆
                pieces " | " (returnType true responses))) ∧
        (returnType false responses = "any" → returnType true responses = "any")) ∧
      ((∀ r ∈ responses, r.isSuccess = true → r.isTyped = false) →
        (∃ r ∈ responses, r.isTyped = true) →
        (returnType false responses = "void" ∨ returnType false responses = "any") ∧
          returnType true responses =
            " | ".intercalate (ownTypes (responses.filter (!·.isSuccess)))) := by
  have hfalse := returnType_eq false responses
  have htrue := returnType_eq true responses
  rw [filter_counts_false] at hfalse
  rw [filter_counts_true] at htrue
  have hsub : responses.filter (·.isSuccess) ⊆ responses := List.filter_sublist.subset
  refine ⟨hfalse, htrue, fun hkept => ?_, fun hplain ⟨r, hr, htyped⟩ => ?_⟩
  · have hown : ownTypes responses ≠ [] → ownTypes (responses.filter (·.isSuccess)) ≠ [] := by
      intro hne hnil
      obtain ⟨t, ht⟩ := List.exists_mem_of_ne_nil _ hne
      obtain ⟨r, hr, htyped, -⟩ := mem_ownTypes.mp ht
      obtain ⟨r', hr', hsuccess, htyped'⟩ := hkept ⟨r, hr, htyped⟩
      have hno := ownTypes_eq_nil.mp hnil r' (List.mem_filter.mpr ⟨hr', hsuccess⟩)
      rw [hno] at htyped'
      cases htyped'
    rcases joinedTypes_mono hsub hown with hany | ⟨hjoined, hnotAny⟩
    · rw [hany, String.intercalate_singleton] at htrue
      exact ⟨Or.inl htrue, fun _ => htrue⟩
    · refine ⟨Or.inr ⟨hjoined, fun hclosing p hp => ?_⟩, fun hany => ?_⟩
      · rw [hfalse, mem_pieces_intercalate (joinedTypes_ne_nil _)
          (closing_joinedTypes fun r hr => hclosing r (hsub hr))] at hp
        rw [htrue, mem_pieces_intercalate (joinedTypes_ne_nil _) (closing_joinedTypes hclosing)]
        obtain ⟨t, ht, hp⟩ := hp
        exact ⟨t, hjoined ht, hp⟩
      · rw [hfalse] at hany
        exact absurd (eq_singleton_of_intercalate (by decide) (by decide) hany) hnotAny
  · have hfew : ownTypes (responses.filter (·.isSuccess)) = [] :=
      ownTypes_eq_nil.mpr fun r hr =>
        hplain r (List.mem_filter.mp hr).1 (List.mem_filter.mp hr).2
    have hmany : ownTypes responses ≠ [] := by
      intro hnil
      rw [ownTypes_eq_nil.mp hnil r hr] at htyped
      cases htyped
    rw [joinedTypes_of_plain hfew, String.intercalate_singleton] at hfalse
    rw [joinedTypes_of_typed hmany] at htrue
    rw [hfalse, htrue, ownTypes_errors hplain]
    refine ⟨?_, rfl⟩
    unfold plainReturn
    split
    · exact Or.inr rfl
    · exact Or.inl rfl

/-- A success of any type, or one without a body, is lost against the type of an error. -/
theorem returnType_narrows :
    (returnType false [⟨"200", "any", none, false⟩, ⟨"404", "ErrorDto", none, false⟩] = "any" ∧
      returnType true [⟨"200", "any", none, false⟩, ⟨"404", "ErrorDto", none, false⟩] =
        "ErrorDto") ∧
    ¬ ∀ responses : List Response, (∃ r ∈ responses, r.isSuccess = true) →
      (returnType true responses = "any" ∨
        pieces " | " (returnType false responses) ⊆ pieces " | " (returnType true responses)) ∧
      (returnType false responses = "any" → returnType true responses = "any") := by
  refine ⟨by decide, fun h => ?_⟩
  have hwidens := h [⟨"200", "any", none, false⟩, ⟨"404", "ErrorDto", none, false⟩] (by decide)
  exact absurd (hwidens.2 (by decide)) (by decide)

example :
    returnType false [⟨"204", "void", none, false⟩, ⟨"404", "ErrorDto", none, false⟩] = "void" ∧
    returnType true [⟨"204", "void", none, false⟩, ⟨"404", "ErrorDto", none, false⟩] =
      "ErrorDto" := by
  decide

end ApiScaffold
