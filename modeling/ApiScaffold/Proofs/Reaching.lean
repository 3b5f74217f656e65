import ApiScaffold.Proofs.Concluding

set_option autoImplicit false

/-! # What looking leads to

In a document that is not linked, the parts of a node are smaller than the node and have no texts
that it does not have (`Node.Inner`), and a pointer leads to a node inside the root. The pointer of a
reference is a text of the node. So pointers that are followed one after the other are texts of the
document, of which there are finitely many, and a chain of references that follows none of them twice
comes to an end. -/

namespace ApiScaffold

/-! ## Texts -/

namespace Json

mutual

/-- The texts in a value, its keys aside. -/
def texts : Json → List String
  | .str s => [s]
  | .arr items => itemsTexts items
  | .obj fields => fieldsTexts fields
  | _ => []

/-- `texts` for the items of a list. -/
def itemsTexts : List Json → List String
  | [] => []
  | x :: rest => texts x ++ itemsTexts rest

/-- `texts` for the fields of an object. -/
def fieldsTexts : Fields → List String
  | [] => []
  | (_, x) :: rest => texts x ++ fieldsTexts rest

end

mutual

/-- There are not more texts than values. -/
theorem length_texts_le : ∀ v : Json, v.texts.length ≤ v.size
  | .null | .bool _ | .int _ | .float _ | .str _ => by simp [texts, size]
  | .arr items => by
    rw [texts, size]
    exact Nat.le_succ_of_le (length_itemsTexts_le items)
  | .obj fields => by
    rw [texts, size]
    exact Nat.le_succ_of_le (length_fieldsTexts_le fields)

theorem length_itemsTexts_le : ∀ items : List Json, (itemsTexts items).length ≤ sizeItems items
  | [] => Nat.le_refl _
  | x :: rest => by
    rw [itemsTexts, sizeItems, List.length_append]
    exact Nat.add_le_add (length_texts_le x) (length_itemsTexts_le rest)

theorem length_fieldsTexts_le : ∀ fields : Fields, (fieldsTexts fields).length ≤ sizeFields fields
  | [] => Nat.le_refl _
  | (_, x) :: rest => by
    rw [fieldsTexts, sizeFields, List.length_append]
    exact Nat.add_le_add (length_texts_le x) (length_fieldsTexts_le rest)

end

variable {items : List Json} {fields : Fields}

theorem texts_subset_of_mem_items {x : Json} (h : x ∈ items) :
    x.texts ⊆ (Json.arr items).texts := by
  rw [texts]
  induction items with
  | nil => exact absurd h List.not_mem_nil
  | cons y items ih =>
      rw [itemsTexts]
      rcases List.mem_cons.mp h with rfl | h
      · exact List.subset_append_left _ _
      · exact List.subset_append_of_subset_right _ (ih h)

theorem texts_subset_of_mem_fields {f : String × Json} (h : f ∈ fields) :
    f.2.texts ⊆ (Json.obj fields).texts := by
  rw [texts]
  induction fields with
  | nil => exact absurd h List.not_mem_nil
  | cons g fields ih =>
      rw [fieldsTexts]
      rcases List.mem_cons.mp h with rfl | h
      · exact List.subset_append_left _ _
      · exact List.subset_append_of_subset_right _ (ih h)

end Json

section Unfollowed

variable {α : Type} [BEq α] [LawfulBEq α] {all following : List α} {a : α}

/-- What is not among that which is being followed. -/
def unfollowed (all following : List α) : List α :=
  all.filter fun a => !following.contains a

omit [LawfulBEq α] in
theorem length_unfollowed_le (all following : List α) :
    (unfollowed all following).length ≤ all.length :=
  List.length_filter_le _ _

/-- To follow something for the first time leaves less to follow. -/
theorem length_unfollowed_cons_lt (h : a ∈ all) (hnew : following.contains a = false) :
    (unfollowed all (a :: following)).length < (unfollowed all following).length := by
  have hfilter : unfollowed all (a :: following) = (unfollowed all following).filter (· != a) := by
    rw [unfollowed, unfollowed, List.filter_filter]
    refine List.filter_congr fun t _ => ?_
    rw [List.contains_cons, Bool.not_or]
    rfl
  rw [hfilter]
  refine List.length_filter_lt_length_iff_exists.mpr ⟨a, ?_, by simp⟩
  exact List.mem_filter.mpr ⟨h, by rw [hnew]; rfl⟩

end Unfollowed

/-! ## Parts of a node -/

namespace Node

/-- A node of the same document that is no larger than another one and has no other texts. -/
structure Within (n b : Node) : Prop where
  document : b.document = n.document
  size : b.value.size ≤ n.value.size
  texts : b.value.texts ⊆ n.value.texts

/-- A node within another one that is smaller. -/
structure Inner (n b : Node) : Prop extends Within n b where
  smaller : b.value.size < n.value.size

variable {n b c : Node} {r : Resolver} {pointer : String}

theorem Within.refl (n : Node) : Within n n := ⟨rfl, Nat.le_refl _, List.Subset.refl _⟩

theorem Within.trans (h : Within n b) (hc : Within b c) : Within n c :=
  ⟨hc.document.trans h.document, Nat.le_trans hc.size h.size, List.Subset.trans hc.texts h.texts⟩

theorem Within.plain (h : Within n b) (hn : n.Plain) : b.Plain := by
  rw [Plain, h.document]
  exact hn

theorem Inner.trans_within (h : Inner n b) (hc : Within b c) : Inner n c :=
  ⟨h.toWithin.trans hc, Nat.lt_of_le_of_lt hc.size h.smaller⟩

theorem inner_part {v : Json} {step : Step} (hsize : v.size < n.value.size)
    (htexts : v.texts ⊆ n.value.texts) : Inner n (n.part step v) :=
  ⟨⟨rfl, Nat.le_of_lt hsize, htexts⟩, hsize⟩

theorem inner_item {items : List Json} (hitems : n.value = .arr items) {u : Json} {i : Nat}
    (hu : u ∈ items) : Inner n (n.part (.index i) u) := by
  refine inner_part ?_ ?_
  · exact hitems ▸ Json.size_lt_of_mem_items hu
  · exact hitems ▸ Json.texts_subset_of_mem_items hu

theorem inner_field {fields : Fields} (hfields : n.value = .obj fields) {key : String} {u : Json}
    (hu : fields.lookup key = some u) : Inner n (n.part (.key key) u) := by
  have hmem : (key, u) ∈ fields := Json.mem_of_lookup hu
  refine inner_part ?_ ?_
  · exact hfields ▸ Json.size_lt_of_mem_fields hmem
  · exact hfields ▸ Json.texts_subset_of_mem_fields hmem

theorem inner_itemNodes {items : List Json} (hitems : n.value = .arr items) :
    ∀ b ∈ n.itemNodes items, Inner n b := by
  intro b hb
  obtain ⟨i, hi, rfl⟩ := List.mem_mapIdx.mp hb
  exact inner_item hitems (List.getElem_mem hi)

/-- A field that is there is smaller; one that is not there reads as null. -/
theorem Plain.inner_of_get (h : n.Plain) {key : String} (hb : n.get key = .ok b)
    (hthere : b.isAbsent = false) : Inner n b := by
  obtain ⟨fields, hfields, rfl⟩ := get_of_plain h hb
  cases hu : fields.lookup key with
  | none =>
      rw [hu] at hthere
      cases hthere
  | some u => exact inner_field hfields hu

theorem inner_pointed {segment : String} (h : n.pointed segment = .ok (some b)) : Inner n b := by
  rcases pointed_eq_some h with ⟨items, i, u, hitems, -, hu, rfl⟩ | ⟨fields, u, hfields, hu, rfl⟩
  · exact inner_item hitems (List.mem_of_getElem? hu)
  · exact inner_field hfields hu

theorem within_descend {segments : List String} (h : n.descend segments = .ok (some b)) :
    Within n b := by
  induction segments generalizing n with
  | nil =>
      cases h
      exact .refl _
  | cons segment segments ih =>
      obtain ⟨found, hfound, h⟩ := bind_eq_ok.mp h
      cases found with
      | none => cases pure_eq_ok.mp h
      | some next => exact (inner_pointed hfound).toWithin.trans (ih h)

theorem within_locate (h : r.locate pointer = .ok (some b)) : Within r.document.top b := by
  unfold Resolver.locate at h
  split at h
  · exact within_descend h
  · cases h

theorem within_find (h : r.find pointer = .ok (some b)) : Within r.document.top b :=
  within_locate (Mapper.find_eq_some h).1

/-- The pointer of a reference is one of its texts. -/
theorem Plain.pointer_mem_texts (h : n.Plain) (hpointer : n.pointer? = .ok (some pointer)) :
    pointer ∈ n.value.texts := by
  obtain ⟨b, hget, hopened⟩ := Mapper.reference_of_pointer? hpointer
  have hb : b.Plain := closed_plain.get h hget
  have hvalue : b.value = .str pointer := by
    rw [opened, settle_of_plain hb] at hopened
    exact Except.ok.inj hopened
  refine (h.inner_of_get hget (by rw [isAbsent, hvalue])).texts ?_
  rw [hvalue]
  exact List.mem_singleton_self pointer

end Node

/-! ## Chains of references -/

namespace Resolver

open Node (Plain Within)

variable {r : Resolver} {n : Node}

/-- Where a reference inside the root leads is found with more fuel than there are pointers to
follow. -/
theorem concludes_chase (hr : r.document.linked = false) {fuel : Nat} {seen : List String}
    (hn : Within r.document.top n)
    (hfuel : (unfollowed r.document.root.texts seen).length < fuel) :
    Concludes (r.chase fuel seen n) := by
  induction fuel generalizing seen n with
  | zero => omega
  | succ fuel ih =>
      have hplain : n.Plain := hn.plain hr
      rw [chase]
      refine hplain.concludes_pointer?.bind fun pointer? hpointer => ?_
      split
      · exact concludes_pure _
      · next pointer =>
          split
          · exact concludes_pure _
          · next hnew =>
              refine (r.concludes_locate pointer).bind fun next? hnext => ?_
              split
              · next next =>
                  have hmem : pointer ∈ r.document.root.texts :=
                    hn.texts (hplain.pointer_mem_texts hpointer)
                  have hless := length_unfollowed_cons_lt hmem (by simpa using hnew)
                  exact ih (Node.within_locate hnext) (by omega)
              · exact concludes_pure _

/-- The first pointer may come from elsewhere; all others are texts of the document. -/
theorem concludes_chainEnd (hr : r.document.linked = false) (hn : n.Plain) :
    Concludes (r.chainEnd n) := by
  rw [chainEnd, chase]
  refine hn.concludes_pointer?.bind fun pointer? _ => ?_
  split
  · exact concludes_pure _
  · next pointer _ =>
      split
      · exact concludes_pure _
      · refine (r.concludes_locate pointer).bind fun next? hnext => ?_
        split
        · refine concludes_chase hr (Node.within_locate hnext) ?_
          have hlength := length_unfollowed_le r.document.root.texts [pointer]
          have hsize := r.document.root.length_texts_le
          omega
        · exact concludes_pure _

theorem concludes_derefIfAny (hr : r.document.linked = false) (hn : n.Plain) :
    Concludes (r.derefIfAny n) := by
  refine (concludes_chainEnd hr hn).bind fun last _ => ?_
  split
  · exact concludes_pure _
  · exact concludes_pure _

/-- The node that a reference leads to, if it leads anywhere, is where its chain ends. -/
theorem derefIfAny_eq_some {b : Node} (h : r.derefIfAny n = .ok (some b)) :
    r.chainEnd n = .ok (.node b) := by
  obtain ⟨last, hlast, h⟩ := bind_eq_ok.mp h
  cases last with
  | lost pointer => cases pure_eq_ok.mp h
  | node target =>
      cases pure_eq_ok.mp h
      exact hlast

theorem plain_derefIfAny (hr : r.document.linked = false) (hn : n.Plain) {b : Node}
    (h : r.derefIfAny n = .ok (some b)) : b.Plain :=
  Node.closed_plain.chase (r := r) hr hn (derefIfAny_eq_some h)

theorem concludes_objectAt (hr : r.document.linked = false) (hn : n.Plain) :
    Concludes (r.objectAt n) := by
  refine (concludes_derefIfAny hr hn).bind fun target? htarget => ?_
  split
  · next target =>
      have hplain : target.Plain := plain_derefIfAny hr hn htarget
      refine hplain.concludes_isObject.bind fun isObject _ => ?_
      split
      · exact concludes_pure _
      · exact concludes_pure _
  · exact concludes_pure _

end Resolver

end ApiScaffold
