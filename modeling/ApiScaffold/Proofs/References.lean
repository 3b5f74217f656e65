import ApiScaffold.Proofs.Reaching
import Mathlib.Logic.Relation

set_option autoImplicit false

/-! # Where references lead

A document is put together only if no link is written under the `$ref` of an object
(`Document.WellLinked`). Then no node of a linked document is a reference, since all that could be
one stands for something else.

A chain of references is told by the pointers that are followed one after the other (`Leads`). From
one node there is only one chain that ends, and it follows no pointer twice: what comes behind a
pointer would come behind it again, and the chain would go on for ever. So looking for the end of a
chain finds it whenever there is one, although it gives up at a pointer that was followed before
(`objectAt_eq_some_iff`).

A walk goes along references, and on from the objects that they lead to. What it meets is what can
be reached by single steps of these two kinds (`met_iff`). -/

namespace ApiScaffold

/-! ## Linked documents -/

/-- No link of a linked document is written under the `$ref` of an object. -/
def Document.WellLinked (d : Document) : Prop :=
  d.linked = true → Node.hasNestedLink d.root = false

theorem Document.wellLinked_of_plain {d : Document} (h : d.linked = false) : d.WellLinked :=
  fun hlinked => absurd (h.symm.trans hlinked) (by decide)

/-- The documents that can be put together are well linked. -/
theorem Document.wellLinked_of_ofLinks {d : Document} {tag : Nat} {root : Json}
    (h : Document.ofLinks tag root = .ok d) : d.WellLinked := by
  unfold Document.ofLinks at h
  split at h
  · cases h
  · next hnone =>
      cases h
      exact fun _ => by simpa using hnone

namespace Node

variable {n b : Node} {items : List Json} {fields : Fields} {pointer : String}

theorem itemsHaveNestedLink_eq_false :
    itemsHaveNestedLink items = false ↔ ∀ x ∈ items, hasNestedLink x = false := by
  induction items with
  | nil => simp [itemsHaveNestedLink]
  | cons x items ih => simp [itemsHaveNestedLink, ih]

theorem fieldsHaveNestedLink_eq_false :
    fieldsHaveNestedLink fields = false ↔ ∀ f ∈ fields, hasNestedLink f.2 = false := by
  induction fields with
  | nil => simp [fieldsHaveNestedLink]
  | cons f fields ih => simp [fieldsHaveNestedLink, ih]

theorem hasNestedLink_arr :
    hasNestedLink (.arr items) = false ↔ ∀ x ∈ items, hasNestedLink x = false := by
  rw [hasNestedLink, itemsHaveNestedLink_eq_false]

theorem hasNestedLink_obj :
    hasNestedLink (.obj fields) = false ↔
      (fields.lookup "$ref").bind referenceText? = none ∧
        ∀ f ∈ fields, hasNestedLink f.2 = false := by
  rw [hasNestedLink, Bool.or_eq_false_iff, fieldsHaveNestedLink_eq_false,
    Option.isSome_eq_false_iff, Option.isNone_iff_eq_none]

/-- A node of a linked document with no link under the `$ref` of an object. -/
structure Unnested (n : Node) : Prop where
  linked : n.document.linked = true
  document : n.document.WellLinked
  value : hasNestedLink n.value = false

theorem closed_unnested : Closed Unnested where
  top h := ⟨h.linked, h.document, h.document h.linked⟩
  field {n fields} key h hfields := by
    refine ⟨h.linked, h.document, ?_⟩
    have hvalue := hasNestedLink_obj.mp (hfields ▸ h.value)
    cases hu : fields.lookup key with
    | none => rfl
    | some u => exact hvalue.2 _ (Json.mem_of_lookup hu)
  listed h hfields f hf :=
    ⟨h.linked, h.document, (hasNestedLink_obj.mp (hfields ▸ h.value)).2 f hf⟩
  item h hitems hu :=
    ⟨h.linked, h.document, hasNestedLink_arr.mp (hitems ▸ h.value) _ (List.mem_of_getElem? hu)⟩
  char h _ _ := ⟨h.linked, h.document, rfl⟩
  name h _ _ := ⟨h.linked, h.document, rfl⟩

/-- What a link leads to in the end is no link. -/
theorem referenceText?_of_settleWithin {fuel : Nat} (h : settleWithin fuel n = .ok b) :
    referenceText? b.value = none := by
  induction fuel generalizing n with
  | zero => cases h
  | succ fuel ih =>
      rw [settleWithin] at h
      split at h
      · next hnone =>
          cases h
          exact hnone
      · split at h
        · exact absurd h throw_ne_ok
        · obtain ⟨target, -, h⟩ := bind_eq_ok.mp h
          split at h
          · exact absurd h throw_ne_ok
          · exact ih h

/-- In a well linked document nothing is a reference. -/
theorem Unnested.pointer?_ne (h : n.Unnested) : n.pointer? ≠ .ok (some pointer) := by
  intro hpointer
  obtain ⟨ref, href, hopened⟩ := Mapper.reference_of_pointer? hpointer
  obtain ⟨here, hhere, href⟩ := bind_eq_ok.mp href
  have hin : here.Unnested := closed_unnested.settle h hhere
  have hnolink : referenceText? here.value = none := by
    rw [settle, if_pos h.linked] at hhere
    exact referenceText?_of_settleWithin hhere
  split at href
  · next fields hfields =>
      obtain rfl := pure_eq_ok.mp href
      have hnested := (hasNestedLink_obj.mp (hfields ▸ hin.value)).1
      rw [hfields, referenceText?] at hnolink
      -- what stands there is no link, so it would have to be a text itself
      cases hu : fields.lookup "$ref" with
      | none =>
          rw [hu, opened, settle_of_noLink rfl] at hopened
          cases hopened
      | some u =>
          rw [hu] at hnested hnolink hopened
          have hself : referenceText? ((some u).getD .null) = none := hnested
          rw [opened, settle_of_noLink hself] at hopened
          obtain rfl : u = .str pointer := Except.ok.inj hopened
          cases hnolink
  · exact absurd href throw_ne_ok

end Node

namespace Resolver

open Node (Plain Within)

variable {r : Resolver} {n next b c : Node} {pointer : String} {pointers seen : List String}

/-! ## Chains that end -/

/-- Following some pointers one after the other leads from a node to one that is no reference. -/
inductive Leads (r : Resolver) : Node → List String → Node → Prop where
  | here {n : Node} (h : n.pointer? = .ok none) : Leads r n [] n
  | follow {n next b : Node} {pointer : String} {pointers : List String}
      (hpointer : n.pointer? = .ok (some pointer)) (hnext : r.locate pointer = .ok (some next))
      (h : Leads r next pointers b) : Leads r n (pointer :: pointers) b

theorem Leads.pointer?_end (h : Leads r n pointers b) : b.pointer? = .ok none := by
  induction h with
  | here h => exact h
  | follow _ _ _ ih => exact ih

/-- A node leads nowhere but to one node, and there on one way. -/
theorem Leads.unique {others : List String} (h : Leads r n pointers b)
    (h' : Leads r n others c) : pointers = others ∧ b = c := by
  induction h generalizing others with
  | here hplain =>
      cases h' with
      | here _ => exact ⟨rfl, rfl⟩
      | follow hpointer _ _ => cases hplain.symm.trans hpointer
  | follow hpointer hnext _ ih =>
      cases h' with
      | here hplain => cases hplain.symm.trans hpointer
      | follow hpointer' hnext' h' =>
          cases hpointer.symm.trans hpointer'
          cases hnext.symm.trans hnext'
          obtain ⟨rfl, rfl⟩ := ih h'
          exact ⟨rfl, rfl⟩

/-- Behind each pointer of a chain, what is left of the chain is shorter. -/
theorem Leads.exists_rest (h : Leads r n pointers b) (hmem : pointer ∈ pointers) :
    ∃ next rest, r.locate pointer = .ok (some next) ∧ Leads r next rest b ∧
      rest.length < pointers.length := by
  induction h with
  | here _ => exact absurd hmem List.not_mem_nil
  | @follow n next b first pointers _ hnext hrest ih =>
      by_cases hfirst : pointer = first
      · subst hfirst
        exact ⟨next, pointers, hnext, hrest, by simp⟩
      · obtain ⟨next', rest, hnext', hrest', hless⟩ := ih (List.mem_of_ne_of_mem hfirst hmem)
        exact ⟨next', rest, hnext', hrest', by simp only [List.length_cons]; omega⟩

/-- A chain that ends follows no pointer twice. -/
theorem Leads.nodup (h : Leads r n pointers b) : pointers.Nodup := by
  induction h with
  | here _ => exact List.nodup_nil
  | follow _ hnext hrest ih =>
      refine List.nodup_cons.mpr ⟨fun hagain => ?_, ih⟩
      -- behind the second time the chain would have to be as long as behind the first
      obtain ⟨next', rest, hnext', hrest', hless⟩ := hrest.exists_rest hagain
      cases hnext.symm.trans hnext'
      rw [(hrest.unique hrest').1] at hless
      exact Nat.lt_irrefl _ hless

theorem Leads.subset_texts (hr : r.document.linked = false) (hn : Within r.document.top n)
    (h : Leads r n pointers b) : pointers ⊆ r.document.root.texts := by
  induction h with
  | here _ => exact List.nil_subset _
  | follow hpointer hnext _ ih =>
      have hplain : Plain _ := hn.plain hr
      refine List.cons_subset.mpr ⟨?_, ih (Node.within_locate hnext)⟩
      exact hn.texts (hplain.pointer_mem_texts hpointer)

/-- Behind the first pointer all others are texts of the document, and in a linked document there
are no others. -/
theorem Leads.length_le (hr : r.document.WellLinked) (h : Leads r n pointers b) :
    pointers.length ≤ r.document.root.size + 1 := by
  cases h with
  | here _ => simp
  | @follow _ next _ _ rest _ hnext h =>
      have hrest : rest.length ≤ r.document.root.size := by
        cases hlinked : r.document.linked with
        | false =>
            have hsub := h.subset_texts hlinked (Node.within_locate hnext)
            have htexts := (List.subperm_of_subset h.nodup hsub).length_le
            exact htexts.trans r.document.root.length_texts_le
        | true =>
            have htop : r.document.top.Unnested := ⟨hlinked, hr, hr hlinked⟩
            have hin : next.Unnested := Node.closed_unnested.locate htop hnext
            cases h with
            | here _ => exact Nat.zero_le _
            | follow hpointer _ _ => exact absurd hpointer hin.pointer?_ne
      simp only [List.length_cons]
      omega

/-! ## Looking for the end -/

theorem exists_leads_of_chase {fuel : Nat} (h : r.chase fuel seen n = .ok (.node b)) :
    ∃ pointers, Leads r n pointers b := by
  induction fuel generalizing seen n with
  | zero => cases h
  | succ fuel ih =>
      obtain ⟨pointer?, hpointer, h⟩ := bind_eq_ok.mp h
      cases pointer? with
      | none =>
          cases pure_eq_ok.mp h
          exact ⟨[], .here hpointer⟩
      | some pointer =>
          dsimp only at h
          split at h
          · cases pure_eq_ok.mp h
          · obtain ⟨found, hfound, h⟩ := bind_eq_ok.mp h
            cases found with
            | none => cases pure_eq_ok.mp h
            | some next =>
                obtain ⟨pointers, hleads⟩ := ih h
                exact ⟨pointer :: pointers, .follow hpointer hfound hleads⟩

theorem Leads.chase {fuel : Nat} (h : Leads r n pointers b) (hfuel : pointers.length < fuel)
    (hseen : ∀ pointer ∈ pointers, pointer ∉ seen) : r.chase fuel seen n = .ok (.node b) := by
  induction h generalizing fuel seen with
  | here hplain =>
      obtain ⟨fuel, rfl⟩ := Nat.exists_eq_succ_of_ne_zero (Nat.ne_of_gt hfuel)
      rw [Resolver.chase, ok_bind hplain]
      rfl
  | @follow n next b pointer pointers hpointer hnext hrest ih =>
      obtain ⟨fuel, rfl⟩ := Nat.exists_eq_succ_of_ne_zero (Nat.ne_of_gt (Nat.zero_lt_of_lt hfuel))
      have hnew : pointer ∉ pointers :=
        (List.nodup_cons.mp (Leads.follow hpointer hnext hrest).nodup).1
      rw [Resolver.chase, ok_bind hpointer]
      dsimp only
      rw [if_neg (by simpa using hseen pointer List.mem_cons_self), ok_bind hnext]
      refine ih (by simpa using hfuel) ?_
      intro later hlater
      rw [List.mem_cons, not_or]
      refine ⟨?_, hseen later (List.mem_cons_of_mem _ hlater)⟩
      rintro rfl
      exact hnew hlater

/-- The end of a chain is found if there is one. -/
theorem chainEnd_eq_node_iff (hr : r.document.WellLinked) :
    r.chainEnd n = .ok (.node b) ↔ ∃ pointers, Leads r n pointers b := by
  constructor
  · intro h
    exact exists_leads_of_chase h
  · rintro ⟨pointers, h⟩
    have hlength := h.length_le hr
    exact h.chase (by omega) fun pointer _ => List.not_mem_nil

theorem objectAt_eq_some_iff (hr : r.document.WellLinked) :
    r.objectAt n = .ok (some b) ↔ (∃ pointers, Leads r n pointers b) ∧ b.isObject = .ok true := by
  constructor
  · intro h
    obtain ⟨hend, hobject⟩ := objectAt_eq_some h
    exact ⟨(chainEnd_eq_node_iff hr).mp hend, hobject⟩
  · rintro ⟨hleads, hobject⟩
    have hderef : r.derefIfAny n = .ok (some b) :=
      bind_eq_ok.mpr ⟨_, (chainEnd_eq_node_iff hr).mpr hleads, rfl⟩
    exact bind_eq_ok.mpr ⟨some b, hderef, bind_eq_ok.mpr ⟨true, hobject, rfl⟩⟩

/-! ## Walks along references -/

section Walks

variable {L : Node → Node → Prop} {schema : Node}

/-- A step of a walk: from a reference to its target, from any other object to something else. -/
inductive Along (r : Resolver) (L : Node → Node → Prop) : Node → Node → Prop where
  | target {n next : Node} {pointer : String} (hpointer : n.pointer? = .ok (some pointer))
      (hnext : r.locate pointer = .ok (some next)) : Along r L n next
  | onward {n next : Node} (hplain : n.pointer? = .ok none) (hobject : n.isObject = .ok true)
      (h : L n next) : Along r L n next

/-- A walk from a schema leads to an object that is no reference. -/
structure Reaches (r : Resolver) (L : Node → Node → Prop) (schema b : Node) : Prop where
  steps : Relation.ReflTransGen (Along r L) schema b
  plain : b.pointer? = .ok none
  object : b.isObject = .ok true

/-- The objects that a walk from a schema meets at the ends of chains of references. -/
inductive Met (r : Resolver) (L : Node → Node → Prop) (schema : Node) : Node → Prop where
  | self {b : Node} (h : r.objectAt schema = .ok (some b)) : Met r L schema b
  | onward {b n c : Node} (hb : Met r L schema b) (h : L b n)
      (hc : r.objectAt n = .ok (some c)) : Met r L schema c

theorem Leads.along (h : Leads r n pointers b) : Relation.ReflTransGen (Along r L) n b := by
  induction h with
  | here _ => exact .refl
  | follow hpointer hnext _ ih => exact .head (.target hpointer hnext) ih

/-- What is met behind a reference is met from it. -/
theorem Met.of_target (hr : r.document.WellLinked) (hpointer : n.pointer? = .ok (some pointer))
    (hnext : r.locate pointer = .ok (some next)) (h : Met r L next b) : Met r L n b := by
  induction h with
  | self h =>
      obtain ⟨⟨pointers, hleads⟩, hobject⟩ := (objectAt_eq_some_iff hr).mp h
      exact .self ((objectAt_eq_some_iff hr).mpr ⟨⟨_, .follow hpointer hnext hleads⟩, hobject⟩)
  | onward _ h hc ih => exact .onward ih h hc

/-- What is met from where a walk goes on to is met from where it comes from. -/
theorem Met.of_onward (hn : r.objectAt n = .ok (some n)) (hL : L n next) (h : Met r L next b) :
    Met r L n b := by
  induction h with
  | self h => exact .onward (.self hn) hL h
  | onward _ h hc ih => exact .onward ih h hc

/-- A walk meets the objects that it reaches step by step. -/
theorem met_iff (hr : r.document.WellLinked) : Met r L schema b ↔ Reaches r L schema b := by
  constructor
  · intro h
    induction h with
    | self h =>
        obtain ⟨⟨pointers, hleads⟩, hobject⟩ := (objectAt_eq_some_iff hr).mp h
        exact ⟨hleads.along, hleads.pointer?_end, hobject⟩
    | onward _ h hc ih =>
        obtain ⟨⟨pointers, hleads⟩, hobject⟩ := (objectAt_eq_some_iff hr).mp hc
        exact ⟨(ih.steps.tail (.onward ih.plain ih.object h)).trans hleads.along,
          hleads.pointer?_end, hobject⟩
  · rintro ⟨hsteps, hplain, hobject⟩
    induction hsteps using Relation.ReflTransGen.head_induction_on with
    | refl => exact .self ((objectAt_eq_some_iff hr).mpr ⟨⟨[], .here hplain⟩, hobject⟩)
    | head hstep _ ih =>
        cases hstep with
        | target hpointer hnext => exact ih.of_target hr hpointer hnext
        | onward hplain hobject h =>
            exact ih.of_onward ((objectAt_eq_some_iff hr).mpr ⟨⟨[], .here hplain⟩, hobject⟩) h

end Walks

end Resolver

end ApiScaffold
