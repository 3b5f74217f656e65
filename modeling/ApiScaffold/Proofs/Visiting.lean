import ApiScaffold.Proofs.ItemChains
import ApiScaffold.Proofs.Places

set_option autoImplicit false

/-! # Visiting every node once

A walk that goes on only from objects that it meets for the first time cannot go deeper than there
are objects to meet. Those that it meets stand in the document of its pointers or in that of the
schema that it starts from, below the roots of the two (`mem_placesInReach`). So when it is allowed
to go deeper than there are values, it does not matter how much deeper (`Steady`, `SteadyFrom`). -/

namespace ApiScaffold

/-! ## Objects in reach -/

section Reach

variable {D : Set Document} {r : Resolver} {schema n b : Node} {seen : List Node}

/-- What is read as an object is written as one, which may be a link. -/
theorem exists_fields_of_isObject (h : n.isObject = .ok true) :
    ∃ fields, n.value = .obj fields := by
  obtain ⟨here, hhere, h⟩ := bind_eq_ok.mp h
  by_cases hlink : Node.referenceText? n.value = none
  · obtain rfl : n = here := Except.ok.inj ((Node.settle_of_noLink hlink).symm.trans hhere)
    split at h
    · next fields hfields => exact ⟨fields, hfields⟩
    · cases pure_eq_ok.mp h
  · cases hvalue : n.value with
    | obj fields => exact ⟨fields, rfl⟩
    | _ => simp [hvalue, Node.referenceText?] at hlink

/-- What stands in a document and is no text is a part of it, or a part of a part. -/
theorem mem_nodesBelow_of_valueAt? {d : Document} {trail : List Step} {v : Json}
    (h : d.valueAt? trail = some v) (hnotext : ∀ text, v ≠ .str text) :
    ⟨d, trail, v⟩ ∈ nodesBelow d [] d.root := by
  induction trail generalizing v with
  | nil =>
      cases h
      exact self_mem_nodesBelow _ _
  | cons step trail ih =>
      obtain ⟨u, hu, hv⟩ := Option.bind_eq_some_iff.mp h
      unfold Json.at? at hv
      split at hv
      · next fields key =>
          have hpart : IsPart ⟨d, trail, .obj fields⟩ ⟨d, .key key :: trail, v⟩ :=
            .field rfl (Json.mem_of_lookup hv)
          exact part_mem_nodesBelow hpart _ _ (ih hu nofun)
      · -- the names of fields are texts
        obtain ⟨f, -, rfl⟩ := Option.map_eq_some_iff.mp hv
        exact absurd rfl (hnotext _)
      · next items i =>
          have hpart : IsPart ⟨d, trail, .arr items⟩ ⟨d, .index i :: trail, v⟩ := .item rfl hv
          exact part_mem_nodesBelow hpart _ _ (ih hu nofun)
      · obtain ⟨c, -, rfl⟩ := Option.map_eq_some_iff.mp hv
        exact absurd rfl (hnotext _)
      · cases hv

/-- The documents that a walk gets into. -/
def documentsInReach (r : Resolver) (schema : Node) : Set Document :=
  {r.document, schema.document}

theorem stands_topInReach (r : Resolver) (schema : Node) :
    Stands (documentsInReach r schema) r.document.top :=
  stands_top (Set.mem_insert _ _)

/-- Neither the document of the pointers nor that of a schema is linked. -/
def PlainInReach (r : Resolver) (schema : Node) : Prop :=
  r.document.linked = false ∧ schema.Plain

theorem PlainInReach.plain (h : PlainInReach r schema)
    (hn : Stands (documentsInReach r schema) n) : n.Plain := by
  rcases hn.document with hdocument | hdocument
  · rw [Node.Plain, hdocument]
    exact h.1
  · rw [Node.Plain, Set.mem_singleton_iff.mp hdocument]
    exact h.2

/-- The parts of the documents that a walk gets into. -/
def placesInReach (r : Resolver) (schema : Node) : List Node :=
  nodesBelow r.document [] r.document.root ++
    nodesBelow schema.document [] schema.document.root

theorem length_placesInReach (r : Resolver) (schema : Node) :
    (placesInReach r schema).length = r.document.root.size + schema.document.root.size := by
  rw [placesInReach, List.length_append, length_nodesBelow, length_nodesBelow]

theorem mem_placesInReach (hb : Stands (documentsInReach r schema) b)
    (hobject : b.isObject = .ok true) : b ∈ placesInReach r schema := by
  obtain ⟨fields, hfields⟩ := exists_fields_of_isObject hobject
  have hvalue : b.document.valueAt? b.trail = some b.value := hb.valueAt? (by simp [hfields])
  have hbelow : b ∈ nodesBelow b.document [] b.document.root :=
    mem_nodesBelow_of_valueAt? hvalue (by simp [hfields])
  rcases hb.document with hdocument | hdocument
  · rw [hdocument] at hbelow
    exact List.mem_append_left _ hbelow
  · rw [Set.mem_singleton_iff.mp hdocument] at hbelow
    exact List.mem_append_right _ hbelow

/-! ## What has been visited -/

/-- Among nodes at their places, a node is one of some others if it is at the place of one. -/
theorem any_samePlace_iff (hD : Sources D) (hseen : ∀ v ∈ seen, Stands D v) (hb : Stands D b) :
    seen.any (·.samePlace b) = true ↔ b ∈ seen := by
  rw [List.any_eq_true]
  constructor
  · rintro ⟨v, hv, hsame⟩
    exact (hseen v hv).eq_of_samePlace hD hb hsame ▸ hv
  · intro hmem
    exact ⟨b, hmem, Registry.samePlace_self b⟩

theorem contains_eq_false_of_samePlace (h : seen.any (·.samePlace b) = false) :
    seen.contains b = false := by
  rw [← Bool.not_eq_true, List.contains_iff_mem]
  intro hmem
  exact List.any_eq_false.mp h b hmem (Registry.samePlace_self b)

/-- How many nodes are left to visit. -/
def leftToVisit (r : Resolver) (schema : Node) (seen : List Node) : Nat :=
  (unfollowed (placesInReach r schema) seen).length

theorem leftToVisit_le (r : Resolver) (schema : Node) (seen : List Node) :
    leftToVisit r schema seen ≤ r.document.root.size + schema.document.root.size := by
  rw [← length_placesInReach]
  exact length_unfollowed_le _ _

/-- To visit an object for the first time leaves fewer nodes to visit. -/
theorem leftToVisit_cons_lt (hb : Stands (documentsInReach r schema) b)
    (hobject : b.isObject = .ok true) (hnew : seen.any (·.samePlace b) = false) :
    leftToVisit r schema (b :: seen) < leftToVisit r schema seen :=
  length_unfollowed_cons_lt (mem_placesInReach hb hobject) (contains_eq_false_of_samePlace hnew)

end Reach

/-! ## Work whose depth does not matter -/

section Steadiness

variable {α β : Type} {ends : Prop} {Q : α → Prop} {R : β → Prop}

/-- Two pieces of work come to the same end, with a value of some kind if with one. They do come to
an end if something else is the case. -/
structure Steady (ends : Prop) (Q : α → Prop) (e e' : Except Fault α) : Prop where
  same : e' = e
  kept : ∀ a, e = .ok a → Q a
  concludes : ends → Concludes e

theorem steady_pure {a : α} (ha : Q a) : Steady ends Q (pure a) (pure a) where
  same := rfl
  kept _ h := pure_eq_ok.mp h ▸ ha
  concludes _ := concludes_pure a

theorem Steady.bind {e e' : Except Fault α} {f g : α → Except Fault β} (he : Steady ends Q e e')
    (hf : ∀ a, Q a → Steady ends R (f a) (g a)) : Steady ends R (e >>= f) (e' >>= g) := by
  obtain ⟨rfl, hkept, hconcludes⟩ := he
  cases e' with
  | error fault =>
      refine ⟨rfl, ?_, ?_⟩
      · intro b hb
        cases hb
      · intro hends heq
        exact hconcludes hends (by cases heq; rfl)
  | ok a => exact hf a (hkept a rfl)

/-- The same steps first, and then work whose depth does not matter. -/
theorem steady_bind {e : Except Fault α} {f g : α → Except Fault β} (he : ends → Concludes e)
    (hf : ∀ a, e = .ok a → Steady ends R (f a) (g a)) : Steady ends R (e >>= f) (e >>= g) :=
  Steady.bind ⟨rfl, fun _ h => h, he⟩ hf

theorem steady_foldlM {f g : β → α → Except Fault β} {xs : List α}
    (h : ∀ b, R b → ∀ x ∈ xs, Steady ends R (f b x) (g b x)) {b : β} (hb : R b) :
    Steady ends R (xs.foldlM f b) (xs.foldlM g b) := by
  induction xs generalizing b with
  | nil => exact steady_pure hb
  | cons x xs ih =>
      rw [List.foldlM_cons, List.foldlM_cons]
      refine (h b hb x List.mem_cons_self).bind fun b' hb' => ?_
      exact ih (fun b hb x hx => h b hb x (List.mem_cons_of_mem _ hx)) hb'

end Steadiness

section SteadyStates

variable {α β σ : Type} {ends : Prop} {Q : σ → Prop} {s : σ}

/-- From a state, two steps come to the same end, in a state of some kind. They do come to an end if
something else is the case. -/
structure SteadyFrom (ends : Prop) (Q : σ → Prop) (x y : ExceptT Fault (StateM σ) α) (s : σ) :
    Prop where
  same : y.run.run s = x.run.run s
  kept : Q (x.run.run s).2
  concludes : ends → Concludes (x.run.run s).1

theorem steadyFrom_pure (hs : Q s) (a : α) : SteadyFrom ends Q (pure a) (pure a) s where
  same := rfl
  kept := hs
  concludes _ := concludes_ok a

theorem SteadyFrom.bind {x y : ExceptT Fault (StateM σ) α} {f g : α → ExceptT Fault (StateM σ) β}
    (hx : SteadyFrom ends Q x y s) (hf : ∀ a t, Q t → SteadyFrom ends Q (f a) (g a) t) :
    SteadyFrom ends Q (x >>= f) (y >>= g) s := by
  obtain ⟨hsame, hkept, hconcludes⟩ := hx
  rcases hrun : x.run.run s with ⟨outcome, t⟩
  rw [hrun] at hsame hkept hconcludes
  cases outcome with
  | error fault =>
      have hleft : (x >>= f).run.run s = (.error fault, t) := fails_bind.mpr (Or.inl hrun)
      have hright : (y >>= g).run.run s = (.error fault, t) := fails_bind.mpr (Or.inl hsame)
      refine ⟨hright.trans hleft.symm, ?_, ?_⟩
      · rw [hleft]
        exact hkept
      · rw [hleft]
        intro hends heq
        exact hconcludes hends (by cases heq; rfl)
  | ok a =>
      obtain ⟨hlater, hend, hconcludes⟩ := hf a t hkept
      rw [← Yields.run_bind hrun f] at hlater hend hconcludes
      rw [← Yields.run_bind hsame g] at hlater
      exact ⟨hlater, hend, hconcludes⟩

theorem SteadyFrom.mono {x y : ExceptT Fault (StateM σ) α} {R : σ → Prop}
    (h : SteadyFrom ends Q x y s) (hQ : ∀ s, Q s → R s) : SteadyFrom ends R x y s :=
  ⟨h.same, hQ _ h.kept, h.concludes⟩

/-- The same look at something first, and then steps whose depth does not matter. -/
theorem steadyFrom_lift_bind {e : Except Fault α} {f g : α → ExceptT Fault (StateM σ) β}
    (he : ends → Concludes e) (hs : Q s) (hf : ∀ a, e = .ok a → SteadyFrom ends Q (f a) (g a) s) :
    SteadyFrom ends Q (liftM e >>= f) (liftM e >>= g) s := by
  cases e with
  | error fault =>
      refine ⟨rfl, hs, ?_⟩
      intro hends heq
      exact he hends (by cases heq; rfl)
  | ok a =>
      obtain ⟨hsame, hkept, hconcludes⟩ := hf a rfl
      exact ⟨hsame, hkept, hconcludes⟩

theorem steadyFrom_get_bind {f g : σ → ExceptT Fault (StateM σ) β}
    (h : SteadyFrom ends Q (f s) (g s) s) : SteadyFrom ends Q (get >>= f) (get >>= g) s :=
  ⟨h.same, h.kept, h.concludes⟩

theorem steadyFrom_modify_bind {f : σ → σ} {g g' : PUnit → ExceptT Fault (StateM σ) β}
    (h : SteadyFrom ends Q (g ⟨⟩) (g' ⟨⟩) (f s)) :
    SteadyFrom ends Q (modify f >>= g) (modify f >>= g') s :=
  ⟨h.same, h.kept, h.concludes⟩

theorem steadyFrom_forM {f g : α → ExceptT Fault (StateM σ) PUnit} {xs : List α}
    (h : ∀ x ∈ xs, ∀ s, Q s → SteadyFrom ends Q (f x) (g x) s) (hs : Q s) :
    SteadyFrom ends Q (xs.forM f) (xs.forM g) s := by
  induction xs generalizing s with
  | nil => exact steadyFrom_pure hs _
  | cons x xs ih =>
      show SteadyFrom ends Q (f x >>= fun _ => xs.forM f) (g x >>= fun _ => xs.forM g) s
      refine (h x List.mem_cons_self s hs).bind fun _ t ht => ?_
      exact ih (fun x hx => h x (List.mem_cons_of_mem _ hx)) ht

end SteadyStates

end ApiScaffold
