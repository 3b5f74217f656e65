import ApiScaffold.Proofs.Looking
import ApiScaffold.Proofs.Worklist

set_option autoImplicit false

/-! # Runs of the worklist

Draining a worklist takes models one after the other, so what it does is a run: a sequence of models
taken, which the first worklist determines. Along a run models only become more, and each is taken
once (`Run.le_of_takes`). Looking leads from the schemas that a compiler is offered to all schemas
that are ever registered (`Run.schemasIn`). -/

namespace ApiScaffold.ModelCompiler

open Mapper

variable {c : ModelCompiler} {w v v' : Worklist}

/-! ## Runs -/

/-- Taking the model that has waited longest, and compiling it or leaving it out. -/
def Takes (c : ModelCompiler) (v : Worklist) (e : Entry) (v' : Worklist) : Prop :=
  ∃ registry, v.registry.pop? = some (e, registry) ∧
    c.compileEntry { v with registry } e = .ok v'

/-- The worklists that taking some number of models leads to. -/
inductive Run (c : ModelCompiler) (w : Worklist) : Nat → Worklist → Prop where
  | start : Run c w 0 w
  | step {n : Nat} {v v' : Worklist} {e : Entry} (h : Run c w n v) (ht : Takes c v e v') :
      Run c w (n + 1) v'

theorem pop?_eq_none_iff {r : Registry} : r.pop? = none ↔ r.waiting = [] := by
  unfold Registry.pop?
  split
  · next h => simp [h]
  · next h => simp [h]

theorem drain_of_empty (h : w.registry.waiting = []) (n : Nat) : c.drain n w = .ok w := by
  cases n with
  | zero => rfl
  | succ n => rw [drain, pop?_eq_none_iff.mpr h]

theorem drain_of_takes {e : Entry} (h : Takes c v e v') (n : Nat) :
    c.drain (n + 1) v = c.drain n v' := by
  obtain ⟨registry, hpop, hcompile⟩ := h
  rw [drain, hpop]
  simp only [hcompile]
  rfl

/-- Draining in two parts. -/
theorem drain_add (n k : Nat) (w : Worklist) :
    c.drain (n + k) w = c.drain n w >>= c.drain k := by
  induction n generalizing w with
  | zero => simp [drain, bind, Except.bind]
  | succ n ih =>
      rw [Nat.add_right_comm, drain, drain]
      cases hpop : w.registry.pop? with
      | none =>
          simp only [bind, Except.bind]
          rw [drain_of_empty (pop?_eq_none_iff.mp hpop)]
      | some next =>
          simp only [bind_assoc]
          refine bind_congr fun v => ih v

theorem drain_of_run {n : Nat} (h : Run c w n v) : c.drain n w = .ok v := by
  induction h with
  | start => rfl
  | step _ ht ih =>
      rw [drain_add, ih]
      exact drain_of_takes ht 0

theorem Run.unique {n : Nat} (h : Run c w n v) (h' : Run c w n v') : v = v' :=
  Except.ok.inj ((drain_of_run h).symm.trans (drain_of_run h'))

/-- Draining is a run. -/
theorem exists_run_of_drain {limit : Nat} (h : c.drain limit w = .ok v) : ∃ n, Run c w n v := by
  have hfrom : ∀ {n u}, Run c w n u → c.drain limit u = .ok v → ∃ n, Run c w n v := by
    clear h
    induction limit with
    | zero =>
        intro n u hu h
        cases h
        exact ⟨n, hu⟩
    | succ limit ih =>
        intro n u hu h
        rw [drain] at h
        split at h
        · cases h
          exact ⟨n, hu⟩
        · next e registry hpop =>
            obtain ⟨u', hcompile, h⟩ := bind_eq_ok.mp h
            exact ih (hu.step ⟨registry, hpop, hcompile⟩) h
  exact hfrom .start h

/-- A worklist in which models are waiting came from taking as many models as allowed. -/
theorem run_of_drain {n : Nat} (h : c.drain n w = .ok v) (hmore : v.registry.waiting ≠ []) :
    Run c w n v := by
  induction n generalizing v with
  | zero =>
      cases h
      exact .start
  | succ n ih =>
      rw [drain_add] at h
      obtain ⟨u, hu, h⟩ := bind_eq_ok.mp h
      rw [drain] at h
      split at h
      · next hpop =>
          cases h
          exact absurd (pop?_eq_none_iff.mp hpop) hmore
      · next e registry hpop =>
          obtain ⟨v', hcompile, h⟩ := bind_eq_ok.mp h
          cases h
          refine (ih hu ?_).step ⟨registry, hpop, hcompile⟩
          intro hempty
          rw [pop?_eq_none_iff.mpr hempty] at hpop
          cases hpop

/-! ## What a run keeps -/

theorem Takes.consistent {e : Entry} (h : Takes c v e v') (hv : Consistent c v) :
    Consistent c v' := by
  obtain ⟨registry, hpop, hcompile⟩ := h
  exact compileEntry_consistent hv hpop hcompile

/-- A model taken was the first one waiting, and everything that was registered still is. -/
theorem Takes.registry {e : Entry} (h : Takes c v e v') :
    v'.registry.taken = v.registry.taken ++ [e] ∧ e ∈ v.registry.waiting ∧
      Registry.Extends v.registry v'.registry := by
  obtain ⟨registry, hpop, hcompile⟩ := h
  have hwaiting : e ∈ v.registry.waiting := by
    unfold Registry.pop? at hpop
    split at hpop
    · cases hpop
    · next hwaiting =>
        cases hpop
        rw [hwaiting]
        exact List.mem_cons_self
  rcases compileEntry_eq_ok hcompile with ⟨-, -, rfl⟩ | ⟨node, model, r, -, hmodel, rfl⟩
  · exact ⟨Registry.taken_pop? hpop, hwaiting, Registry.extends_pop? hpop⟩
  · have hsteps := (compileOn_steps hmodel).1
    exact ⟨hsteps.taken.trans (Registry.taken_pop? hpop), hwaiting,
      (Registry.extends_pop? hpop).trans hsteps.extends⟩

theorem Takes.waiting_ne_nil {e : Entry} (h : Takes c v e v') : v.registry.waiting ≠ [] :=
  List.ne_nil_of_mem h.registry.2.1

/-- What taking a model registers. -/
theorem Takes.origin {e e' : Entry} (h : Takes c v e v') (he' : e' ∈ v'.registry.entries) :
    e' ∈ v.registry.entries ∨ e'.name ∉ v.registry.names ∧
      ∃ node, c.objectOf e = .ok (some node) ∧
        Origin c.mapper (Inside c.mapper node) v'.registry e' := by
  obtain ⟨registry, hpop, hcompile⟩ := h
  have hentries : registry.entries = v.registry.entries := Registry.entries_pop? hpop
  rcases compileEntry_eq_ok hcompile with ⟨-, -, rfl⟩ | ⟨node, model, r, hnode, hmodel, rfl⟩
  · exact Or.inl (hentries ▸ he')
  · rcases (compileOn_steps hmodel).1.origin he' with he' | ⟨hnew, horigin⟩
    · exact Or.inl (hentries ▸ he')
    · refine Or.inr ⟨?_, node, hnode, horigin⟩
      rw [Registry.names, ← hentries]
      exact hnew

theorem Run.consistent {n : Nat} (h : Run c w n v) (hw : Consistent c w) : Consistent c v := by
  induction h with
  | start => exact hw
  | step _ ht ih => exact ht.consistent ih

theorem Run.extends_of_le {n k : Nat} {u : Worklist} (hn : Run c w n v) (hk : Run c w k u)
    (hle : n ≤ k) : Registry.Extends v.registry u.registry := by
  induction hk generalizing n v with
  | start =>
      obtain rfl := Nat.le_zero.mp hle
      rw [hn.unique .start]
      exact Registry.Extends.refl _
  | step hk ht ih =>
      rcases Nat.lt_or_eq_of_le hle with hlt | rfl
      · exact (ih hn (Nat.le_of_lt_succ hlt)).trans ht.registry.2.2
      · rw [hn.unique (hk.step ht)]
        exact Registry.Extends.refl _

theorem Run.taken_grows {n k : Nat} {u : Worklist} (hn : Run c w n v) (hk : Run c w k u)
    (hle : n ≤ k) : v.registry.taken <+: u.registry.taken := by
  induction hk generalizing n v with
  | start =>
      obtain rfl := Nat.le_zero.mp hle
      obtain rfl := hn.unique .start
      exact List.prefix_rfl
  | step hk ht ih =>
      rcases Nat.lt_or_eq_of_le hle with hlt | rfl
      · rw [ht.registry.1]
        exact (ih hn (Nat.le_of_lt_succ hlt)).trans (List.prefix_append _ _)
      · obtain rfl := hn.unique (hk.step ht)
        exact List.prefix_rfl

/-- A model of one name is taken once. -/
theorem Run.le_of_takes {n k : Nat} {u u' : Worklist} {e e' : Entry} (hw : Consistent c w)
    (hn : Run c w n v) (ht : Takes c v e v') (hk : Run c w k u) (ht' : Takes c u e' u')
    (hname : e.name = e'.name) : k ≤ n := by
  by_contra hlt
  have htaken : e ∈ u.registry.taken := by
    refine ((hn.step ht).taken_grows hk (by omega)).subset ?_
    rw [ht.registry.1]
    exact List.mem_append_right _ (List.mem_singleton_self e)
  have hnodup := (hk.consistent hw).nodup
  rw [Registry.names, Registry.entries, List.map_append] at hnodup
  refine List.disjoint_of_nodup_append hnodup (List.mem_map_of_mem htaken) ?_
  rw [hname]
  exact List.mem_map_of_mem ht'.registry.2.1

/-! ## Registered schemas -/

/-- The schemas that a compiler finds without looking into others are among some nodes. -/
structure Offers (P : Node → Prop) (c : ModelCompiler) : Prop where
  closed : Closed P
  top : P c.mapper.resolver.document.top
  fields : ∀ fields, c.mapper.components.fields = .ok fields → ∀ f ∈ fields, P f.2
  get : ∀ key n, c.mapper.components.get key = .ok n → P n

/-- The schemas that are registered are among some nodes. -/
def SchemasIn (P : Node → Prop) (r : Registry) : Prop :=
  ∀ e ∈ r.entries, ∀ n, e.schema = some n → P n

section Schemas

variable {P : Node → Prop}

theorem SchemasIn.register {r : Registry} {e : Entry} (h : SchemasIn P r)
    (he : ∀ n, e.schema = some n → P n) : SchemasIn P (r.register e) := by
  intro e' he'
  rcases mem_entries_register he' with he' | ⟨rfl, -⟩
  · exact h e' he'
  · exact he

theorem seed_schemasIn {registry : Registry} {enums : EnumCollection} (h : Offers P c)
    (hseed : c.seed = .ok (registry, enums)) : SchemasIn P registry := by
  obtain ⟨fields, step, hfields, hstep, hseed⟩ := seed_eq_ok hseed
  refine foldlM_keeps (P := fun s => SchemasIn P s.1) ?_
    (fun e he => absurd he List.not_mem_nil) hseed
  intro s s' f hf hs hrun
  cases hstep s f s' hrun with
  | texts => exact hs
  | model =>
      refine hs.register fun n hn => ?_
      obtain rfl : f.2 = n := Option.some.inj hn
      exact h.fields fields hfields f hf
  | other => exact hs

theorem start_schemasIn {extra : List (String × Node)} {enums : EnumCollection} (h : Offers P c)
    (hextra : ∀ e ∈ extra, P e.2) (hstart : c.start extra = .ok (w, enums)) :
    SchemasIn P w.registry := by
  obtain ⟨⟨registry, found⟩, hseed, hrest⟩ := bind_eq_ok.mp hstart
  cases pure_eq_ok.mp hrest
  refine List.foldlRecOn extra _ (seed_schemasIn h hseed) fun r hr e he => ?_
  refine hr.register fun n hn => ?_
  dsimp only at hn
  split at hn
  · cases hn
  · rw [← Option.some.inj hn]
    exact hextra e he

theorem objectOf_in {e : Entry} {node : Node} (h : Offers P c) (he : ∀ n, e.schema = some n → P n)
    (hnode : c.objectOf e = .ok (some node)) : P node := by
  have hschema := (objectOf_eq_some hnode).1
  unfold schemaOf at hschema
  split at hschema
  · next schema heq =>
      cases hschema
      exact he node heq
  · split at hschema
    · cases hschema
    · exact h.closed.find h.top hschema
  · cases hschema

theorem Takes.schemasIn {e : Entry} (ht : Takes c v e v') (h : Offers P c)
    (hv : SchemasIn P v.registry) : SchemasIn P v'.registry := by
  intro e' he' n hn
  rcases ht.origin he' with he' | ⟨-, node, hnode, horigin⟩
  · exact hv e' he' n hn
  · have hin : P node := objectOf_in h (hv e (List.mem_append_right _ ht.registry.2.1)) hnode
    cases horigin with
    | named hnamed =>
        rcases hnamed.schema n hn with ⟨key, hget⟩ | ⟨pointer, hfind⟩
        · exact h.get key n hget
        · exact h.closed.find h.top hfind
    | target _ _ hfind _ hschema _ =>
        rw [hschema] at hn
        exact h.closed.find h.top (Option.some.inj hn ▸ hfind)
    | inPlace hinside _ hschema =>
        rw [hschema] at hn
        exact Option.some.inj hn ▸ h.closed.inside h.top hin hinside

theorem Run.schemasIn {n : Nat} (hrun : Run c w n v) (h : Offers P c)
    (hw : SchemasIn P w.registry) : SchemasIn P v.registry := by
  induction hrun with
  | start => exact hw
  | step _ ht ih => exact ht.schemasIn h ih

theorem drain_schemasIn {limit : Nat} (h : Offers P c) (hw : SchemasIn P w.registry)
    (hdrain : c.drain limit w = .ok v) : SchemasIn P v.registry := by
  obtain ⟨n, hrun⟩ := exists_run_of_drain hdrain
  exact hrun.schemasIn h hw

end Schemas

end ApiScaffold.ModelCompiler
