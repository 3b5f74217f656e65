import ApiScaffold.Proofs.Compiling

set_option autoImplicit false

/-! # What the worklist keeps

Every model that is taken is compiled or left out, and none is taken twice. A model that is used was
registered, so when none is waiting every model used has been compiled or left out. The registry
still has everything that a compiled model registered, which is what compiling it again needs. -/

namespace ApiScaffold.ModelCompiler

open Mapper

variable {c : ModelCompiler} {w w' : Worklist}

/-! ## Invariant -/

/-- The names of the models compiled. -/
def compiledNames (compiled : List Compiled) : List String := compiled.map (·.model.name)

/-- A model was compiled as its schema has it, on a registry that has grown since. -/
def FirstCompiled (c : ModelCompiler) (registry : Registry) (m : Compiled) : Prop :=
  ∃ r r', compileOn c.mapper r m.model.name m.model.source [] m.schema = .ok (m.model, r') ∧
    Registry.Extends r' registry

/-- The state of a worklist: names are registered once, models taken are compiled or left out, and
everything that a compiled model registered is there. -/
structure Consistent (c : ModelCompiler) (w : Worklist) : Prop where
  nodup : w.registry.names.Nodup
  done : (w.registry.taken.map (·.name)).Perm (compiledNames w.compiled ++ w.skipped)
  compiled : ∀ m ∈ w.compiled, FirstCompiled c w.registry m

theorem FirstCompiled.mono {r r' : Registry} {m : Compiled} (h : FirstCompiled c r m)
    (hlater : Registry.Extends r r') : FirstCompiled c r' m := by
  obtain ⟨r₀, r₁, hcompile, hext⟩ := h
  exact ⟨r₀, r₁, hcompile, hext.trans hlater⟩

/-- A compiled model uses registered models, each once, and never itself. -/
theorem FirstCompiled.uses {r : Registry} {m : Compiled} (h : FirstCompiled c r m) :
    Uses m.model.name ⟨r, m.model.dependsOn⟩ := by
  obtain ⟨r₀, r₁, hcompile, hext⟩ := h
  have huses := compileOn_uses hcompile
  exact ⟨fun d hd => hext.mem (huses.registered d hd), huses.other, huses.nodup⟩

/-- Compiling the model again on the registry with some models blocked. -/
theorem FirstCompiled.again {r : Registry} {m : Compiled} (h : FirstCompiled c r m)
    (blocked : List String) :
    ∃ model', compileOn c.mapper r m.model.name m.model.source blocked m.schema =
      .ok (model', r) ∧ Recompiled blocked m.model model' := by
  obtain ⟨r₀, r₁, hcompile, hext⟩ := h
  exact compileOn_again hcompile hext

/-! ## Taking a model -/

theorem objectOf_eq_some {e : Entry} {node : Node} (h : c.objectOf e = .ok (some node)) :
    c.schemaOf e = .ok (some node) ∧ node.isObject = .ok true := by
  obtain ⟨found, hfound, h⟩ := bind_eq_ok.mp h
  cases found with
  | none => cases pure_eq_ok.mp h
  | some n =>
      obtain ⟨isObject, hobject, h⟩ := bind_eq_ok.mp h
      cases isObject with
      | false => cases pure_eq_ok.mp h
      | true =>
          cases pure_eq_ok.mp h
          exact ⟨hfound, hobject⟩

/-- What taking the model of an entry does to the worklist. -/
theorem compileEntry_eq_ok {e : Entry} (h : c.compileEntry w e = .ok w') :
    (c.objectOf e = .ok none ∧ c.strict = false ∧
        w' = { w with skipped := w.skipped ++ [e.name] }) ∨
      ∃ node model registry, c.objectOf e = .ok (some node) ∧
        compileOn c.mapper w.registry e.name e.source [] node = .ok (model, registry) ∧
        w' = { w with registry, compiled := w.compiled ++ [{ model, schema := node }] } := by
  obtain ⟨found, hfound, h⟩ := bind_eq_ok.mp h
  cases found with
  | none =>
      left
      dsimp only at h
      split at h
      · exact absurd h throw_ne_ok
      · next hlenient => exact ⟨hfound, by simpa using hlenient, (pure_eq_ok.mp h).symm⟩
  | some node =>
      right
      obtain ⟨⟨model, registry⟩, hcompile, h⟩ := bind_eq_ok.mp h
      exact ⟨node, model, registry, hfound, hcompile, (pure_eq_ok.mp h).symm⟩

theorem compileEntry_consistent {e : Entry} {next : Registry} (h : Consistent c w)
    (hpop : w.registry.pop? = some (e, next))
    (hrun : c.compileEntry { w with registry := next } e = .ok w') : Consistent c w' := by
  have hnames : next.names = w.registry.names := by
    simp only [Registry.names, Registry.entries_pop? hpop]
  have htaken : next.taken.map (·.name) = w.registry.taken.map (·.name) ++ [e.name] := by
    rw [Registry.taken_pop? hpop, List.map_append, List.map_singleton]
  have hdone := h.done.append_right [e.name]
  rcases compileEntry_eq_ok hrun with ⟨-, -, rfl⟩ | ⟨node, model, registry, -, hcompile, rfl⟩
  · refine ⟨?_, ?_, ?_⟩
    · rw [hnames]
      exact h.nodup
    · rw [htaken]
      simpa using hdone
    · intro m hm
      exact (h.compiled m hm).mono (Registry.extends_pop? hpop)
  · obtain ⟨hsteps, hname, hsource⟩ := compileOn_steps hcompile
    refine ⟨?_, ?_, ?_⟩
    · exact hsteps.nodup (by rw [hnames]; exact h.nodup)
    · rw [hsteps.taken, htaken]
      refine hdone.trans ?_
      simp only [compiledNames, List.map_append, List.map_singleton, hname, List.append_assoc]
      exact (List.perm_append_comm).append_left _
    · intro m hm
      rcases List.mem_append.mp hm with hm | hm
      · exact (h.compiled m hm).mono ((Registry.extends_pop? hpop).trans hsteps.extends)
      · obtain rfl := List.mem_singleton.mp hm
        refine ⟨next, registry, ?_, Registry.Extends.refl _⟩
        rw [hname, hsource]
        exact hcompile

theorem drain_consistent {limit : Nat} (h : Consistent c w) (hrun : c.drain limit w = .ok w') :
    Consistent c w' := by
  induction limit generalizing w with
  | zero =>
      cases hrun
      exact h
  | succ limit ih =>
      rw [drain] at hrun
      split at hrun
      · cases hrun
        exact h
      · next e next hpop =>
          obtain ⟨v, hentry, hrest⟩ := bind_eq_ok.mp hrun
          exact ih (compileEntry_consistent h hpop hentry) hrest

/-! ## The first worklist -/

/-- A registry of which no model was taken yet. -/
structure Untouched (r : Registry) : Prop where
  taken : r.taken = []
  nodup : r.names.Nodup

theorem untouched_empty : Untouched {} := ⟨rfl, List.nodup_nil⟩

theorem Untouched.register {r : Registry} (h : Untouched r) (e : Entry) :
    Untouched (r.register e) :=
  ⟨Registry.taken_register.trans h.taken, Registry.nodup_register h.nodup⟩

/-- The model of a named schema. -/
def namedEntry (c : ModelCompiler) (f : String × Node) : Entry where
  name := c.mapper.names.classOf f.1
  schema := some f.2
  pointer := some (Pointer.toSchema f.1)

/-- What a named schema adds to what there is in the beginning: the texts that it lists, its model,
or nothing. -/
inductive SeedStep (c : ModelCompiler) (f : String × Node) (s : Registry × EnumCollection) :
    Registry × EnumCollection → Prop where
  | texts {values : List Excerpt} (hlists : Schema.isStringEnum f.2 = .ok true)
      (hvalues : EnumCollection.listed f.2 = .ok values) :
      SeedStep c f s (s.1, s.2.add (Naming.enumName f.1) values)
  | model (hno : Schema.isStringEnum f.2 = .ok false) (hmodel : Schema.isModel f.2 = .ok true) :
      SeedStep c f s (s.1.register (c.namedEntry f), s.2)
  | other (hno : Schema.isStringEnum f.2 = .ok false) (hmodel : Schema.isModel f.2 = .ok false) :
      SeedStep c f s s

/-- The beginning is made of such steps. -/
theorem seed_eq_ok {s : Registry × EnumCollection} (h : c.seed = .ok s) :
    ∃ fields, ∃ step : Registry × EnumCollection → String × Node →
        Except Fault (Registry × EnumCollection), c.mapper.components.fields = .ok fields ∧
      (∀ s f s', step s f = .ok s' → SeedStep c f s s') ∧ fields.foldlM step ({}, {}) = .ok s := by
  obtain ⟨fields, hfields, h⟩ := bind_eq_ok.mp h
  refine ⟨fields, _, hfields, ?_, h⟩
  rintro ⟨registry, enums⟩ ⟨name, schema⟩ s' hstep
  obtain ⟨isEnum, henum, hstep⟩ := bind_eq_ok.mp hstep
  cases isEnum with
  | true =>
      obtain ⟨values, hvalues, hstep⟩ := bind_eq_ok.mp hstep
      exact pure_eq_ok.mp hstep ▸ .texts henum hvalues
  | false =>
      obtain ⟨isModel, hmodel, hstep⟩ := bind_eq_ok.mp hstep
      cases isModel with
      | true => exact pure_eq_ok.mp hstep ▸ .model henum hmodel
      | false => exact pure_eq_ok.mp hstep ▸ .other henum hmodel

theorem seed_untouched {registry : Registry} {enums : EnumCollection}
    (h : c.seed = .ok (registry, enums)) : Untouched registry := by
  obtain ⟨fields, step, -, hstep, h⟩ := seed_eq_ok h
  refine foldlM_keeps (P := fun s => Untouched s.1) ?_ untouched_empty h
  intro s s' f _ hs h
  cases hstep s f s' h with
  | texts => exact hs
  | model => exact hs.register _
  | other => exact hs

theorem start_eq_ok {extra : List (String × Node)} {enums : EnumCollection}
    (h : c.start extra = .ok (w, enums)) :
    Untouched w.registry ∧ w.compiled = [] ∧ w.skipped = [] := by
  obtain ⟨⟨registry, found⟩, hseed, h⟩ := bind_eq_ok.mp h
  cases pure_eq_ok.mp h
  refine ⟨?_, rfl, rfl⟩
  exact List.foldlRecOn extra _ (seed_untouched hseed) fun r hr e _ => hr.register _

theorem start_consistent {extra : List (String × Node)} {enums : EnumCollection}
    (h : c.start extra = .ok (w, enums)) : Consistent c w := by
  obtain ⟨hfresh, hcompiled, hskipped⟩ := start_eq_ok h
  refine ⟨hfresh.nodup, ?_, ?_⟩
  · rw [hfresh.taken, hcompiled, hskipped]
    rfl
  · rw [hcompiled]
    simp

/-! ## The last worklist -/

theorem Consistent.nodup_names (h : Consistent c w) :
    (compiledNames w.compiled ++ w.skipped).Nodup := by
  refine h.done.nodup_iff.mp ?_
  have hsub : w.registry.taken.map (·.name) <+: w.registry.names :=
    (List.prefix_append w.registry.taken w.registry.waiting).map _
  exact hsub.sublist.nodup h.nodup

/-- When no model is waiting, every model that is used was compiled or left out. -/
theorem Consistent.mem_of_used (h : Consistent c w) (hend : w.registry.waiting = [])
    {m : Compiled} (hm : m ∈ w.compiled) {d : String} (hd : d ∈ m.model.dependsOn) :
    d ∈ compiledNames w.compiled ∨ d ∈ w.skipped := by
  have hnames : w.registry.names = w.registry.taken.map (·.name) := by
    simp [Registry.names, Registry.entries, hend]
  have hmem : d ∈ w.registry.names := (h.compiled m hm).uses.registered d hd
  rw [hnames] at hmem
  exact List.mem_append.mp (h.done.subset hmem)

theorem Consistent.eq_of_name (h : Consistent c w) {m m' : Compiled} (hm : m ∈ w.compiled)
    (hm' : m' ∈ w.compiled) (hname : m.model.name = m'.model.name) : m = m' :=
  List.inj_on_of_nodup_map h.nodup_names.of_append_left hm hm' hname

end ApiScaffold.ModelCompiler
