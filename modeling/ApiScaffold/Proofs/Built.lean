import ApiScaffold.Proofs.Batch
import ApiScaffold.Proofs.Typed

set_option autoImplicit false

/-! # What models are built from

Every model that is needed is registered with a schema, or with the place where one should be. The
models of a batch are those whose schema is an object: each is built from it, with some models
blocked (`Built`). The others were left out. A strict compiler stops where the first one would be. -/

namespace ApiScaffold.ModelCompiler

open Mapper ModelOrder

variable {c : ModelCompiler} {w w' done : Worklist}

/-! ## From entries to models -/

/-- Models compiled and models left out were registered, the former with the object that they were
compiled from, the latter with none. -/
structure Sourced (c : ModelCompiler) (w : Worklist) : Prop where
  compiled : ∀ m ∈ w.compiled, ∃ e ∈ w.registry.taken, e.name = m.model.name ∧
    c.objectOf e = .ok (some m.schema)
  skipped : ∀ name ∈ w.skipped, ∃ e ∈ w.registry.taken, e.name = name ∧ c.objectOf e = .ok none

theorem compileEntry_sourced {e : Entry} {next : Registry} (h : Sourced c w)
    (hpop : w.registry.pop? = some (e, next))
    (hrun : c.compileEntry { w with registry := next } e = .ok w') : Sourced c w' := by
  have htaken : next.taken = w.registry.taken ++ [e] := Registry.taken_pop? hpop
  have hmore : ∀ {e'}, e' ∈ w.registry.taken → e' ∈ next.taken := by
    intro e' he'
    rw [htaken]
    exact List.mem_append_left _ he'
  have hlast : e ∈ next.taken := by
    rw [htaken]
    exact List.mem_append_right _ (List.mem_singleton_self e)
  rcases compileEntry_eq_ok hrun with ⟨hnone, -, rfl⟩ | ⟨node, model, registry, hnode, hmodel, rfl⟩
  · refine ⟨?_, ?_⟩
    · intro m hm
      obtain ⟨e', he', hname, hobject⟩ := h.compiled m hm
      exact ⟨e', hmore he', hname, hobject⟩
    · intro name hname
      rcases List.mem_append.mp hname with hname | hname
      · obtain ⟨e', he', heq, hobject⟩ := h.skipped name hname
        exact ⟨e', hmore he', heq, hobject⟩
      · exact ⟨e, hlast, (List.mem_singleton.mp hname).symm, hnone⟩
  · obtain ⟨hsteps, hname, -⟩ := compileOn_steps hmodel
    have hsame : registry.taken = next.taken := hsteps.taken
    refine ⟨?_, ?_⟩
    · intro m hm
      rw [hsame]
      rcases List.mem_append.mp hm with hm | hm
      · obtain ⟨e', he', heq, hobject⟩ := h.compiled m hm
        exact ⟨e', hmore he', heq, hobject⟩
      · obtain rfl := List.mem_singleton.mp hm
        exact ⟨e, hlast, hname.symm, hnode⟩
    · intro name hname
      rw [hsame]
      obtain ⟨e', he', heq, hobject⟩ := h.skipped name hname
      exact ⟨e', hmore he', heq, hobject⟩

theorem drain_sourced {limit : Nat} (h : Sourced c w) (hrun : c.drain limit w = .ok w') :
    Sourced c w' := by
  induction limit generalizing w with
  | zero =>
      cases hrun
      exact h
  | succ limit ih =>
      rw [drain] at hrun
      split at hrun
      · cases hrun
        exact h
      · next e next hpop =>
          obtain ⟨v, hentry, hrest⟩ := bind_eq_ok.mp hrun
          exact ih (compileEntry_sourced h hpop hentry) hrest

theorem start_sourced {extra : List (String × Node)} {enums : EnumCollection}
    (h : c.start extra = .ok (w, enums)) : Sourced c w := by
  obtain ⟨-, hcompiled, hskipped⟩ := start_eq_ok h
  refine ⟨?_, ?_⟩
  · rw [hcompiled]
    simp
  · rw [hskipped]
    simp

/-- When no model is waiting, every model that was registered is compiled or left out. -/
theorem Sourced.of_entry (h : Sourced c done) (hdone : Consistent c done)
    (hend : done.registry.waiting = []) {e : Entry} (he : e ∈ done.registry.entries) :
    (e.name ∈ done.skipped ∧ c.objectOf e = .ok none) ∨
      ∃ m ∈ done.compiled, m.model.name = e.name ∧ c.objectOf e = .ok (some m.schema) := by
  have htaken : done.registry.entries = done.registry.taken := by
    simp [Registry.entries, hend]
  have hone : ∀ e' ∈ done.registry.taken, e'.name = e.name → e' = e := by
    intro e' he' hname
    rw [← htaken] at he'
    exact List.inj_on_of_nodup_map hdone.nodup he' he hname
  have hname : e.name ∈ compiledNames done.compiled ++ done.skipped := by
    refine hdone.done.subset (List.mem_map_of_mem ?_)
    rw [← htaken]
    exact he
  rcases List.mem_append.mp hname with hname | hname
  · right
    obtain ⟨m, hm, heq⟩ := List.mem_map.mp hname
    obtain ⟨e', he', heq', hobject⟩ := h.compiled m hm
    obtain rfl := hone e' he' (heq'.trans heq)
    exact ⟨m, hm, heq, hobject⟩
  · left
    obtain ⟨e', he', heq, hobject⟩ := h.skipped e.name hname
    obtain rfl := hone e' he' heq
    exact ⟨hname, hobject⟩

/-! ## From schemas to models -/

/-- A model is what its schema gives with some models blocked. -/
def Built (c : ModelCompiler) (m : Compiled) : Prop :=
  ∃ blocked r r', compileOn c.mapper r m.model.name m.model.source blocked m.schema =
    .ok (m.model, r')

theorem FirstCompiled.built {r : Registry} {m : Compiled} (h : FirstCompiled c r m) :
    Built c m := by
  obtain ⟨r₀, r₁, hcompile, -⟩ := h
  exact ⟨[], r₀, r₁, hcompile⟩

theorem compileOn_name {m : Mapper} {r r' : Registry} {name source : String}
    {blocked : List String} {schema : Node} {model : Model}
    (h : compileOn m r name source blocked schema = .ok (model, r')) :
    model.name = name ∧ model.source = source := by
  obtain ⟨t, hrun, -⟩ := compileOn_eq_ok.mp h
  obtain ⟨gathered, properties, description, -, -, -, rfl⟩ := yields_compileModel.mp hrun
  exact ⟨rfl, rfl⟩

/-- Models compiled again: of different names, each built from the schema of its name. -/
structure Anew (c : ModelCompiler) (compiled again : List Compiled) : Prop where
  names : compiledNames again = compiledNames compiled
  built : ∀ m ∈ again, Built c m
  schema : ∀ m ∈ again, ∃ m' ∈ compiled, m'.model.name = m.model.name ∧ m'.schema = m.schema

theorem Anew.refl {compiled : List Compiled} (h : ∀ m ∈ compiled, Built c m) :
    Anew c compiled compiled :=
  ⟨rfl, h, fun m hm => ⟨m, hm, rfl, rfl⟩⟩

theorem Anew.recompile {compiled : List Compiled} {state state' : Batching} {blocked : Blocked}
    {name : String} (hnodup : (compiledNames compiled).Nodup) (h : Anew c compiled state.1)
    (hrun : c.recompile blocked state name = .ok state') : Anew c compiled state'.1 := by
  unfold ModelCompiler.recompile at hrun
  split at hrun
  · cases pure_eq_ok.mp hrun
    exact h
  · next old hfind =>
      obtain ⟨⟨model, registry⟩, hcompile, hrun⟩ := bind_eq_ok.mp hrun
      cases pure_eq_ok.mp hrun
      obtain ⟨hname, hsource⟩ := compileOn_name hcompile
      have hold : old ∈ state.1 := List.mem_of_find?_eq_some hfind
      have holdName : old.model.name = name := by simpa using List.find?_some hfind
      -- only the model found has the name, so its schema is the one that was compiled
      have hone : ∀ m ∈ state.1, m.model.name = name → m = old := by
        intro m hm hmname
        have hnames : (compiledNames state.1).Nodup := by
          rw [h.names]
          exact hnodup
        exact List.inj_on_of_nodup_map hnames hm hold (hmname.trans holdName.symm)
      refine ⟨?_, ?_, ?_⟩
      · rw [← h.names, compiledNames, compiledNames, List.map_map]
        refine List.map_congr_left fun m hm => ?_
        by_cases hm' : m.model.name = name
        · simp [hm', hname]
        · simp [hm']
      · intro m' hm'
        obtain ⟨m, hm, rfl⟩ := List.mem_map.mp hm'
        by_cases heq : m.model.name = name
        · obtain rfl := hone m hm heq
          rw [if_pos (by simpa using heq)]
          refine ⟨blockedFor blocked name, state.2, registry, ?_⟩
          change compileOn c.mapper state.2 model.name model.source _ m.schema = _
          rw [hname, hsource]
          exact hcompile
        · rw [if_neg (by simpa using heq)]
          exact h.built m hm
      · intro m' hm'
        obtain ⟨m, hm, rfl⟩ := List.mem_map.mp hm'
        obtain ⟨first, hfirst, hfirstName, hschema⟩ := h.schema m hm
        refine ⟨first, hfirst, ?_, ?_⟩
        · by_cases heq : m.model.name = name
          · rw [if_pos (by simpa using heq), hfirstName, heq]
            exact hname.symm
          · rw [if_neg (by simpa using heq), hfirstName]
        · rw [hschema]
          split
          · rfl
          · rfl

theorem Anew.foldlM {compiled : List Compiled} {state state' : Batching} {blocked : Blocked}
    {names : List String} (hnodup : (compiledNames compiled).Nodup) (h : Anew c compiled state.1)
    (hrun : names.foldlM (c.recompile blocked) state = .ok state') :
    Anew c compiled state'.1 :=
  foldlM_keeps (P := fun s : Batching => Anew c compiled s.1)
    (fun _ _ _ _ hs hstep => hs.recompile hnodup hstep) h hrun

/-- The models arranged are models compiled again. -/
theorem Anew.breakCycles {compiled : List Compiled} (hnodup : (compiledNames compiled).Nodup)
    {fuel : Nat} {blocked : Blocked} {state : Batching} {models : List Model}
    (h : Anew c compiled state.1) (hrun : c.breakCycles fuel blocked state = .ok models) :
    ∃ again : List Compiled, Anew c compiled again ∧ ∀ m, m ∈ models ↔ m ∈ modelsOf again := by
  induction fuel generalizing blocked state with
  | zero => cases hrun
  | succ fuel ih =>
      rw [ModelCompiler.breakCycles] at hrun
      split at hrun
      · cases pure_eq_ok.mp hrun
        refine ⟨state.1, h, fun m => mem_models_ofModels ?_⟩
        rw [List.map_map]
        change (compiledNames state.1).Nodup
        rw [h.names]
        exact hnodup
      · obtain ⟨cut, hcut, hrun⟩ := bind_eq_ok.mp hrun
        exact ih (h.foldlM hnodup hcut) hrun

/-- The models of a batch are those compiled, each built from the same schema, perhaps with other
models blocked. -/
theorem built_of_finish {enums : EnumCollection} {batch : ModelBatch} (hdone : Consistent c done)
    (hfinish : c.finish enums done = .ok batch) :
    batch.names.Perm (compiledNames done.compiled) ∧
      (∀ model ∈ batch.models, ∃ m ∈ done.compiled, m.model.name = model.name ∧
        Built c ⟨model, m.schema⟩) ∧
      ∀ m ∈ done.compiled, ∃ model ∈ batch.models, model.name = m.model.name ∧
        Built c ⟨model, m.schema⟩ := by
  obtain ⟨-, harrange, -⟩ := finish_eq_ok hfinish
  obtain ⟨found, cut, h⟩ := exists_arranged hdone
  have hmodels := h.arrange_eq
  rw [harrange, Except.ok.injEq] at hmodels
  have hnames : batch.names.Perm (compiledNames done.compiled) := by
    rw [ModelBatch.names, hmodels]
    exact h.names_perm hdone
  have hnodup := hdone.nodup_names.of_append_left
  obtain ⟨present, hpresent, hrest⟩ := bind_eq_ok.mp harrange
  have hfirst : Anew c done.compiled (done.compiled, done.registry).1 :=
    Anew.refl fun m hm => (hdone.compiled m hm).built
  obtain ⟨again, hagain, hiff⟩ := Anew.breakCycles hnodup (hfirst.foldlM hnodup hpresent) hrest
  have hbuilt : ∀ model ∈ batch.models, ∃ m ∈ done.compiled, m.model.name = model.name ∧
      Built c ⟨model, m.schema⟩ := by
    intro model hmodel
    obtain ⟨m', hm', rfl⟩ := List.mem_map.mp ((hiff model).mp hmodel)
    obtain ⟨m, hm, hname, hschema⟩ := hagain.schema m' hm'
    exact ⟨m, hm, hname, hschema ▸ hagain.built m' hm'⟩
  refine ⟨hnames, hbuilt, ?_⟩
  intro m hm
  obtain ⟨model, hmodel, hname⟩ :=
    List.mem_map.mp (hnames.symm.subset (List.mem_map_of_mem hm :
      m.model.name ∈ compiledNames done.compiled))
  obtain ⟨m', hm', hname', hmade⟩ := hbuilt model hmodel
  obtain rfl : m' = m := hdone.eq_of_name hm' hm (hname'.trans hname)
  exact ⟨model, hmodel, hname, hmade⟩

/-- Every model that a model of a batch uses is in the batch. -/
theorem mem_names_of_used {enums : EnumCollection} {batch : ModelBatch} (hdone : Consistent c done)
    (hfinish : c.finish enums done = .ok batch) {model : Model} (hmodel : model ∈ batch.models)
    {d : String} (hd : d ∈ model.dependsOn) : d ∈ batch.names := by
  obtain ⟨hend, harrange, -⟩ := finish_eq_ok hfinish
  obtain ⟨found, cut, h⟩ := exists_arranged hdone
  have hmodels := h.arrange_eq
  rw [harrange, Except.ok.injEq] at hmodels
  rw [hmodels] at hmodel
  rw [ModelBatch.names, hmodels]
  exact (h.earlier hdone hend ⟨model, hmodel, rfl, hd⟩).mem

/-! ## Properties -/

theorem yields_compileProperty {m : Mapper} {ctx : MappingContext} {required : Bool}
    {schema : Node} {s t : MapperState} {p : Property}
    (h : Yields (compileProperty m ctx required schema) s p t) :
    ∃ mapped description sample, Yields (m.mapProperty schema ctx) s mapped t ∧
      p = propertyOf ctx.property required mapped description sample := by
  obtain ⟨mapped, u, hmapped, h⟩ := yields_bind.mp h
  obtain ⟨documented, -, h⟩ := yields_lift_bind.mp h
  dsimp only at h
  split at h
  · obtain ⟨description, -, h⟩ := yields_lift_bind.mp h
    obtain ⟨sample, -, h⟩ := yields_lift_bind.mp h
    obtain ⟨rfl, rfl⟩ := yields_pure.mp h
    exact ⟨mapped, description, sample, hmapped, rfl⟩
  · obtain ⟨description, v, hdescription, h⟩ := yields_bind.mp h
    obtain ⟨sample, v', hsample, h⟩ := yields_bind.mp h
    obtain ⟨rfl, rfl⟩ := yields_pure.mp hdescription
    obtain ⟨rfl, rfl⟩ := yields_pure.mp hsample
    obtain ⟨rfl, rfl⟩ := yields_pure.mp h
    exact ⟨mapped, none, .null, hmapped, rfl⟩

/-- A property of a model has the type of the schema that the property has, and the model uses what
the type was made with. -/
def MadeFrom (m : Mapper) (blocked : List String) (model : Model) (q : String × Node)
    (p : Property) : Prop :=
  ∃ required mapped description sample s t,
    Yields (m.mapProperty q.2
      { model := model.name, base := ModelName.base model.name, property := q.1, blocked })
      s mapped t ∧
    t.dependencies ⊆ model.dependsOn ∧ p = propertyOf q.1 required mapped description sample

theorem compileOn_properties {m : Mapper} {r r' : Registry} {name source : String}
    {blocked : List String} {schema : Node} {model : Model}
    (h : compileOn m r name source blocked schema = .ok (model, r')) :
    ∃ gathered, Gathered.ofSchema m.resolver schema = .ok gathered ∧
      List.Forall₂ (MadeFrom m blocked model) gathered.properties model.properties := by
  obtain ⟨t, hrun, -⟩ := compileOn_eq_ok.mp h
  obtain ⟨gathered, properties, description, hgathered, hproperties, -, rfl⟩ :=
    yields_compileModel.mp hrun
  refine ⟨gathered, hgathered, ?_⟩
  have hgrows : ∀ q ∈ gathered.properties, ∀ (s : MapperState) p (t : MapperState),
      Yields (compileProperty m
        { model := name, base := ModelName.base name, property := q.1, blocked }
        (gathered.required.contains q.1) q.2) s p t → s.dependencies ⊆ t.dependencies := by
    intro q _ s p t h
    obtain ⟨mapped, -, -, hmapped, -⟩ := yields_compileProperty h
    exact (mapProperty_sound hmapped).grows
  have hall := (yields_mapM (R := fun s t : MapperState => s.dependencies ⊆ t.dependencies)
    (fun _ => List.Subset.refl _) (fun _ _ _ => List.Subset.trans) hgrows hproperties).2
  refine hall.imp ?_
  rintro q p ⟨u, v, -, hp, hv⟩
  obtain ⟨mapped, description, sample, hmapped, rfl⟩ := yields_compileProperty hp
  exact ⟨_, mapped, description, sample, u, v, hmapped, hv, rfl⟩

/-- The properties of a model follow those of its schema. -/
theorem Built.properties {m : Compiled} (h : Built c m) :
    ∃ gathered blocked, Gathered.ofSchema c.mapper.resolver m.schema = .ok gathered ∧
      List.Forall₂ (MadeFrom c.mapper blocked m.model) gathered.properties m.model.properties := by
  obtain ⟨blocked, r, r', hcompile⟩ := h
  obtain ⟨gathered, hgathered, hall⟩ := compileOn_properties hcompile
  exact ⟨gathered, blocked, hgathered, hall⟩

end ApiScaffold.ModelCompiler
