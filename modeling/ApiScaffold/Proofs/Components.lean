import ApiScaffold.Proofs.Responses

set_option autoImplicit false

/-! # The models of named schemas

The named schemas come first, so each that becomes a class has the entry of its name, whatever other
schemas claim names later. Entries stay as they are, and compiling a model again keeps its source and
the names and marks of its properties. So a batch has each of these schemas as one model, with the
properties of the schema (`compileWithin_components`). -/

namespace ApiScaffold.ModelCompiler

open Mapper ModelOrder

variable {c : ModelCompiler} {w v v' done : Worklist} {enums : EnumCollection}
  {named extra : List (String × Node)} {f : String × Node} {batch : ModelBatch}

/-! ## Entries -/

theorem extends_foldl_register {r : Registry} {entries : List (String × Node)}
    {g : String × Node → Entry} :
    Registry.Extends r (entries.foldl (fun r e => r.register (g e)) r) :=
  List.foldlRecOn entries _ (Registry.Extends.refl r) fun _ hr _ _ =>
    hr.trans Registry.extends_register

/-- In the beginning the entry of a named schema has its name, also when an extra one wants it. -/
theorem start_namedEntry (husual : c.mapper.names.Usual (named.map (·.1)))
    (hnodup : (named.map (·.1)).Nodup) (hfields : c.mapper.components.fields = .ok named)
    (h : c.start extra = .ok (w, enums)) (hf : f ∈ named)
    (henum : Schema.isStringEnum f.2 = .ok false) (hmodel : Schema.isModel f.2 = .ok true) :
    c.namedEntry f ∈ w.registry.entries := by
  obtain ⟨⟨registry, found⟩, hseed, h⟩ := bind_eq_ok.mp h
  cases pure_eq_ok.mp h
  obtain ⟨hseeded, hmodels⟩ := seed_entries hfields hseed
  obtain ⟨e, he, hname⟩ := Registry.exists_mem_entries (hmodels f hf henum hmodel)
  obtain ⟨f', hf', rfl⟩ := hseeded e he
  have hkey : f'.1 = f.1 := by
    have hclasses : c.mapper.names.classOf f'.1 = c.mapper.names.classOf f.1 := hname
    rwa [husual.classOf, husual.classOf, Registry.ofBase_inj] at hclasses
  obtain rfl : f' = f := List.inj_on_of_nodup_map hnodup hf' hf hkey
  exact (extends_foldl_register (g := extraEntry)).subset he

/-- Every model has the source of its entry. -/
def KeepsSources (w : Worklist) : Prop :=
  ∀ m ∈ w.compiled, ∃ e ∈ w.registry.taken, e.name = m.model.name ∧ e.source = m.model.source

theorem Takes.keepsSources {e : Entry} (ht : Takes c v e v') (h : KeepsSources v) :
    KeepsSources v' := by
  have htaken := ht.registry.1
  have hmore : ∀ {m : Compiled}, (∃ e ∈ v.registry.taken, e.name = m.model.name ∧
      e.source = m.model.source) → ∃ e ∈ v'.registry.taken, e.name = m.model.name ∧
      e.source = m.model.source := by
    rintro m ⟨e', he', hsame⟩
    exact ⟨e', htaken ▸ List.mem_append_left _ he', hsame⟩
  obtain ⟨registry, hpop, hcompile⟩ := ht
  rcases compileEntry_eq_ok hcompile with ⟨-, -, rfl⟩ | ⟨node, model, r, -, hmodel, rfl⟩
  · exact fun m hm => hmore (h m hm)
  · obtain ⟨-, hname, hsource⟩ := compileOn_steps hmodel
    intro m hm
    rcases List.mem_append.mp hm with hm | hm
    · exact hmore (h m hm)
    · obtain rfl := List.mem_singleton.mp hm
      exact ⟨e, htaken ▸ List.mem_append_right _ (List.mem_singleton_self e), hname.symm,
        hsource.symm⟩

theorem Run.keepsSources {n : Nat} (hrun : Run c w n v) (h : KeepsSources w) : KeepsSources v := by
  induction hrun with
  | start => exact h
  | step _ ht ih => exact ht.keepsSources ih

/-- A model that is there in the end has the schema and the source of the entry of its name. -/
theorem exists_compiled_of_entry (hstart : c.start extra = .ok (w, enums)) {limit : Nat}
    (hdrain : c.drain limit w = .ok done) (hend : done.registry.waiting = []) {e : Entry}
    (he : e ∈ w.registry.entries) {n : Node} (hobject : c.objectOf e = .ok (some n)) :
    ∃ m ∈ done.compiled, m.model.name = e.name ∧ m.model.source = e.source ∧ m.schema = n := by
  have hdone : Consistent c done := drain_consistent (start_consistent hstart) hdrain
  have hsourced : Sourced c done := drain_sourced (start_sourced hstart) hdrain
  obtain ⟨k, hrun⟩ := exists_run_of_drain hdrain
  have hlast : e ∈ done.registry.entries :=
    (Run.extends_of_le .start hrun (Nat.zero_le k)).subset he
  rcases hsourced.of_entry hdone hend hlast with ⟨-, hnone⟩ | ⟨m, hm, hname, hsome⟩
  · cases hobject.symm.trans hnone
  · have hsources : KeepsSources w := by
      rw [KeepsSources, (start_eq_ok hstart).2.1]
      exact fun m hm => absurd hm List.not_mem_nil
    obtain ⟨e', he', hname', hsource⟩ := hrun.keepsSources hsources m hm
    obtain rfl : e' = e := List.inj_on_of_nodup_map hdone.nodup
      (List.mem_append_left _ he') hlast (hname'.trans hname)
    exact ⟨m, hm, hname, hsource.symm, Option.some.inj (Except.ok.inj (hsome.symm.trans hobject))⟩

/-! ## Properties -/

/-- The properties of a model by their names, with whether they are required. -/
def marksOf (m : Model) : List (String × Bool) := m.properties.map fun p => (p.name, p.required)

/-- The properties that a schema and its members have, by their names, with whether they are
required. -/
def marksIn (g : Gathered) : List (String × Bool) :=
  g.properties.map fun q => (q.1, g.required.contains q.1)

theorem map_eq_map_of_forall₂ {α β γ : Type} {f : α → γ} {g : β → γ} {xs : List α} {ys : List β}
    (h : List.Forall₂ (fun x y => f x = g y) xs ys) : xs.map f = ys.map g := by
  induction h with
  | nil => rfl
  | cons hfirst _ ih => rw [List.map_cons, List.map_cons, hfirst, ih]

theorem marksOf_compileOn {m : Mapper} {r r' : Registry} {name source : String}
    {blocked : List String} {schema : Node} {model : Model}
    (h : compileOn m r name source blocked schema = .ok (model, r')) :
    ∃ gathered, Gathered.ofSchema m.resolver schema = .ok gathered ∧
      marksOf model = marksIn gathered := by
  obtain ⟨t, hrun, -⟩ := compileOn_eq_ok.mp h
  obtain ⟨gathered, properties, description, hgathered, hproperties, -, rfl⟩ :=
    yields_compileModel.mp hrun
  refine ⟨gathered, hgathered, ?_⟩
  have hall := (yields_mapM (R := fun _ _ : MapperState => True) (fun _ => trivial)
    (fun _ _ _ _ _ => trivial) (fun _ _ _ _ _ _ => trivial) hproperties).2
  refine (map_eq_map_of_forall₂ (hall.imp ?_)).symm
  rintro q p ⟨u, v, -, hp, -⟩
  obtain ⟨mapped, description, sample, -, rfl⟩ := yields_compileProperty hp
  rfl

theorem Recompiled.marksOf_eq {blocked : List String} {model model' : Model}
    (h : Recompiled blocked model model') : marksOf model' = marksOf model := by
  refine (map_eq_map_of_forall₂ (h.properties.imp ?_)).symm
  intro p p' hretyped
  rw [hretyped.name, hretyped.required]

/-! ## Batches -/

/-- A batch has every model compiled, with its source, and with its properties in their places. -/
theorem exists_model_of_compiled (hstart : c.start extra = .ok (w, enums)) {limit : Nat}
    (hdrain : c.drain limit w = .ok done) (hfinish : c.finish enums done = .ok batch)
    {m : Compiled} (hm : m ∈ done.compiled) :
    batch.names.count m.model.name = 1 ∧ ∃ model ∈ batch.models, model.name = m.model.name ∧
      model.source = m.model.source ∧ marksOf model = marksOf m.model := by
  obtain ⟨found, cut, harranged, hdone, -, hmodels, -⟩ :=
    exists_arranged_of_batch hstart hdrain hfinish
  obtain ⟨m', hm', hagain⟩ := harranged.cutFrom.exists_again hm
  have hmodel : m'.model ∈ batch.models := by
    rw [hmodels, harranged.mem_models_iff hdone]
    exact List.mem_map_of_mem hm'
  refine ⟨?_, m'.model, hmodel, hagain.name, hagain.source, hagain.marksOf_eq⟩
  refine List.count_eq_one_of_mem ?_ (List.mem_map.mpr ⟨m'.model, hmodel, hagain.name⟩)
  exact (built_of_finish hdone hfinish).1.nodup_iff.mpr hdone.nodup_names.of_append_left

/-- A batch has a named schema as its model: one of the usual name, with its source and the
properties that the schema gives. -/
structure HasComponent (c : ModelCompiler) (batch : ModelBatch) (f : String × Node) : Prop where
  once : batch.names.count (ModelName.ofBase f.1) = 1
  model : ∃ model ∈ batch.models, model.name = ModelName.ofBase f.1 ∧ model.source = "component" ∧
    ∃ gathered, Gathered.ofSchema c.mapper.resolver f.2 = .ok gathered ∧
      marksOf model = marksIn gathered

/-- A batch has every named schema that becomes a class, whatever extra schemas want its name,
whatever claims names on the way, and whatever cycles are cut. -/
theorem compileWithin_components {document : Document} {strict : Bool} {spec : Option String}
    (honce : document.root.keysOnce = true) (hc : ofDocument document strict spec = .ok c)
    {limit : Nat} (h : c.compileWithin limit extra = .ok batch) :
    ∃ named, c.mapper.components.fields = .ok named ∧
      ∀ f ∈ named, Schema.isModel f.2 = .ok true → Schema.isStringEnum f.2 = .ok false →
        HasComponent c batch f := by
  obtain ⟨w, enums, done, hstart, hdrain, hfinish⟩ := compileWithin_eq_ok h
  obtain ⟨⟨registry, seeded⟩, hseed, -⟩ := bind_eq_ok.mp hstart
  obtain ⟨named, -, hfields, -, -⟩ := seed_eq_ok hseed
  have hmapper := (ofDocument_eq_ok hc).1
  have husual := Mapper.usual_of_ofDocument hmapper hfields
  have hnodup := (Mapper.fields_of_ofDocument (sources_singleton honce)
    (Set.mem_singleton document) hmapper hfields).2
  refine ⟨named, hfields, fun f hf hmodel henum => ?_⟩
  have hentry : c.namedEntry f ∈ w.registry.entries :=
    start_namedEntry husual hnodup hfields hstart hf henum hmodel
  have hobject : c.objectOf (c.namedEntry f) = .ok (some f.2) :=
    bind_eq_ok.mpr ⟨some f.2, rfl, bind_eq_ok.mpr ⟨true, isObject_of_isModel hmodel, rfl⟩⟩
  have hname : (c.namedEntry f).name = ModelName.ofBase f.1 := husual.classOf f.1
  obtain ⟨m, hm, hmname, hsource, hschema⟩ :=
    exists_compiled_of_entry hstart hdrain (finish_eq_ok hfinish).1 hentry hobject
  obtain ⟨honly, model, hmem, hsame, hkept, hmarks⟩ :=
    exists_model_of_compiled hstart hdrain hfinish hm
  rw [hmname, hname] at honly hsame
  have hdone : Consistent c done := drain_consistent (start_consistent hstart) hdrain
  obtain ⟨r, r', hcompile, -⟩ := hdone.compiled m hm
  rw [hschema] at hcompile
  obtain ⟨gathered, hgathered, hfirst⟩ := marksOf_compileOn hcompile
  exact ⟨honly, model, hmem, hsame, hkept.trans hsource, gathered, hgathered,
    hmarks.trans hfirst⟩

/-- A document of two models that use each other, of which the first has an object in place that
wants the name of a third one. -/
def contested : Document where
  tag := 0
  root := .obj [("components", .obj [("schemas", .obj [
    ("User", .obj [("required", .arr [.str "team"]), ("properties", .obj [
      ("team", referenceTo "Team"),
      ("profile", .obj [("properties", .obj [("bio", .obj [("type", .str "string")])])])])]),
    ("Team", .obj [("properties", .obj [
      ("members", .obj [("type", .str "array"), ("items", referenceTo "User")])])]),
    ("UserProfile", .obj [("properties", .obj [("age", .obj [("type", .str "integer")])])])])])]
  linked := false

/-- What a model is known by: its name, its source and the marks of its properties. -/
def cardOf (m : Model) : String × String × List (String × Bool) := (m.name, m.source, marksOf m)

/-- In `contested`, with an extra schema that wants a name too, the named schemas keep theirs. -/
theorem contested_components :
    ∃ c profile batch, ofDocument contested false none = .ok c ∧
      c.mapper.components.get "UserProfile" = .ok profile ∧
      c.compileAll [("TeamDto", profile)] = .ok batch ∧
      batch.models.map cardOf = [
        ("TeamDto", "component", [("members", false)]),
        ("UserProfile2Dto", "inline", [("bio", false)]),
        ("UserDto", "component", [("team", true), ("profile", false)]),
        ("UserProfileDto", "component", [("age", false)])] ∧
      ∃ named, c.mapper.components.fields = .ok named ∧
        ∀ f ∈ named, Schema.isModel f.2 = .ok true → Schema.isStringEnum f.2 = .ok false →
          HasComponent c batch f := by
  have hrun : (do
      let c ← ofDocument contested false none
      let profile ← c.mapper.components.get "UserProfile"
      let batch ← c.compileAll [("TeamDto", profile)]
      pure (batch.models.map cardOf)).toOption = some [
        ("TeamDto", "component", [("members", false)]),
        ("UserProfile2Dto", "inline", [("bio", false)]),
        ("UserDto", "component", [("team", true), ("profile", false)]),
        ("UserProfileDto", "component", [("age", false)])] := by
    decide +kernel
  obtain ⟨c, hc, h⟩ := bind_eq_ok.mp (eq_ok_of_toOption hrun)
  obtain ⟨profile, hprofile, h⟩ := bind_eq_ok.mp h
  obtain ⟨batch, hbatch, h⟩ := bind_eq_ok.mp h
  exact ⟨c, profile, batch, hc, hprofile, hbatch, pure_eq_ok.mp h,
    compileWithin_components (by decide) hc hbatch⟩

end ApiScaffold.ModelCompiler
