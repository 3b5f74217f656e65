import ApiScaffold.Generation.Generator
import ApiScaffold.Proofs.Claims
import ApiScaffold.Proofs.Declared

set_option autoImplicit false

/-! # Classes of responses

The compiler of models has a model of every name that a response claimed: that of a named schema, or
one that was handed on. So the model of a response in place was compiled from the schema of the
response, or from one equal to it, and responses share a class only when their schemas are equal. -/

namespace ApiScaffold

/-! ## Equal schemas -/

/-- A schema is another one, or equal to it. -/
def SameSchema (a b : Node) : Prop := a = b ∨ Alike a b

section Same

variable {D : Set Document} {a b n : Node}

theorem SameSchema.symm (hD : Sources D) (ha : Stands D a) (hb : Stands D b)
    (h : SameSchema a b) : SameSchema b a :=
  h.imp Eq.symm (Alike.symm hD ha hb)

theorem SameSchema.trans (h : SameSchema a b) (h' : SameSchema b n) : SameSchema a n := by
  rcases h with rfl | h
  · exact h'
  · rcases h' with rfl | h'
    · exact Or.inr h
    · exact Or.inr (h.trans h')

theorem SameSchema.describesObject (hD : Sources D) (ha : Stands D a) (h : SameSchema a b)
    (hobject : DescribesObject a) : DescribesObject b := by
  rcases h with rfl | h
  · exact hobject
  · exact hobject.alike hD ha h

/-- What the program takes for the same schema is the same. -/
theorem sameSchema_of_registry (hD : Sources D) (ha : Stands D a) (hb : Stands D b)
    (h : Registry.sameSchema (some a) b = .ok true) : SameSchema a b := by
  unfold Registry.sameSchema at h
  dsimp only at h
  split at h
  · cases h
  · split at h
    · next hplace => exact Or.inl (Stands.eq_of_samePlace hD ha hb hplace)
    · exact Or.inr (alike_of_equal h)

end Same

/-! ## From names to models -/

namespace ModelCompiler

variable {c : ModelCompiler} {w done : Worklist} {enums : EnumCollection}
  {named : List (String × Node)} {extra : List (String × Node)}

/-- The model of an extra schema. -/
def extraEntry (p : String × Node) : Entry where
  name := p.1
  schema := if p.2.isAbsent then none else some p.2
  source := "response"

/-- The models of named schemas: all that become classes have one, and there are no others. -/
theorem seed_entries {registry : Registry} {found : EnumCollection}
    (hfields : c.mapper.components.fields = .ok named) (h : c.seed = .ok (registry, found)) :
    (∀ e ∈ registry.entries, ∃ f ∈ named, e = c.namedEntry f) ∧
      ∀ f ∈ named, Schema.isStringEnum f.2 = .ok false → Schema.isModel f.2 = .ok true →
        c.mapper.names.classOf f.1 ∈ registry.names := by
  obtain ⟨fields, step, hfields', hstep, hfold⟩ := seed_eq_ok h
  obtain rfl : named = fields := Except.ok.inj (hfields.symm.trans hfields')
  refine ⟨?_, ?_⟩
  · refine foldlM_keeps (P := fun s : Registry × EnumCollection =>
      ∀ e ∈ s.1.entries, ∃ f ∈ named, e = c.namedEntry f) ?_
      (fun e he => absurd he List.not_mem_nil) hfold
    intro s s' f hf hs hrun e he
    cases hstep s f s' hrun with
    | texts => exact hs e he
    | model =>
        rcases Mapper.mem_entries_register he with he | ⟨rfl, -⟩
        · exact hs e he
        · exact ⟨f, hf, rfl⟩
    | other => exact hs e he
  · refine foldlM_each (Q := fun f (s : Registry × EnumCollection) =>
      Schema.isStringEnum f.2 = .ok false → Schema.isModel f.2 = .ok true →
        c.mapper.names.classOf f.1 ∈ s.1.names) ?_ ?_ hfold
    · intro s s' f _ hrun henum hmodel
      cases hstep s f s' hrun with
      | texts hlists => cases hlists.symm.trans henum
      | model => exact Registry.mem_names_register.mpr (Or.inr rfl)
      | other _ hno => cases hmodel.symm.trans hno
    · intro x s s' f _ hs hrun henum hmodel
      cases hstep s f s' hrun with
      | texts => exact hs henum hmodel
      | model => exact Registry.mem_names_register.mpr (Or.inl (hs henum hmodel))
      | other => exact hs henum hmodel

/-- The models in the beginning are those of named schemas and of extra schemas. -/
theorem start_entries (hfields : c.mapper.components.fields = .ok named)
    (h : c.start extra = .ok (w, enums)) :
    (∀ e ∈ w.registry.entries, (∃ f ∈ named, e = c.namedEntry f) ∨ ∃ p ∈ extra, e = extraEntry p) ∧
      (∀ p ∈ extra, p.1 ∈ w.registry.names) ∧
      ∀ f ∈ named, Schema.isStringEnum f.2 = .ok false → Schema.isModel f.2 = .ok true →
        c.mapper.names.classOf f.1 ∈ w.registry.names := by
  obtain ⟨⟨registry, found⟩, hseed, h⟩ := bind_eq_ok.mp h
  cases pure_eq_ok.mp h
  obtain ⟨hseeded, hmodels⟩ := seed_entries hfields hseed
  refine ⟨fun e he => ?_, fun p hp => ?_, fun f hf henum hmodel => ?_⟩
  · rcases Registry.mem_entries_foldl_register (g := extraEntry) he with he | hextra
    · exact Or.inl (hseeded e he)
    · exact Or.inr hextra
  · exact (Registry.mem_names_foldl_register (g := extraEntry)).mpr (Or.inr ⟨p, hp, rfl⟩)
  · exact (Registry.mem_names_foldl_register (g := extraEntry)).mpr
      (Or.inl (hmodels f hf henum hmodel))

/-- In the beginning there is a model of a name with a schema. -/
def Begins (w : Worklist) (name : String) (schema : Node) : Prop :=
  ∃ e ∈ w.registry.entries, e.name = name ∧ e.schema = some schema

/-- The model of a named schema has this schema, when no extra model has its name. -/
theorem begins_named (husual : c.mapper.names.Usual (named.map (·.1)))
    (hnodup : (named.map (·.1)).Nodup) (hfields : c.mapper.components.fields = .ok named)
    (h : c.start extra = .ok (w, enums)) {f : String × Node} (hf : f ∈ named)
    (henum : Schema.isStringEnum f.2 = .ok false) (hmodel : Schema.isModel f.2 = .ok true)
    (hnew : c.mapper.names.classOf f.1 ∉ extra.map (·.1)) :
    Begins w (c.mapper.names.classOf f.1) f.2 := by
  obtain ⟨hentries, -, hnamed⟩ := start_entries hfields h
  obtain ⟨e, he, hname⟩ := Registry.exists_mem_entries (hnamed f hf henum hmodel)
  refine ⟨e, he, hname, ?_⟩
  rcases hentries e he with ⟨f', hf', rfl⟩ | ⟨p, hp, rfl⟩
  · have hkey : f'.1 = f.1 := by
      have hclasses : c.mapper.names.classOf f'.1 = c.mapper.names.classOf f.1 := hname
      rwa [husual.classOf, husual.classOf, Registry.ofBase_inj] at hclasses
    rw [List.inj_on_of_nodup_map hnodup hf' hf hkey]
    rfl
  · exact absurd (hname ▸ List.mem_map_of_mem hp) hnew

/-- The model of an extra schema has this schema, when its name is that of no other one. -/
theorem begins_extra (hnodup : (extra.map (·.1)).Nodup)
    (hfields : c.mapper.components.fields = .ok named) (h : c.start extra = .ok (w, enums))
    {p : String × Node} (hp : p ∈ extra) (hthere : p.2.isAbsent = false)
    (hnew : ∀ f ∈ named, p.1 ≠ c.mapper.names.classOf f.1) : Begins w p.1 p.2 := by
  obtain ⟨hentries, hextra, -⟩ := start_entries hfields h
  obtain ⟨e, he, hname⟩ := Registry.exists_mem_entries (hextra p hp)
  refine ⟨e, he, hname, ?_⟩
  rcases hentries e he with ⟨f, hf, rfl⟩ | ⟨p', hp', rfl⟩
  · exact absurd hname.symm (hnew f hf)
  · rw [List.inj_on_of_nodup_map hnodup hp' hp hname]
    simp [extraEntry, hthere]

/-- A batch has one model of a name, and it was compiled from a schema. -/
structure CompiledFrom (c : ModelCompiler) (batch : ModelBatch) (name : String) (schema : Node) :
    Prop where
  once : batch.names.count name = 1
  built : ∃ model ∈ batch.models, model.name = name ∧ Built c ⟨model, schema⟩

/-- A model that is there in the beginning is compiled from its schema. -/
theorem Begins.compiled {name : String} {schema : Node} {limit : Nat} {batch : ModelBatch}
    (h : Begins w name schema) (hobject : schema.isObject = .ok true)
    (hstart : c.start extra = .ok (w, enums)) (hdrain : c.drain limit w = .ok done)
    (hfinish : c.finish enums done = .ok batch) : CompiledFrom c batch name schema := by
  obtain ⟨e, he, rfl, hschema⟩ := h
  have hdone : Consistent c done := drain_consistent (start_consistent hstart) hdrain
  have hsourced : Sourced c done := drain_sourced (start_sourced hstart) hdrain
  obtain ⟨n, hrun⟩ := exists_run_of_drain hdrain
  have hlast : e ∈ done.registry.entries :=
    (Run.extends_of_le .start hrun (Nat.zero_le n)).subset he
  have hthis : c.objectOf e = .ok (some schema) := by
    unfold objectOf schemaOf
    rw [hschema]
    exact bind_eq_ok.mpr ⟨some schema, rfl, bind_eq_ok.mpr ⟨true, hobject, rfl⟩⟩
  rcases hsourced.of_entry hdone (finish_eq_ok hfinish).1 hlast with ⟨-, hnone⟩ | ⟨m, hm, hname, hm'⟩
  · cases hthis.symm.trans hnone
  · obtain rfl : schema = m.schema := Option.some.inj (Except.ok.inj (hthis.symm.trans hm'))
    obtain ⟨hnames, -, hbuilt⟩ := built_of_finish hdone hfinish
    obtain ⟨model, hmodel, hname', hmade⟩ := hbuilt m hm
    refine ⟨?_, model, hmodel, hname'.trans hname, hmade⟩
    refine List.count_eq_one_of_mem ?_ (List.mem_map.mpr ⟨model, hmodel, hname'.trans hname⟩)
    exact hnames.nodup_iff.mpr hdone.nodup_names.of_append_left

end ModelCompiler

/-! ## Everything that is compiled -/

namespace EndpointCompiler

variable {c : EndpointCompiler} {s t : EndpointState}

/-- The responses of all operations in their order, before they are compiled. -/
def replies (c : EndpointCompiler) : Except Fault (List RawResponse) := do
  return (← (← c.operations).mapM fun operation => c.rawOf operation.2).flatten

/-- All responses of the endpoints are those of the operations, compiled one after the other. -/
theorem yields_replies {endpoints : List Endpoint} (h : Yields c.compileAll s endpoints t) :
    ∃ raw, c.replies = .ok raw ∧ List.Forall₂ (fun r response =>
      CompiledBetween c c.start t r response ∧
        ∀ schema, r.schema = some schema → c.Answerable schema)
      raw (endpoints.flatMap (·.responses)) := by
  obtain ⟨-, operations, hoperations, hall⟩ := yields_compileAll h
  obtain ⟨raws, hraws, heach⟩ := mapM_of_forall₂ (hall.imp fun operation e hdescribes => by
    obtain ⟨raw, hraw, hresponses⟩ := hdescribes.responses
    refine ⟨raw, hraw, (List.forall₂_and_left (p := fun r : RawResponse =>
      ∀ schema, r.schema = some schema → c.Answerable schema) _ _).mpr ⟨?_, hresponses⟩⟩
    exact fun r hr schema hschema =>
      ⟨operation.2, raw, hdescribes.isOperation, hraw, r, hr, hschema⟩)
  refine ⟨raws.flatten, bind_eq_ok.mpr ⟨operations, hoperations,
    bind_eq_ok.mpr ⟨raws, hraws, rfl⟩⟩, ?_⟩
  rw [List.flatMap_def]
  refine List.rel_flatten (List.forall₂_map_right_iff.mpr (heach.imp fun raw e hboth => ?_))
  exact hboth.imp fun r response hr => ⟨hr.2, hr.1⟩

end EndpointCompiler

namespace Generator

variable {g : Generator} {batch : Batch}

/-- What a batch is put together from. -/
structure Assembled (g : Generator) (batch : Batch) (c : EndpointCompiler) (mc : ModelCompiler)
    (endpoints : List Endpoint) (state : EndpointState) : Prop where
  compiler : EndpointCompiler.ofDocuments g.resolved g.written g.config.includeErrorTypes.truthy
    g.config.synthesizeResponses.truthy g.spec = .ok c
  compiled : Yields c.compileAll c.start endpoints state
  modelCompiler : ModelCompiler.ofDocument g.written g.config.strict.truthy g.spec = .ok mc
  models : mc.compileAll state.responseModels = .ok batch.models
  controller : ∀ k, batch.controller = some k →
    k.endpoints = endpoints ∧ k.dtoImports = dtoImports endpoints
  service : ∀ k, batch.service = some k →
    k.endpoints = endpoints ∧ k.dtoImports = dtoImports endpoints

theorem build_eq_ok (h : g.build = .ok batch) :
    ∃ c mc endpoints state, Assembled g batch c mc endpoints state := by
  obtain ⟨c, hc, h⟩ := bind_eq_ok.mp h
  obtain ⟨endpoints, hendpoints, h⟩ := bind_eq_ok.mp h
  obtain ⟨mc, hmc, h⟩ := bind_eq_ok.mp h
  obtain ⟨models, hmodels, h⟩ := bind_eq_ok.mp h
  obtain rfl := pure_eq_ok.mp h
  refine ⟨c, mc, endpoints, (c.compileAll.run.run c.start).2, hc, Prod.ext hendpoints rfl, hmc,
    hmodels, ?_, ?_⟩
  · intro k hk
    dsimp only at hk
    split at hk
    · cases hk
      exact ⟨rfl, rfl⟩
    · cases hk
  · intro k hk
    dsimp only at hk
    split at hk
    · cases hk
      exact ⟨rfl, rfl⟩
    · cases hk

section Assembled

variable {c : EndpointCompiler} {mc : ModelCompiler} {endpoints : List Endpoint}
  {state : EndpointState} {schema : Node} {name : String}

theorem Assembled.mapper_eq (h : Assembled g batch c mc endpoints state) : mc.mapper = c.mapper := by
  obtain ⟨named, hc⟩ := EndpointCompiler.ofDocuments_eq_ok h.compiler
  exact Except.ok.inj ((ModelCompiler.ofDocument_eq_ok h.modelCompiler).1.symm.trans hc.mapper)

/-- The names that are claimed while everything is compiled. -/
theorem Assembled.kept (h : Assembled g batch c mc endpoints state) :
    ∃ named, c.MadeFor g.resolved g.written g.config.synthesizeResponses.truthy g.spec named ∧
      c.Kept state := by
  obtain ⟨named, hc⟩ := EndpointCompiler.ofDocuments_eq_ok h.compiler
  have hclaims := (EndpointCompiler.yields_compileAll h.compiled).1
  exact ⟨named, hc, (EndpointCompiler.start_kept.claims hc hclaims).1⟩

theorem Assembled.answerable (hD : Sources {g.resolved, g.written})
    (h : Assembled g batch c mc endpoints state) (hschema : c.Answerable schema) :
    Stands {g.resolved, g.written} schema := by
  obtain ⟨named, hc, -⟩ := h.kept
  have hwritten : Stands {g.resolved, g.written} g.written.top := stands_top (by simp)
  refine hD.closed.answerable ?_ (hc.written ▸ hwritten) ?_ hschema
  · rw [hc.resolved]
    exact stands_top (by simp)
  · rw [(Mapper.ofDocument_eq_ok hc.mapper).2.1]
    exact hwritten

/-- A named schema that becomes a class does so in the batch. -/
theorem Assembled.namedModel (hD : Sources {g.resolved, g.written})
    (h : Assembled g batch c mc endpoints state) {named : List (String × Node)}
    (hfields : mc.mapper.components.fields = .ok named) {f : String × Node} (hf : f ∈ named)
    (henum : Schema.isStringEnum f.2 = .ok false) (hmodel : Schema.isModel f.2 = .ok true) :
    mc.CompiledFrom batch.models (mc.mapper.names.classOf f.1) f.2 := by
  obtain ⟨named', hc, hkept⟩ := h.kept
  rw [h.mapper_eq] at hfields
  obtain rfl : named' = named := Except.ok.inj (hc.fields.symm.trans hfields)
  have hwritten : g.written ∈ ({g.resolved, g.written} : Set Document) := by simp
  have hnodup := (Mapper.fields_of_ofDocument hD hwritten hc.mapper hc.fields).2
  have husual := Mapper.usual_of_ofDocument hc.mapper hc.fields
  rw [← h.mapper_eq] at husual hfields
  obtain ⟨w, enums, done, hstart, hdrain, hfinish⟩ := ModelCompiler.compileWithin_eq_ok h.models
  refine (ModelCompiler.begins_named husual hnodup hfields hstart hf henum hmodel ?_).compiled
    (Mapper.isObject_of_isModel hmodel) hstart hdrain hfinish
  -- the class is in the arena from the start, so it was never handed on
  intro hmem
  obtain ⟨p, hp, hname⟩ := List.mem_map.mp hmem
  refine (hkept.models p hp).1 (hc.mem_arena_names.mpr ⟨f, hf, ?_⟩)
  rw [hname, h.mapper_eq]

/-- A schema handed on becomes the class of its name. -/
theorem Assembled.handedOn (h : Assembled g batch c mc endpoints state)
    (hmem : (name, schema) ∈ state.responseModels) :
    mc.CompiledFrom batch.models name schema := by
  obtain ⟨named, hc, hkept⟩ := h.kept
  have hfields : mc.mapper.components.fields = .ok named := h.mapper_eq ▸ hc.fields
  obtain ⟨hnew, -, -, hinline⟩ := hkept.models _ hmem
  obtain ⟨w, enums, done, hstart, hdrain, hfinish⟩ := ModelCompiler.compileWithin_eq_ok h.models
  refine (ModelCompiler.begins_extra hkept.nodup hfields hstart hmem
    (EndpointCompiler.not_isAbsent_of_inline hinline) ?_).compiled
    (describesObject_of_inline hinline).object hstart hdrain hfinish
  rintro f hf heq
  refine hnew (hc.mem_arena_names.mpr ⟨f, hf, ?_⟩)
  rw [← h.mapper_eq]
  exact heq

/-- The one model of a name was compiled from a schema equal to a given one: a named schema, or one
handed on with this name. -/
structure Represents (mc : ModelCompiler) (state : EndpointState) (batch : ModelBatch)
    (name : String) (known schema : Node) : Prop where
  same : SameSchema known schema
  compiled : mc.CompiledFrom batch name known
  source : (∃ fields, mc.mapper.components.fields = .ok fields ∧
      ∃ f ∈ fields, name = mc.mapper.names.classOf f.1 ∧ f.2 = known) ∨
    (name, known) ∈ state.responseModels

/-- A name that was claimed for a schema is that of the model compiled from the schema that the arena
has under the name. -/
theorem Assembled.modelOf (hD : Sources {g.resolved, g.written})
    (h : Assembled g batch c mc endpoints state) (hanswer : c.Answerable schema)
    (hinline : EndpointCompiler.isInlineResponse schema = .ok true)
    (hnamed : EndpointCompiler.NamedFor state name schema) :
    ∃ e known, state.arena.find? name = some e ∧ e.schema = some known ∧
      Stands {g.resolved, g.written} known ∧ Represents mc state batch.models name known schema := by
  obtain ⟨named, hc, hkept⟩ := h.kept
  obtain ⟨e, known, he, hknown, hsame⟩ := hnamed
  refine ⟨e, known, he, hknown, ?_⟩
  have hschema := h.answerable hD hanswer
  rcases hkept.source hc he hknown with ⟨f, hf, rfl, rfl⟩ | hhanded
  · have hwritten : g.written ∈ ({g.resolved, g.written} : Set Document) := by simp
    have hin := (Mapper.fields_of_ofDocument hD hwritten hc.mapper hc.fields).1 f hf
    have hequal : SameSchema f.2 schema := sameSchema_of_registry hD hin hschema hsame
    have hobject : DescribesObject f.2 :=
      (hequal.symm hD hin hschema).describesObject hD hschema (describesObject_of_inline hinline)
    have hfields : mc.mapper.components.fields = .ok named := h.mapper_eq ▸ hc.fields
    rw [← h.mapper_eq]
    exact ⟨hin, hequal, h.namedModel hD hfields hf hobject.not_isStringEnum hobject.isModel,
      Or.inl ⟨named, hfields, f, hf, rfl, rfl⟩⟩
  · have hin := h.answerable hD (hkept.models _ hhanded).2.2.1
    exact ⟨hin, sameSchema_of_registry hD hin hschema hsame, h.handedOn hhanded, Or.inr hhanded⟩

end Assembled

/-- A response is compiled as the operation says, and when it is in place its type is the one model
that was compiled from its schema or from one equal to it. -/
structure Faithful (mc : ModelCompiler) (state : EndpointState) (batch : ModelBatch)
    (r : EndpointCompiler.RawResponse) (response : Response) : Prop where
  status : response.status = r.status
  inPlace_iff : response.inPlace = true ↔
    ∃ schema, r.schema = some schema ∧ EndpointCompiler.isInlineResponse schema = .ok true
  model : ∀ schema, r.schema = some schema → response.inPlace = true →
    ∃ known, Represents mc state batch response.typeExpression known schema

/-- Responses in place have models of their schemas, and share one only when their schemas are
equal. -/
theorem build_faithful (hD : Sources {g.resolved, g.written})
    (hsynthesize : g.config.synthesizeResponses.truthy = true) (h : g.build = .ok batch) :
    ∃ c mc endpoints state replies, Assembled g batch c mc endpoints state ∧
      c.replies = .ok replies ∧
      List.Forall₂ (Faithful mc state batch.models) replies (endpoints.flatMap (·.responses)) ∧
      ∀ p ∈ replies.zip (endpoints.flatMap (·.responses)),
        ∀ q ∈ replies.zip (endpoints.flatMap (·.responses)),
          p.2.inPlace = true → q.2.inPlace = true → p.2.typeExpression = q.2.typeExpression →
          ∀ schema schema', p.1.schema = some schema → q.1.schema = some schema' →
            SameSchema schema schema' := by
  obtain ⟨c, mc, endpoints, state, hall⟩ := build_eq_ok h
  obtain ⟨named, hc⟩ := EndpointCompiler.ofDocuments_eq_ok hall.compiler
  obtain ⟨replies, hreplies, hresponses⟩ := EndpointCompiler.yields_replies hall.compiled
  have hmodel : ∀ p ∈ replies.zip (endpoints.flatMap (·.responses)), ∀ schema,
      p.1.schema = some schema → p.2.inPlace = true →
      ∃ e known, state.arena.find? p.2.typeExpression = some e ∧ e.schema = some known ∧
        Stands {g.resolved, g.written} known ∧
        Represents mc state batch.models p.2.typeExpression known schema := by
    intro p hp schema hschema hplace
    obtain ⟨hbetween, hanswer⟩ := List.forall₂_zip hresponses hp
    obtain ⟨hinline, hnamed⟩ := hbetween.namedFor hc hplace hschema (hanswer schema hschema)
    exact hall.modelOf hD (hanswer schema hschema) hinline hnamed
  refine ⟨c, mc, endpoints, state, replies, hall, hreplies, ?_, ?_⟩
  · refine List.forall₂_iff_zip.mpr ⟨hresponses.length_eq, fun {r response} hmem => ?_⟩
    obtain ⟨hbetween, -⟩ := List.forall₂_zip hresponses hmem
    refine ⟨hbetween.status, ?_, ?_⟩
    · obtain ⟨u, v, -, hresponse, -⟩ := hbetween.run
      exact hresponse.inPlace_iff (hc.synthesize.trans hsynthesize)
    · intro schema hschema hplace
      obtain ⟨e, known, -, -, -, hrepresents⟩ := hmodel (r, response) hmem schema hschema hplace
      exact ⟨known, hrepresents⟩
  -- one name has one model in the arena, and its schema is equal to both
  · intro p hp q hq hplace hplace' htype schema schema' hschema hschema'
    obtain ⟨e, known, he, hknown, hin, hthis⟩ := hmodel p hp schema hschema hplace
    obtain ⟨e', known', he', hknown', -, hother⟩ := hmodel q hq schema' hschema' hplace'
    rw [← htype, he] at he'
    obtain rfl := Option.some.inj he'
    obtain rfl := Option.some.inj (hknown.symm.trans hknown')
    have hanswer := (List.forall₂_zip hresponses hp).2 schema hschema
    exact (hthis.same.symm hD hin (hall.answerable hD hanswer)).trans hother.same

/-- An operation that answers with an object in place, which has one property. -/
def answersWith (operation property type : String) : Json :=
  .obj [("operationId", .str operation), ("responses", .obj [("200", .obj [
    ("content", .obj [("application/json", .obj [("schema", .obj [
      ("properties", .obj [(property, .obj [("type", .str type)])])])])])])])]

/-- Operations of one name: the first answers with an object like a named schema that has the name of
its class, the others with an object of their own. -/
def shelter : Json := .obj [
  ("paths", .obj [
    ("/pets", .obj [
      ("get", answersWith "pet" "name" "string"), ("post", answersWith "pet" "count" "integer")]),
    ("/owners", .obj [("get", answersWith "pet" "count" "integer")])]),
  ("components", .obj [("schemas", .obj [
    ("PetResponse", .obj [("properties", .obj [("name", .obj [("type", .str "string")])])])])])]

/-- The generator for a document without references to other files, with the usual settings. -/
def ofRoot (root : Json) : Generator where
  resolved := ⟨1, root, true⟩
  written := ⟨0, root, false⟩
  resource := "pets"
  config := {}
  spec := none

theorem sources_ofRoot {root : Json} (h : root.keysOnce = true) :
    Sources {(ofRoot root).resolved, (ofRoot root).written} where
  keysOnce d hd := by
    rcases hd with rfl | rfl <;> exact h
  tags d hd e he htag := by
    rcases hd with rfl | rfl <;> rcases he with rfl | rfl <;> first | rfl | cases htag

/-- The types of the responses of some endpoints. -/
def typesOf (endpoints : List Endpoint) : List String :=
  endpoints.flatMap fun e => e.responses.map (·.typeExpression)

/-- In `shelter` the first response has the class of the named schema, the others share one. -/
theorem shelter_faithful :
    ∃ batch, (ofRoot shelter).build = .ok batch ∧
      batch.controller.map (fun k => typesOf k.endpoints) =
        some ["PetResponseDto", "PetResponse2Dto", "PetResponse2Dto"] ∧
      batch.models.names = ["PetResponseDto", "PetResponse2Dto"] ∧
      ∃ c mc endpoints state replies, Assembled (ofRoot shelter) batch c mc endpoints state ∧
        c.replies = .ok replies ∧
        List.Forall₂ (Faithful mc state batch.models) replies (endpoints.flatMap (·.responses)) ∧
        ∀ p ∈ replies.zip (endpoints.flatMap (·.responses)),
          ∀ q ∈ replies.zip (endpoints.flatMap (·.responses)),
            p.2.inPlace = true → q.2.inPlace = true → p.2.typeExpression = q.2.typeExpression →
            ∀ schema schema', p.1.schema = some schema → q.1.schema = some schema' →
              SameSchema schema schema' := by
  have hrun : ((ofRoot shelter).build.map fun batch =>
      (batch.controller.map (fun k => typesOf k.endpoints), batch.models.names)).toOption =
      some (some ["PetResponseDto", "PetResponse2Dto", "PetResponse2Dto"],
        ["PetResponseDto", "PetResponse2Dto"]) := by
    decide +kernel
  obtain ⟨batch, hbatch, h⟩ := map_eq_ok (eq_ok_of_toOption hrun)
  obtain ⟨htypes, hnames⟩ := Prod.mk.inj h
  exact ⟨batch, hbatch, htypes, hnames,
    build_faithful (sources_ofRoot (by decide)) (by decide) hbatch⟩

end Generator

end ApiScaffold
