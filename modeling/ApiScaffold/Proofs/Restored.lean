import ApiScaffold.Proofs.Printed
import ApiScaffold.Proofs.Unlinked
import ApiScaffold.Proofs.Validators

set_option autoImplicit false

/-! # Batches are restored

Whatever is compiled is regular: constraints, parameters and operations are of kinds that have their
names for themselves, optional markers are in order, and no model is noted twice. So the record of a
batch that was built is read without a fault, and gives the batch back but for its links
(`build_restored`). -/

namespace ApiScaffold

open Node (Plain)

/-! ## Models -/

theorem ConstraintKind.ofName_of_heading {kind : ConstraintKind} (h : kind.heading?.isSome) :
    ofName kind.name = kind := by
  rcases ofName_name kind with heq | ⟨name, rfl⟩
  · exact heq
  · cases h

namespace Mapper

variable {m : Mapper} {ctx : MappingContext} {s t : MapperState}

theorem nodup_chain {nodes : List Node} {types : List MappedType}
    (h : Chain (fun _ s _ t => s.dependencies.Nodup → t.dependencies.Nodup) nodes s types t)
    (hs : s.dependencies.Nodup) : t.dependencies.Nodup := by
  induction h with
  | nil => exact hs
  | skip _ ih => exact ih hs
  | cons hfirst _ ih => exact ih (hfirst hs)

/-- No way to map a schema notes a model twice. -/
theorem nodup_rules : MapRules m ctx fun _ s _ t =>
    s.dependencies.Nodup → t.dependencies.Nodup where
  plain _ _ hs := hs
  texts _ _ hs := hs
  through _ h := h
  ofClass huses hs := huses.noted ▸ nodup_addNew _ hs
  union _ hchain := nodup_chain hchain
  unknown _ _ hs := hs
  items _ h := h
  itemsOfClass _ huses hs := huses.noted ▸ nodup_addNew _ hs
  record _ h := h

end Mapper

namespace ModelCompiler

open Mapper

variable {m : Mapper} {name source : String} {blocked : List String} {schema : Node}

theorem compileOn_nodup {r r' : Registry} {model : Model}
    (h : compileOn m r name source blocked schema = .ok (model, r')) : model.dependsOn.Nodup := by
  obtain ⟨t, hrun, -⟩ := compileOn_eq_ok.mp h
  obtain ⟨gathered, properties, description, -, hproperties, -, rfl⟩ := yields_compileModel.mp hrun
  refine (yields_mapM (R := fun s t : MapperState => s.dependencies.Nodup → t.dependencies.Nodup)
    (fun _ => id) (fun _ _ _ h h' hs => h' (h hs)) ?_ hproperties).1 List.nodup_nil
  intro q _ s p t hproperty
  obtain ⟨mapped, -, -, hmapped, -⟩ := yields_compileProperty hproperty
  exact mapProperty_rules nodup_rules hmapped

theorem compileWithin_regular {c : ModelCompiler} {limit : Nat} {extra : List (String × Node)}
    {batch : ModelBatch} (h : c.compileWithin limit extra = .ok batch) :
    ∀ model ∈ batch.models, model.Regular := by
  have hheaded := compileWithin_headed h
  obtain ⟨w, enums, done, hstart, hdrain, hfinish⟩ := compileWithin_eq_ok h
  have hdone : Consistent c done := drain_consistent (start_consistent hstart) hdrain
  intro model hmodel
  obtain ⟨m, -, -, hbuilt⟩ := (built_of_finish hdone hfinish).2.1 model hmodel
  refine ⟨fun p hp => ⟨fun con hcon => ?_, ?_⟩, ?_⟩
  · -- only a kind that is known heads a decorator
    exact ConstraintKind.ofName_of_heading
      (hheaded p (List.mem_flatMap.mpr ⟨model, hmodel, hp⟩) con hcon)
  · obtain ⟨gathered, blocked, -, hall⟩ := hbuilt.properties
    obtain ⟨q, -, required, mapped, description, sample, s, t, -, -, rfl⟩ :=
      exists_left_of_forall₂ hall p hp
    exact Property.settled_settled _
  · obtain ⟨blocked, r, r', hcompile⟩ := hbuilt
    exact compileOn_nodup hcompile

end ModelCompiler

/-! ## Endpoints -/

theorem ParameterKind.name_ofName (text : String) : (ofName text).name = text := by
  unfold ofName
  cases hfound : all.find? (·.name == text) with
  | none => rfl
  | some kind => simpa using List.find?_some hfound

namespace EndpointCompiler

variable {c : EndpointCompiler}

theorem compileParameter_regular {parameter : Node} {p : Parameter}
    (h : c.compileParameter parameter = .ok p) : p.Regular := by
  obtain ⟨-, -, text, -, -, -, -, -, hkind, -⟩ := compileParameter_reads h
  rw [Parameter.Regular, hkind, ParameterKind.name_ofName]

theorem CompilesTo.regular {e : Endpoint} (h : c.CompilesTo e) : e.Regular := by
  obtain ⟨method, path, operation, s, t, hlists, hcompile⟩ := h
  obtain ⟨source, item, -, hfilled⟩ := yields_compile hcompile
  have hparameters : ∀ p ∈ e.parameters, p.Regular := by
    intro p hp
    obtain ⟨parameter, hparameter⟩ := mem_compileParameters hfilled.parameters p hp
    exact compileParameter_regular hparameter
  refine ⟨?_, hparameters, fun p hp => ?_⟩
  · rw [hfilled.method]
    exact (by decide : ∀ method ∈ Method.all, Method.ofName method.name = method) method hlists.1
  · rw [hfilled.arguments, Parameter.ordered, List.mem_mergeSort, List.mem_append] at hp
    rcases hp with hp | hp
    · exact hparameters p hp
    · obtain ⟨b, -, rfl⟩ := List.mem_map.mp hp
      rfl

end EndpointCompiler

/-! ## Batches -/

namespace Generator

variable {g : Generator} {batch : Batch}

theorem build_regular (h : g.build = .ok batch) : batch.Regular := by
  obtain ⟨c, mc, endpoints, state, hbatch⟩ := build_eq_ok h
  have hendpoints : ∀ e ∈ endpoints, e.Regular := fun e he =>
    (EndpointCompiler.compileAll_compilesTo hbatch.compiled e he).regular
  refine ⟨ModelCompiler.compileWithin_regular hbatch.models, fun e he => hendpoints e ?_⟩
  rcases Batch.mem_endpoints.mp he with ⟨k, hk, he⟩ | ⟨k, hk, he⟩
  · exact (hbatch.controller k hk).1 ▸ he
  · exact (hbatch.service k hk).1 ▸ he

/-- The schemas of responses that become classes, with the names of these. -/
def handedOn (g : Generator) : Except Fault (List (String × Node)) := do
  let c ← EndpointCompiler.ofDocuments g.resolved g.written g.config.includeErrorTypes.truthy
    g.config.synthesizeResponses.truthy g.spec
  let (result, state) := c.compileAll.run.run c.start
  let _ ← result
  return state.responseModels

theorem Assembled.handedOn_eq {c : EndpointCompiler} {mc : ModelCompiler}
    {endpoints : List Endpoint} {state : EndpointState}
    (h : Assembled g batch c mc endpoints state) : g.handedOn = .ok state.responseModels := by
  refine bind_eq_ok.mpr ⟨c, h.compiler, ?_⟩
  rw [show c.compileAll.run.run c.start = (.ok endpoints, state) from h.compiled]
  rfl

/-- Without links in the document as it was written and in the schemas handed on, a batch has
none. -/
theorem build_unlinked (hwritten : g.written.linked = false)
    (hhanded : ∀ named, g.handedOn = .ok named → ∀ f ∈ named, f.2.Plain)
    (h : g.build = .ok batch) : batch.unlinked = batch := by
  obtain ⟨c, mc, endpoints, state, hbatch⟩ := build_eq_ok h
  rw [Batch.unlinked, ModelCompiler.compileWithin_unlinked hwritten hbatch.modelCompiler
    (hhanded _ hbatch.handedOn_eq) hbatch.models]

/-- The record of a batch that was built is read without a fault and gives back an equal batch; the
batch itself, if the document and the schemas handed on have no links. So it is with the record of
each of its parts. What reading puts in order is in order already: the models that a model uses, and
the optional markers. -/
theorem build_restored (h : g.build = .ok batch) :
    (∃ restored,
      Record.finish .generation (Record.readBatch (Record.writeBatch batch)) = .ok restored ∧
      restored.SameValues batch ∧ Record.writeBatch restored = Record.writeBatch batch ∧
      (g.written.linked = false →
        (∀ named, g.handedOn = .ok named → ∀ f ∈ named, f.2.document.linked = false) →
        restored = batch)) ∧
    Record.RestoresParts batch ∧
    ∀ m ∈ batch.models.models,
      Record.distinctEntries (Record.writeTexts m.dependsOn) = .good (m.dependsOn.map .str) ∧
      ∀ p ∈ m.properties, p.settled = p := by
  have hregular := build_regular h
  refine ⟨⟨batch.unlinked, ?_, batch.sameValues_unlinked, Record.writeBatch_unlinked batch,
    fun hwritten hhanded => build_unlinked hwritten hhanded h⟩, Record.restoresParts hregular,
    fun m hm => ⟨?_, fun p hp => ?_⟩⟩
  · rw [Record.readBatch_write hregular]
    rfl
  · rw [Record.distinctEntries_writeTexts, firsts_of_nodup (hregular.models m hm).distinct]
  · exact ((hregular.models m hm).properties p hp).settled

/-- An orchard lists its trees, each of a sort and perhaps with an age and cuts, and takes new ones.
-/
def orchard : Json := .obj [
  ("paths", .obj [("/trees", .obj [
    ("get", .obj [
      ("parameters", .arr [.obj [("name", .str "limit"), ("in", .str "query"),
        ("schema", .obj [("type", .str "integer")])]]),
      ("responses", .obj [("200", carrying
        (.obj [("type", .str "array"), ("items", ModelCompiler.referenceTo "Tree")]))])]),
    ("post", .obj [
      ("requestBody", carrying (ModelCompiler.referenceTo "Tree")),
      ("responses", .obj [("201", carrying (.obj [("properties", .obj [
        ("row", .obj [("type", .str "integer"), ("minimum", .int 1)])])]))])])])]),
  ("components", .obj [("schemas", .obj [
    ("Tree", .obj [("required", .arr [.str "sort"]), ("properties", .obj [
      ("sort", either "apple" "pear"),
      ("age", .obj [("type", .str "number"), ("example", .int 12)]),
      ("cuts", .obj [("type", .str "array"), ("items", ModelCompiler.referenceTo "Cut")]),
      ("lastCut", ModelCompiler.referenceTo "Cut")])]),
    ("Cut", .obj [("properties", .obj [("year", .obj [("type", .str "integer")])])])])])]

/-- The kinds of constraints on the properties of a model, and the models that it uses. -/
def kindsOf (m : Model) : List (List String) × List String :=
  (m.properties.map fun p => p.constraints.map (·.kind.name), m.dependsOn)

/-- The batch of `orchard` has no links and is restored as it was. -/
theorem orchard_restored :
    ∃ batch, (ofRoot orchard).build = .ok batch ∧
      declaredIn batch = (["CutDto", "TreeDto", "PostTreesResponseDto"], ["SortEnum"]) ∧
      batch.models.models.map kindsOf = [
        ([["optional", "int"]], []),
        ([["string", "enum"], ["optional", "number"], ["optional", "array", "nested", "type"],
          ["optional", "nested", "type"]], ["CutDto"]),
        ([["optional", "int", "min"]], [])] ∧
      Record.finish .generation (Record.readBatch (Record.writeBatch batch)) = .ok batch := by
  have hrun : ((ofRoot orchard).build.map fun batch =>
      (declaredIn batch, batch.models.models.map kindsOf)).toOption =
      some ((["CutDto", "TreeDto", "PostTreesResponseDto"], ["SortEnum"]), [
        ([["optional", "int"]], []),
        ([["string", "enum"], ["optional", "number"], ["optional", "array", "nested", "type"],
          ["optional", "nested", "type"]], ["CutDto"]),
        ([["optional", "int", "min"]], [])]) := by
    decide +kernel
  have hhanded : ((ofRoot orchard).handedOn.map fun named =>
      named.all fun f => !f.2.document.linked).toOption = some true := by
    decide +kernel
  obtain ⟨batch, hbatch, h⟩ := map_eq_ok (eq_ok_of_toOption hrun)
  obtain ⟨hdeclared, hkinds⟩ := Prod.mk.inj h
  obtain ⟨named, hnamed, hall⟩ := map_eq_ok (eq_ok_of_toOption hhanded)
  obtain ⟨⟨restored, hrestored, -, -, hsame⟩, -⟩ := build_restored hbatch
  refine ⟨batch, hbatch, hdeclared, hkinds, ?_⟩
  rw [hrestored, hsame rfl]
  intro named' hnamed' f hf
  obtain rfl := Except.ok.inj (hnamed.symm.trans hnamed')
  simpa using List.all_eq_true.mp hall f hf

end Generator

end ApiScaffold
