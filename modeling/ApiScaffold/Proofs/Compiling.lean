import ApiScaffold.Model.Compiler
import ApiScaffold.Proofs.Mapper

set_option autoImplicit false

/-! # Compiling a model, and compiling it again

A model uses models that are registered, each once, and never itself. Compiled again on any later
registry and with some models blocked, it registers nothing, uses the same models but for the
blocked ones, and has the same properties, of which only types that mention a blocked model differ
(`compileOn_again`). -/

namespace ApiScaffold.ModelCompiler

open Mapper

variable {m : Mapper} {name source : String} {blocked : List String} {schema : Node}

/-! ## Properties -/

/-- A property compiled again: it stays in place, and stays the same unless its type mentions a
blocked model. -/
structure Retyped (blocked : List String) (p p' : Property) : Prop where
  name : p'.name = p.name
  required : p'.required = p.required
  description : p'.description = p.description
  sample : p'.sample = p.sample
  same : (∀ name ∈ blocked, ¬ Mentions p.typeExpression name) → p' = p

theorem Retyped.refl (p : Property) : Retyped blocked p p :=
  ⟨rfl, rfl, rfl, rfl, fun _ => rfl⟩

/-- The property that a mapped type makes. -/
def propertyOf (name : String) (required : Bool) (mapped : MappedType)
    (description : Option String) (sample : Excerpt) : Property :=
  Property.settled {
    name
    required
    typeExpression := mapped.type.text
    constraints := mapped.constraints
    description
    sample
    enumValues := mapped.enumValues
    isArray := mapped.isArray
    itemType := mapped.itemType.map TypeExpr.text }

theorem propertyOf_retyped {a b : MappedType} (h : SameType blocked a b) (name : String)
    (required : Bool) (description : Option String) (sample : Excerpt) :
    Retyped blocked (propertyOf name required a description sample)
      (propertyOf name required b description sample) := by
  refine ⟨rfl, rfl, rfl, rfl, fun hnone => ?_⟩
  rw [h hnone]

theorem compileProperty_replays (ctx : MappingContext) {Q : Node → Prop} {required : Bool}
    (hfree : ctx.blocked = []) (hclosed : ∀ a b, Q a → Part m a b → Q b) (hQ : Q schema) :
    Replays m ctx.model Q blocked (compileProperty m ctx required schema)
      (compileProperty m { ctx with blocked } required schema) (Retyped blocked) := by
  refine (mapWithin_replays hfree hclosed _ [] schema hQ).bind fun a b hab => ?_
  refine Replays.bind_lift fun documented _ => ?_
  have hlast : ∀ description sample, Replays m ctx.model Q blocked
      (pure (propertyOf ctx.property required a description sample) : Mapping Property)
      (pure (propertyOf ctx.property required b description sample)) (Retyped blocked) :=
    fun description sample =>
      Replays.pure (propertyOf_retyped hab ctx.property required description sample)
  cases documented with
  | true =>
      refine Replays.bind_lift fun description _ => ?_
      exact Replays.bind_lift fun sample _ => hlast description sample
  | false => exact hlast none .null

/-! ## Models -/

/-- The schemas that make up the properties of a schema. -/
def Inside (m : Mapper) (schema n : Node) : Prop :=
  ∃ gathered p, Gathered.ofSchema m.resolver schema = .ok gathered ∧ p ∈ gathered.properties ∧
    Relation.ReflTransGen (Part m) p.2 n

theorem Inside.part {a b : Node} (ha : Inside m schema a) (hb : Part m a b) :
    Inside m schema b := by
  obtain ⟨gathered, p, hgathered, hp, hsteps⟩ := ha
  exact ⟨gathered, p, hgathered, hp, hsteps.tail hb⟩

/-- A model compiled again: it uses the same models but for the blocked ones, and has the same
properties but for types that mention one. -/
structure Recompiled (blocked : List String) (model model' : Model) : Prop where
  name : model'.name = model.name
  source : model'.source = model.source
  description : model'.description = model.description
  dependsOn : model'.dependsOn = without blocked model.dependsOn
  properties : List.Forall₂ (Retyped blocked) model.properties model'.properties

theorem Recompiled.refl (model : Model) : Recompiled [] model model :=
  ⟨rfl, rfl, rfl, (without_nil _).symm, List.forall₂_same.mpr fun p _ => Retyped.refl p⟩

/-- The properties of a schema, compiled one after the other. -/
def compileProperties (m : Mapper) (name : String) (blocked : List String) (gathered : Gathered) :
    Mapping (List Property) :=
  gathered.properties.mapM fun p =>
    compileProperty m { model := name, base := ModelName.base name, property := p.1, blocked }
      (gathered.required.contains p.1) p.2

theorem yields_compileModel {s t : MapperState} {model : Model} :
    Yields (compileModel m name source blocked schema) s model t ↔
      ∃ gathered properties description, Gathered.ofSchema m.resolver schema = .ok gathered ∧
        Yields (compileProperties m name blocked gathered) s properties t ∧
        descriptionOf .model schema = .ok description ∧
        model = { name, properties, dependsOn := t.dependencies, source, description } := by
  simp only [compileModel, yields_bind, yields_lift, yields_get, yields_pure, compileProperties]
  constructor
  · rintro ⟨gathered, _, ⟨hgathered, rfl⟩, properties, _, hproperties, _, _, ⟨rfl, rfl⟩,
      description, _, ⟨hdescription, rfl⟩, rfl, rfl⟩
    exact ⟨gathered, properties, description, hgathered, hproperties, hdescription, rfl⟩
  · rintro ⟨gathered, properties, description, hgathered, hproperties, hdescription, rfl⟩
    exact ⟨gathered, s, ⟨hgathered, rfl⟩, properties, t, hproperties, t, t, ⟨rfl, rfl⟩,
      description, t, ⟨hdescription, rfl⟩, rfl, rfl⟩

theorem compileOn_eq_ok {r r' : Registry} {model : Model} :
    compileOn m r name source blocked schema = .ok (model, r') ↔
      ∃ t, Yields (compileModel m name source blocked schema) ⟨r, []⟩ model t ∧
        t.registry = r' := by
  unfold compileOn Yields
  split
  · next found state hrun =>
      rw [hrun]
      constructor
      · intro h
        cases h
        exact ⟨state, rfl, rfl⟩
      · rintro ⟨t, h, rfl⟩
        cases h
        rfl
  · next fault state hrun =>
      rw [hrun]
      constructor
      · intro h
        cases h
      · rintro ⟨t, h, -⟩
        cases h

theorem compileProperties_replays (blocked : List String) {gathered : Gathered}
    (hgathered : Gathered.ofSchema m.resolver schema = .ok gathered) :
    Replays m name (Inside m schema) blocked (compileProperties m name [] gathered)
      (compileProperties m name blocked gathered) (List.Forall₂ (Retyped blocked)) := by
  refine Replays.mapM fun p hp => ?_
  exact compileProperty_replays
    { model := name, base := ModelName.base name, property := p.1, blocked := [] }
    rfl (fun _ _ => Inside.part) ⟨gathered, p, hgathered, hp, .refl⟩

/-- What compiling a model does to the registry, and which models it uses. -/
theorem compileOn_steps {r r' : Registry} {model : Model}
    (h : compileOn m r name source [] schema = .ok (model, r')) :
    MapSteps m name (Inside m schema) ⟨r, []⟩ ⟨r', model.dependsOn⟩ ∧ model.name = name ∧
      model.source = source := by
  obtain ⟨t, hrun, rfl⟩ := compileOn_eq_ok.mp h
  obtain ⟨gathered, properties, description, hgathered, hproperties, -, rfl⟩ :=
    yields_compileModel.mp hrun
  exact ⟨(compileProperties_replays [] hgathered _ _ _ hproperties).1, rfl, rfl⟩

theorem compileOn_uses {r r' : Registry} {model : Model}
    (h : compileOn m r name source [] schema = .ok (model, r')) :
    Uses name ⟨r', model.dependsOn⟩ :=
  (compileOn_steps h).1.uses ⟨by simp, by simp, List.nodup_nil⟩

/-- Compiling a model again on a later registry. -/
theorem compileOn_again {r r' later : Registry} {model : Model}
    (h : compileOn m r name source [] schema = .ok (model, r'))
    (hlater : Registry.Extends r' later) :
    ∃ model', compileOn m later name source blocked schema = .ok (model', later) ∧
      Recompiled blocked model model' := by
  obtain ⟨t, hrun, rfl⟩ := compileOn_eq_ok.mp h
  obtain ⟨gathered, properties, description, hgathered, hproperties, hdescription, rfl⟩ :=
    yields_compileModel.mp hrun
  obtain ⟨properties', hproperties', hretyped⟩ :=
    (compileProperties_replays blocked hgathered _ _ _ hproperties).2 later hlater
  let model' : Model :=
    { name, properties := properties', dependsOn := without blocked t.dependencies, source,
      description := description }
  refine ⟨model', ?_, ⟨rfl, rfl, rfl, rfl, hretyped⟩⟩
  refine compileOn_eq_ok.mpr ⟨⟨later, without blocked t.dependencies⟩, ?_, rfl⟩
  exact yields_compileModel.mpr
    ⟨gathered, properties', description, hgathered, hproperties', hdescription, rfl⟩

end ApiScaffold.ModelCompiler
