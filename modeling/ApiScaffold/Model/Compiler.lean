import ApiScaffold.Model.Enums
import ApiScaffold.Model.Ordering
import ApiScaffold.Model.Properties
import ApiScaffold.Record.Reading
import ApiScaffold.Typing.Mapper

set_option autoImplicit false

/-! # From schemas to models

All models that a document needs are compiled: first the named schemas that become classes and the
extra schemas given, then every model that one of these uses, until none is waiting. Models whose
schema is missing are left out, unless the compiler is strict. In the end properties that would use
a model left out, or close a cycle of dependencies, are compiled again with the type `any`, and the
models are put in order. -/

namespace ApiScaffold

/-- Compiles the models of a document. -/
structure ModelCompiler where
  mapper : Mapper
  /-- Whether a model without a schema is a fault. -/
  strict : Bool
deriving DecidableEq

/-- A model with what it was compiled from. -/
structure Compiled where
  model : Model
  schema : Node
deriving Inhabited

/-- The models compiled so far, those left out, and those waiting. -/
structure Worklist where
  registry : Registry
  compiled : List Compiled := []
  skipped : List String := []
deriving Inhabited

namespace ModelCompiler

/-- The compiler for a document. -/
def ofDocument (document : Document) (strict : Bool) (spec : Option String) :
    Except Fault ModelCompiler := do
  return { mapper := ← Mapper.ofDocument document spec, strict }

/-! ## One model -/

/-- A text that describes a record, if it has one. -/
def descriptionOf (kind : RecordKind) (schema : Node) : Except Fault (Option String) := do
  Record.finish kind
    ((Record.optional Record.text (← schema.get "description").value).within "description")

/-- A property with the type that its schema gives it. -/
def compileProperty (mapper : Mapper) (ctx : MappingContext) (required : Bool) (schema : Node) :
    Mapping Property := do
  let mapped ← mapper.mapProperty schema ctx
  let documented ← liftM schema.isObject
  let description ← if documented then liftM (descriptionOf .property schema) else pure none
  let sample ← if documented then liftM (do (← schema.get "example").excerpt) else pure .null
  return Property.settled {
    name := ctx.property
    required
    typeExpression := mapped.type.text
    constraints := mapped.constraints
    description
    sample
    enumValues := mapped.enumValues
    isArray := mapped.isArray
    itemType := mapped.itemType.map TypeExpr.text }

/-- A model with the properties that its schema gives it. The models that they use are registered.
-/
def compileModel (mapper : Mapper) (name source : String) (blocked : List String) (schema : Node) :
    Mapping Model := do
  let gathered ← liftM (Gathered.ofSchema mapper.resolver schema)
  let properties ← gathered.properties.mapM fun p =>
    compileProperty mapper
      { model := name, base := ModelName.base name, property := p.1, blocked }
      (gathered.required.contains p.1) p.2
  let dependsOn := (← get).dependencies
  let description ← liftM (descriptionOf .model schema)
  return { name, properties, dependsOn, source, description }

/-- Compile a model on a registry. -/
def compileOn (mapper : Mapper) (registry : Registry) (name source : String)
    (blocked : List String) (schema : Node) : Except Fault (Model × Registry) :=
  match (compileModel mapper name source blocked schema).run.run { registry } with
  | (.ok model, state) => .ok (model, state.registry)
  | (.error fault, _) => .error fault

/-! ## All models -/

/-- Register the named schemas that become classes, and collect those that list texts. -/
def seed (c : ModelCompiler) : Except Fault (Registry × EnumCollection) := do
  (← c.mapper.components.fields).foldlM (fun (registry, enums) (name, schema) => do
    if ← Schema.isStringEnum schema then
      return (registry, enums.add (Naming.enumName name) (← EnumCollection.listed schema))
    else if ← Schema.isModel schema then
      return (registry.register {
        name := c.mapper.names.classOf name
        schema := some schema
        pointer := some (Pointer.toSchema name) }, enums)
    else return (registry, enums)) ({}, {})

/-- The schema of a model that is needed: its own, or the one that its pointer leads to. -/
def schemaOf (c : ModelCompiler) (e : Entry) : Except Fault (Option Node) :=
  match e.schema, e.pointer with
  | some schema, _ => .ok (some schema)
  | none, some pointer => if pointer = "" then .ok none else c.mapper.resolver.find pointer
  | none, none => .ok none

/-- The schema of a model that is needed, if it is an object. -/
def objectOf (c : ModelCompiler) (e : Entry) : Except Fault (Option Node) := do
  match ← c.schemaOf e with
  | some node => if ← node.isObject then return some node else return none
  | none => return none

/-- Compile the model that has waited longest, or leave it out. -/
def compileEntry (c : ModelCompiler) (w : Worklist) (e : Entry) : Except Fault Worklist := do
  match ← c.objectOf e with
  | none =>
    if c.strict then throw (.complaint (.missingSchema e.name) c.mapper.resolver.spec)
    else return { w with skipped := w.skipped ++ [e.name] }
  | some node =>
    let (model, registry) ← compileOn c.mapper w.registry e.name e.source [] node
    return { w with registry, compiled := w.compiled ++ [{ model, schema := node }] }

/-- Compile models until none is waiting, but no more than some number. -/
def drain (c : ModelCompiler) : Nat → Worklist → Except Fault Worklist
  | 0, w => .ok w
  | limit + 1, w =>
    match w.registry.pop? with
    | none => .ok w
    | some (e, registry) => do c.drain limit (← c.compileEntry { w with registry } e)

/-! ## Breaking cycles -/

/-- The models that each model must not use. -/
abbrev Blocked := List (String × List String)

/-- The models that a model must not use. -/
def blockedFor (blocked : Blocked) (name : String) : List String :=
  (blocked.lookup name).getD []

/-- Forbid a model the use of others. -/
def block (name : String) (targets : List String) : Blocked → Blocked
  | [] => [(name, targets)]
  | (n, known) :: rest =>
    if n = name then (n, known ++ targets) :: rest else (n, known) :: block name targets rest

/-- Models compiled, and the registry that they were compiled on. -/
abbrev Batching := List Compiled × Registry

/-- Compile the model of a name again, without the models that it must not use. -/
def recompile (c : ModelCompiler) (blocked : Blocked) (state : Batching) (name : String) :
    Except Fault Batching := do
  match state.1.find? (·.model.name == name) with
  | none => return state
  | some old =>
    let (model, registry) ← compileOn c.mapper state.2 name old.model.source
      (blockedFor blocked name) old.schema
    let replaced := state.1.map fun m => if m.model.name == name then { m with model } else m
    return (replaced, registry)

/-- The models that use a model left out, with the models left out that they use. -/
def dangling (w : Worklist) : Blocked :=
  w.compiled.filterMap fun m =>
    match m.model.dependsOn.filter w.skipped.contains with
    | [] => none
    | missing => some (m.model.name, missing)

/-- Models of which none uses a model left out: those that did are compiled again. -/
def withoutMissing (c : ModelCompiler) (w : Worklist) : Except Fault Batching :=
  let blocked := dangling w
  (blocked.map (·.1)).foldlM (c.recompile blocked) (w.compiled, w.registry)

/-- The order of the models compiled. -/
def orderOf (state : Batching) : ModelOrder :=
  ModelOrder.ofModels (state.1.map (·.model))

/-- Forbid each back edge to the model that it starts from. -/
def forbid (backEdges : List (String × String)) (blocked : Blocked) : Blocked :=
  backEdges.foldl (fun known e => block e.1 [e.2] known) blocked

/-- Compile the models that some back edges start from again, without these edges. -/
def cutEdges (c : ModelCompiler) (backEdges : List (String × String)) (blocked : Blocked)
    (state : Batching) : Except Fault Batching :=
  (firsts (backEdges.map (·.1))).foldlM (c.recompile (forbid backEdges blocked)) state

/-- Cut back edges until there are none. In every round some model loses a dependency for good, so
there are no more rounds than pairs of models; `fuel` counts the orders tried. -/
def breakCycles (c : ModelCompiler) : Nat → Blocked → Batching → Except Fault (List Model)
  | 0, _, _ => .error .endless
  | fuel + 1, blocked, state => do
    let order := orderOf state
    if order.backEdges.isEmpty then return order.models
    c.breakCycles fuel (forbid order.backEdges blocked)
      (← c.cutEdges order.backEdges blocked state)

/-- The models of a finished worklist in order, none using a model left out or closing a cycle. -/
def arrange (c : ModelCompiler) (w : Worklist) : Except Fault (List Model) := do
  c.breakCycles (w.compiled.length * w.compiled.length + 1) (dangling w) (← c.withoutMissing w)

/-! ## All models of a document -/

/-- The worklist that compiling begins with, and the enumerations among the named schemas. Extra
models come behind the named schemas. -/
def start (c : ModelCompiler) (extra : List (String × Node)) :
    Except Fault (Worklist × EnumCollection) := do
  let (registry, enums) ← c.seed
  let registry := extra.foldl (fun r e =>
    r.register {
      name := e.1
      schema := if e.2.isAbsent then none else some e.2
      source := "response" }) registry
  return ({ registry }, enums)

/-- What a worklist gives when none of its models is waiting. -/
def finish (c : ModelCompiler) (enums : EnumCollection) (w : Worklist) :
    Except Fault ModelBatch := do
  if !w.registry.waiting.isEmpty then throw .endless
  let models ← c.arrange w
  let walk := w.compiled.forM fun m =>
    EnumCollection.collect (some c.mapper.resolver) m.schema
  match walk.run.run enums with
  | (.ok (), found) => return { models, enums := found.enums, skipped := w.skipped }
  | (.error fault, _) => throw fault

/-- The models, enumerations and missing models of the document, with extra models given by their
names and schemas, if it needs no more models than some number. -/
def compileWithin (c : ModelCompiler) (limit : Nat) (extra : List (String × Node)) :
    Except Fault ModelBatch := do
  let (w, enums) ← c.start extra
  c.finish enums (← c.drain limit w)

/-- How many models a document may need. A schema that goes on making up models for itself reaches
any limit. -/
def modelLimit : Nat := 1000000

/-- The models, enumerations and missing models of the document, with extra models given by their
names and schemas. -/
def compileAll (c : ModelCompiler) (extra : List (String × Node)) : Except Fault ModelBatch :=
  c.compileWithin modelLimit extra

end ModelCompiler

end ApiScaffold
