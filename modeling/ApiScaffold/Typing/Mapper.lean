import ApiScaffold.Model.Basic
import ApiScaffold.Model.Registry
import ApiScaffold.Naming
import ApiScaffold.Typing.TypeExpr

set_option autoImplicit false

/-! # From schemas to types

The type of a property follows from its schema: references to models become the names of their
classes, references to simple schemas are looked through, unions and lists are mapped part by part,
and an object in place becomes a class of its own unless a named schema has the same properties.
Classes that are needed are registered on the way.

The type of a body follows the same rules, but registers nothing: an object in place stays `any`. -/

namespace ApiScaffold

/-- What the mapping of schemas looks up. -/
structure Mapper where
  /-- The named schemas. -/
  components : Node
  resolver : Resolver
  names : ModelNames
deriving DecidableEq

/-- What the mapping of schemas leaves behind. -/
structure MapperState where
  registry : Registry := {}
  /-- The models that the mapped properties use. -/
  dependencies : List String := []
deriving Inhabited

/-- The property that is being mapped. -/
structure MappingContext where
  /-- The model that the property belongs to. -/
  model : String
  /-- The name from which names of models in place are made. -/
  base : String
  property : String
  /-- Models that must not be used. -/
  blocked : List String := []

/-- A step of the mapping; what it registered stays, also when it fails. -/
abbrev Mapping := ExceptT Fault (StateM MapperState)

namespace Mapper

/-- The mapper of a document. -/
def ofDocument (document : Document) (spec : Option String) : Except Fault Mapper := do
  let components ← Schema.components document.top
  return { components, resolver := ⟨document, spec⟩, names := ← ModelNames.ofSchemas components }

/-- How deep mapping can go: between two references it goes down in a schema, and no reference is
followed again while it is being followed. -/
def depth (m : Mapper) (schema : Node) : Nat :=
  let size := m.resolver.document.root.size + schema.document.root.size + schema.value.size + 2
  size * size

/-! ## State -/

/-- Whether a property must not use a model. -/
def isBlocked (ctx : MappingContext) (name : String) : Bool :=
  name == ctx.model || ctx.blocked.contains name

/-- Register a model. -/
def register (e : Entry) : Mapping Unit :=
  modify fun s => { s with registry := s.registry.register e }

/-- Claim the name of a model for a schema. -/
def claim (base : String) (schema : Node) (source : String) : Mapping String := do
  let (name, registry) ← liftM ((← get).registry.claim base schema source)
  modify fun s => { s with registry }
  return name

/-- Note that a model is used. -/
def depend (name : String) : Mapping Unit :=
  modify fun s => { s with dependencies := addNew s.dependencies name }

/-- The type of a class, noting that it is used. -/
def useClass (name : String) : Mapping MappedType := do
  depend name
  return .ofClass name

/-! ## Models in place -/

/-- Whether two lists have the same members. -/
def sameMembers (xs ys : List Json) : Bool :=
  xs.all (·.among ys) && ys.all (·.among xs)

/-- The first of some named schemas that is not `schema` itself and has properties of the given
names. -/
def firstMatch (schema : Node) (names : List Json) : List (String × Node) →
    Except Fault (Option String)
  | [] => .ok none
  | (name, component) :: rest => do
    if !(← component.isObject) || component.samePlace schema then
      firstMatch schema names rest
    else
      let properties ← component.get "properties"
      let found ← if ← properties.truthy then properties.members else pure []
      if !found.isEmpty && sameMembers found names then return some name
      else firstMatch schema names rest

/-- The first named schema whose properties have the same names as those of a schema. -/
def structuralMatch (m : Mapper) (schema : Node) : Except Fault (Option String) := do
  let properties ← schema.get "properties"
  let names ← if ← properties.truthy then properties.members else pure []
  if names.isEmpty then return none
  firstMatch schema names (← m.components.fields)

/-- Claim a name for the schema in place of a property; none if the property must not use it. -/
def synthesize (schema : Node) (ctx : MappingContext) (suffix : String) :
    Mapping (Option String) := do
  let name ← claim (ctx.base ++ Naming.capitalize ctx.property ++ suffix) schema "inline"
  if isBlocked ctx name then return none
  depend name
  return some name

/-- The type of an object in place. -/
def mapInlineObject (m : Mapper) (schema : Node) (ctx : MappingContext) : Mapping MappedType := do
  match ← liftM (m.structuralMatch schema) with
  | some component =>
    let name := m.names.classOf component
    if isBlocked ctx name then return .any
    let found ← liftM (m.components.get component)
    register
      { name, schema := if found.isAbsent then none else some found,
        pointer := some (Pointer.toSchema component) }
    useClass name
  | none =>
    match ← synthesize schema ctx "" with
    | some name => return .ofClass name
    | none => return .any

/-! ## Simple types -/

/-- A constraint with the value of a field, if the field is there. -/
def bound (schema : Node) (field : String) (kind : ConstraintKind) :
    Except Fault (List Constraint) := do
  let value ← schema.get field
  if value.isAbsent then return []
  return [{ kind, value := ← value.excerpt }]

/-- The type of a text. -/
def mapString (schema : Node) (ctx : MappingContext) : Except Fault MappedType := do
  let email ← do
    if (← (← schema.get "format").opened) = .str "email" then
      pure [{ kind := ConstraintKind.email : Constraint }]
    else pure []
  let values ← schema.get "enum"
  let (enumValues, enum) ← do
    if ← values.truthy then
      pure (← (← values.entries).mapM Node.excerpt,
        [({ kind := .enum, value := .text (Naming.enumName ctx.property) } : Constraint)])
    else pure ([], [])
  let minLength ← bound schema "minLength" .minLength
  let maxLength ← bound schema "maxLength" .maxLength
  let pattern ← schema.get "pattern"
  let patterns ← if ← pattern.truthy then bound schema "pattern" .pattern else pure []
  return {
    type := .named "string"
    constraints := [{ kind := .string }] ++ email ++ enum ++ minLength ++ maxLength ++ patterns
    enumValues }

/-- The type of a number. -/
def mapNumber (schema : Node) (isInteger : Bool) : Except Fault MappedType := do
  let minimum ← bound schema "minimum" .min
  let maximum ← bound schema "maximum" .max
  return {
    type := .named "number"
    constraints := [{ kind := if isInteger then .int else .number }] ++ minimum ++ maximum }

/-! ## Compound types -/

/-- The way to map the schemas inside a schema. The first argument lists the references that are
being followed. -/
abbrev Descent := List String → Node → Mapping MappedType

/-- The type that a reference to a simple schema stands for. -/
def mapAlias (descend : Descent) (following : List String) (pointer : String) (target : Node) :
    Mapping MappedType := do
  if ← liftM (Schema.isStringEnum target) then
    let name := Naming.enumName (Pointer.name pointer)
    let values ← liftM (do (← (← target.get "enum").entries).mapM Node.excerpt)
    return {
      type := .named name
      constraints := [{ kind := .string }, { kind := .enum, value := .text name }]
      enumValues := values }
  if following.contains pointer then return .any
  descend (pointer :: following) target

/-- The type that a reference stands for. A reference to a named schema has the name of its class,
also when the schema is not there. -/
def mapReference (m : Mapper) (descend : Descent) (following : List String) (pointer : String)
    (ctx : MappingContext) : Mapping MappedType := do
  let target ← liftM (m.resolver.find pointer)
  match target with
  | some schema =>
    if !(← liftM (Schema.isModel schema)) then
      return ← mapAlias descend following pointer schema
  | none => pure ()
  if Pointer.isComponent pointer then
    -- the name is known without the schema; one that is missing is noticed when its turn comes
    let name := m.names.classOf (Pointer.name pointer)
    if isBlocked ctx name then return .any
    register { name, schema := target, pointer := some pointer }
    useClass name
  else
    match target with
    | none => return .any
    | some schema =>
      let name ← claim (Naming.capitalize (Pointer.name pointer)) schema "reference"
      if isBlocked ctx name then return .any
      useClass name

/-- The types of the variants of a union that are not the null type. -/
def mapVariants (descend : Descent) (following : List String) :
    List Node → Mapping (List MappedType)
  | [] => return []
  | variant :: rest => do
    if (← liftM (Schema.typeOf variant)) = .str "null" then mapVariants descend following rest
    else
      let mapped ← descend following variant
      return mapped :: (← mapVariants descend following rest)

/-- The type of a union. If all its variants have one type it is the type of the first. -/
def mapUnion (descend : Descent) (following : List String) (variants : List Node) :
    Mapping MappedType := do
  match ← mapVariants descend following variants with
  | [] => return .any
  | first :: rest =>
    match TypeExpr.distinct ((first :: rest).map (·.type)) with
    | [] | [_] => return first
    | types => return { type := .union types }

/-- The type of a list. Objects in place become a class named for the items. -/
def mapArray (descend : Descent) (following : List String) (schema : Node)
    (ctx : MappingContext) : Mapping MappedType := do
  let array : Constraint := { kind := .array }
  let unknown : MappedType :=
    { type := .list .any, constraints := [array], itemType := some .any }
  let items ← liftM (schema.get "items")
  if !(← liftM items.isObject) then return unknown
  if ← liftM (Schema.isInlineObject items) then
    match ← synthesize items ctx "Item" with
    | none => return unknown
    | some name =>
      return {
        type := .listOfClass name
        constraints := array :: Constraint.ofClass name true
        itemType := some (.named name) }
  let item ← descend following items
  let nested :=
    if item.constraints.any (·.kind = .nested) then Constraint.ofClass item.type.text true else []
  return { type := .list item.type, constraints := array :: nested, itemType := some item.type }

/-- The type of an object of which no properties are known. -/
def mapFreeObject (descend : Descent) (following : List String) (schema : Node) :
    Mapping MappedType := do
  let values ← liftM (schema.get "additionalProperties")
  if (← liftM values.isObject) && (← liftM values.truthy) then
    return { type := .record (← descend following values).type }
  return { type := .named "object" }

/-- The single member of `allOf`, if it has one member. -/
def onlyMember? (schema : Node) : Except Fault (Option Node) := do
  let allOf ← (← schema.get "allOf").settle
  match allOf.value with
  | .arr [member] => return some (allOf.part (.index 0) member)
  | _ => return none

/-- The variants of a union, if a schema lists any. -/
def variants (schema : Node) : Except Fault (List Node) := do
  let oneOf ← schema.get "oneOf"
  let listed ← if ← oneOf.truthy then pure oneOf else schema.get "anyOf"
  let here ← listed.settle
  match here.value with
  | .arr items => return here.itemNodes items
  | _ => return []

/-- The type of a property with the references that are being followed; `fuel` bounds the depth. -/
def mapWithin (m : Mapper) (ctx : MappingContext) : Nat → Descent
  | 0, _, _ => throw .endless
  | fuel + 1, following, schema => do
    if !(← liftM schema.isObject) then return .any
    if let some pointer ← liftM schema.pointer? then
      return ← m.mapReference (m.mapWithin ctx fuel) following pointer ctx
    if let some member ← liftM (onlyMember? schema) then
      return ← m.mapWithin ctx fuel following member
    match ← liftM (variants schema) with
    | first :: rest => mapUnion (m.mapWithin ctx fuel) following (first :: rest)
    | [] =>
      let type ← liftM (Schema.typeOf schema)
      if type = .str "array" then return ← mapArray (m.mapWithin ctx fuel) following schema ctx
      if ← liftM (Schema.isInlineObject schema) then return ← m.mapInlineObject schema ctx
      match type with
      | .str "string" => liftM (mapString schema ctx)
      | .str "number" => liftM (mapNumber schema false)
      | .str "integer" => liftM (mapNumber schema true)
      | .str "boolean" => return { type := .named "boolean", constraints := [{ kind := .boolean }] }
      | .str "object" => mapFreeObject (m.mapWithin ctx fuel) following schema
      | _ => return .any

/-- The type of a property. -/
def mapProperty (m : Mapper) (schema : Node) (ctx : MappingContext) : Mapping MappedType :=
  m.mapWithin ctx (m.depth schema) [] schema

/-! ## Bodies -/

/-- The types that simple schemas are written as. -/
def simpleTypes : List (String × String) :=
  [("string", "string"), ("number", "number"), ("integer", "number"), ("boolean", "boolean")]

/-- The type of a body with the references that are being followed; `fuel` bounds the depth. -/
def bodyWithin (m : Mapper) : Nat → List String → Node → Except Fault TypeExpr
  | 0, _, _ => throw .endless
  | fuel + 1, following, schema => do
    if !(← schema.isObject) then return .any
    match ← schema.pointer? with
    | some pointer =>
      match ← m.resolver.locate pointer with
      | none => return .any
      | some target =>
        if ← Schema.isStringEnum target then
          return .named (Naming.enumName (Pointer.name pointer))
        if !(← Schema.isModel target) then
          if following.contains pointer then return .any
          return ← m.bodyWithin fuel (pointer :: following) target
        if Pointer.isComponent pointer then
          return .named (m.names.classOf (Pointer.name pointer))
        return .any
    | none =>
      let type ← Schema.typeOf schema
      if type = .str "array" then
        let items ← schema.get "items"
        if !(← items.isObject) then return .list .any
        if ← Schema.isInlineObject items then return .list .any
        return .list (← m.bodyWithin fuel following items)
      match type with
      | .str name => return .named ((simpleTypes.lookup name).getD "any")
      | .arr _ | .obj _ => throw .unfit
      | _ => return .any

/-- The type of a body. -/
def mapBody (m : Mapper) (schema : Node) : Except Fault TypeExpr :=
  m.bodyWithin (m.depth schema) [] schema

end Mapper

end ApiScaffold
