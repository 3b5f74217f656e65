import ApiScaffold.Document.Pointer

set_option autoImplicit false

/-! # Kinds of schemas

Which schemas name a type, list values, or become classes. -/

namespace ApiScaffold.Schema

/-- The named schemas of a document; null when there are none. -/
def components (document : Node) : Except Fault Node := do
  let parts ← document.get "components"
  let schemas ← if ← parts.truthy then parts.get "schemas"
    else pure (parts.part (.key "schemas") .null)
  if ← schemas.truthy then return schemas
  else return ⟨schemas.document, schemas.trail, .obj []⟩

/-- The first of some types that is not the null type. -/
def firstType : List Node → Except Fault Json
  | [] => .ok .null
  | type :: rest => do
    let value ← type.opened
    if value = .str "null" then firstType rest else return value

/-- The type of a schema, null when it has none; of several types the first that is not null. -/
def typeOf (schema : Node) : Except Fault Json := do
  if ← schema.isObject then
    let here ← (← schema.get "type").settle
    match here.value with
    | .arr items => firstType (here.itemNodes items)
    | value => return value
  else return .null

/-- Whether a schema describes an object in place, by its properties. -/
def isInlineObject (schema : Node) : Except Fault Bool := do
  if !(← schema.isObject) then return false
  if ← schema.isReference then return false
  if !(← (← schema.get "properties").truthy) then return false
  let type ← typeOf schema
  return type = .null || type = .str "object"

/-- Whether a schema lists the texts that a value can be. -/
def isStringEnum (schema : Node) : Except Fault Bool := do
  if (← typeOf schema) = .str "string" then (← schema.get "enum").truthy else return false

/-- Whether a schema becomes a class, and not another name of a simple type. -/
def isModel (schema : Node) : Except Fault Bool := do
  if !(← schema.isObject) then return false
  if ← schema.isReference then return false
  if (← typeOf schema) = .str "object" then return true
  if ← schema.has "properties" then return true
  schema.has "allOf"

end ApiScaffold.Schema
