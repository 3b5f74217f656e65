import ApiScaffold.Model.Basic
import ApiScaffold.Naming
import ApiScaffold.Schema.Kind

set_option autoImplicit false

/-! # Collecting enumerations

A walk through the properties of a schema collects an enumeration for every property that lists
texts, or holds a list of such values. The enumeration is named for the property, and the first one
of a name wins. -/

namespace ApiScaffold

/-- The enumerations found so far, and the nodes visited. -/
structure EnumCollection where
  enums : List Enumeration := []
  visited : List Node := []
deriving Inhabited

/-- A step of the walk; what it found stays, also when it fails. -/
abbrev EnumWalk := ExceptT Fault (StateM EnumCollection)

namespace EnumCollection

/-- The enumeration of a name. -/
def find? (c : EnumCollection) (name : String) : Option Enumeration :=
  c.enums.find? (·.name == name)

/-- The enumeration of some values. -/
def enumeration (name : String) (values : List Excerpt) : Enumeration :=
  { name, members := values.map fun v => { key := Naming.enumKey v.value, value := v } }

/-- Add an enumeration, unless there is one of its name or it has no values. -/
def add (c : EnumCollection) (name : String) (values : List Excerpt) : EnumCollection :=
  if (c.find? name).isSome || values.isEmpty then c
  else { c with enums := c.enums ++ [enumeration name values] }

/-- Whether a node has been visited. -/
def hasVisited (c : EnumCollection) (n : Node) : Bool :=
  c.visited.any (·.samePlace n)

/-! ## The walk -/

/-- The values that a schema lists. -/
def listed (schema : Node) : Except Fault (List Excerpt) := do
  (← (← schema.get "enum").entries).mapM Node.excerpt

/-- The object behind a schema. Without a resolver references lead nowhere. -/
def objectBehind (resolver : Option Resolver) (schema : Node) : Except Fault (Option Node) := do
  match resolver with
  | some r => r.objectAt schema
  | none =>
    if ← schema.isReference then return none
    if ← schema.isObject then return some schema else return none

/-- Add the enumeration of a property. -/
def addFor (property : String) (schema : Node) : EnumWalk Unit := do
  let values ← liftM (listed schema)
  modify fun c => c.add (Naming.enumName property) values

/-- Look at one property: an enumeration is added, a list of an enumeration too, and anything else
is walked through. -/
def walkProperty (walk : Node → EnumWalk Unit) (name : String) (schema : Node) :
    EnumWalk Unit := do
  if ← liftM schema.isReference then walk schema
  else if !(← liftM schema.isObject) then return ()
  else if ← liftM (Schema.isStringEnum schema) then addFor name schema
  else if (← liftM (Schema.typeOf schema)) = .str "array" then
    let items ← liftM (schema.get "items")
    let listsTexts ← liftM do
      if ← items.isReference then return false
      if !(← items.isObject) then return false
      Schema.isStringEnum items
    if listsTexts then addFor name items else walk items
  else walk schema

/-- Walk through a schema; `fuel` bounds the depth. -/
def walkWithin (resolver : Option Resolver) : Nat → Node → EnumWalk Unit
  | 0, _ => throw .endless
  | fuel + 1, schema => do
    match ← liftM (objectBehind resolver schema) with
    | none => return ()
    | some n =>
      if (← get).hasVisited n then return ()
      modify fun c => { c with visited := n :: c.visited }
      for member in ← liftM (do (← n.get "allOf").entriesIfAny) do
        walkWithin resolver fuel member
      for (name, property) in ← liftM (do (← n.get "properties").fieldsIfAny) do
        walkProperty (walkWithin resolver fuel) name property

/-- Walk through a schema. On the way down every node is new, so the depth is bounded by the number
of values in reach. -/
def collect (resolver : Option Resolver) (schema : Node) : EnumWalk Unit :=
  let reach := (resolver.map fun r => r.document.root.size).getD 0
  walkWithin resolver (reach + schema.document.root.size + schema.value.size + 2) schema

end EnumCollection

end ApiScaffold
