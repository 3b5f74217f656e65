import ApiScaffold.Document.Pointer

set_option autoImplicit false

/-! # The properties of a schema

A schema has its own properties and those of the members of its `allOf`, with references followed. A
node is visited once; a property that is met again keeps its place and takes the later schema, so
the schema's own properties win over those of its members. -/

namespace ApiScaffold

/-- The properties met so far, the names of those that are required, and the nodes visited. -/
structure Gathered where
  properties : List (String × Node) := []
  required : List String := []
  visited : List Node := []
deriving DecidableEq

namespace Gathered

/-- Give a property its schema; a property that is there keeps its place. -/
def put (name : String) (schema : Node) : List (String × Node) → List (String × Node)
  | [] => [(name, schema)]
  | (n, s) :: rest => if n = name then (name, schema) :: rest else (n, s) :: put name schema rest

/-- Whether a node has been visited. -/
def hasVisited (g : Gathered) (n : Node) : Bool :=
  g.visited.any (·.samePlace n)

/-- The texts among some values. -/
def textsOf (values : List Json) : List String :=
  values.filterMap fun
    | .str s => some s
    | _ => none

/-- Add what a node says itself, without its members. -/
def addOwn (g : Gathered) (n : Node) : Except Fault Gathered := do
  let properties := (← (← n.get "properties").fieldsIfAny).foldl
    (fun known p => put p.1 p.2 known) g.properties
  let required ← n.get "required"
  let names ← if ← required.truthy then required.members else pure []
  return { g with properties, required := g.required ++ textsOf names }

/-- Add what a node and its members say; `fuel` bounds the depth. -/
def addWithin (resolver : Resolver) : Nat → Gathered → Node → Except Fault Gathered
  | 0, _, _ => .error .endless
  | fuel + 1, g, schema => do
    match ← resolver.objectAt schema with
    | none => return g
    | some n =>
      if g.hasVisited n then return g
      -- the members come first, so that what the node says itself is the later word
      let members ← (← n.get "allOf").entriesIfAny
      let g ← members.foldlM (addWithin resolver fuel) { g with visited := n :: g.visited }
      g.addOwn n

/-- What a schema and its members say. On the way down every node is new, so the depth is bounded by
the number of values in reach. -/
def ofSchema (resolver : Resolver) (schema : Node) : Except Fault Gathered :=
  addWithin resolver
    (resolver.document.root.size + schema.document.root.size + schema.value.size + 2) {} schema

end Gathered

end ApiScaffold
