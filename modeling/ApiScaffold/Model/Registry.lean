import ApiScaffold.Model.Names

set_option autoImplicit false

/-! # The registry of models

Every model that is needed is registered under its name, once, and waits there until it is taken.
Models taken and models waiting are, in this order, all models in the order of their registration.

A model made up for a schema in place claims a name: if the name belongs to a different schema, a
number is put behind it. -/

namespace ApiScaffold

/-- A model that is needed. -/
structure Entry where
  name : String
  /-- The schema, if it is there. -/
  schema : Option Node := none
  /-- Where the schema should be. -/
  pointer : Option String := none
  source : String := "component"
deriving DecidableEq, Inhabited

/-- Models by name, in the order of their registration. -/
structure Registry where
  taken : List Entry := []
  waiting : List Entry := []
deriving Inhabited

namespace Registry

/-- All models that were ever registered. -/
def entries (r : Registry) : List Entry := r.taken ++ r.waiting

/-- The model of a name. -/
def find? (r : Registry) (name : String) : Option Entry :=
  r.entries.find? (·.name == name)

/-- Whether there is a model of a name. -/
def contains (r : Registry) (name : String) : Bool :=
  (r.find? name).isSome

/-- How many models were registered. -/
def size (r : Registry) : Nat := r.entries.length

/-- Register a model; a name that is there keeps its model. -/
def register (r : Registry) (e : Entry) : Registry :=
  if r.contains e.name then r else { r with waiting := r.waiting ++ [e] }

/-- Take the model that has waited longest. -/
def pop? (r : Registry) : Option (Entry × Registry) :=
  match r.waiting with
  | [] => none
  | e :: rest => some (e, { taken := r.taken ++ [e], waiting := rest })

theorem entries_pop? {r : Registry} {e : Entry} {next : Registry} (h : r.pop? = some (e, next)) :
    next.entries = r.entries := by
  unfold pop? at h
  split at h
  · contradiction
  · rename_i e' rest hw
    simp only [Option.some.injEq, Prod.mk.injEq] at h
    obtain ⟨rfl, rfl⟩ := h
    simp [entries, hw]

/-! ## Claiming names -/

/-- Whether a schema is the one that a model has. -/
def sameSchema (known : Option Node) (schema : Node) : Except Fault Bool :=
  match known with
  | none => .ok false
  | some left =>
    if schema.isAbsent then .ok false
    else if left.samePlace schema then .ok true
    else left.equal schema

/-- The names to try for a model, from the plain one on. -/
def candidate (base : String) (attempt : Nat) : String :=
  ModelName.ofBase (if attempt ≤ 1 then base else base ++ toString attempt)

/-- The first name from some attempt on that is free or belongs to the same schema; `fuel` bounds
the number of names that can be taken. -/
def freeName (r : Registry) (base : String) (schema : Node) : Nat → Nat → Except Fault String
  | 0, attempt => .ok (candidate base attempt)
  | fuel + 1, attempt =>
    match r.find? (candidate base attempt) with
    | none => .ok (candidate base attempt)
    | some e => do
      -- a name taken for the same schema is shared
      if ← sameSchema e.schema schema then return candidate base attempt
      r.freeName base schema fuel (attempt + 1)

/-- Claim a name for a schema: its name, and the registry in which it has it. -/
def claim (r : Registry) (base : String) (schema : Node) (source : String) :
    Except Fault (String × Registry) := do
  let name ← r.freeName base schema r.size 1
  let known := if schema.isAbsent then none else some schema
  return (name, r.register { name, schema := known, source })

end Registry

end ApiScaffold
