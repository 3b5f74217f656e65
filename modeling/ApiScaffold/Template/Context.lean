import ApiScaffold.Record.Display

set_option autoImplicit false

/-! # Contexts of templates

A template is filled in from a context, which gives names their values. To use a name that the
context lacks is a fault. -/

namespace ApiScaffold.Template

/-- A value that a template can use. -/
inductive Value where
  | json (v : Json)
  | models (all : List Model)
  | enums (all : List Enumeration)
  | endpoints (all : List Endpoint)
deriving DecidableEq, Repr, Inhabited

namespace Value

/-- The value in running text. -/
def display : Value → String
  | .json v => v.display
  | .models all => Record.inspectList Record.inspectModel all
  | .enums all => Record.inspectList Record.inspectEnumeration all
  | .endpoints all => Record.inspectList Record.inspectEndpoint all

/-- How many things are in the value. -/
def count : Value → Except Fault Nat
  | .json (.arr items) => .ok items.length
  | .json (.str s) => .ok s.length
  | .json (.obj fields) => .ok fields.length
  | .json _ => .error .unfit
  | .models all => .ok all.length
  | .enums all => .ok all.length
  | .endpoints all => .ok all.length

/-- What going through the value meets, in running text. -/
def texts : Value → Except Fault (List String)
  | .json (.arr items) => .ok (items.map Json.display)
  | .json (.str s) => .ok (s.toList.map String.singleton)
  | .json (.obj fields) => .ok (fields.map (·.1))
  | _ => .error .unfit

/-- Whether the value counts as true. -/
def truthy : Value → Bool
  | .json v => v.truthy
  | .models all => !all.isEmpty
  | .enums all => !all.isEmpty
  | .endpoints all => !all.isEmpty

end Value

/-- Values by name. -/
abbrev Context := List (String × Value)

namespace Context

/-- The value of a name. -/
def value (c : Context) (name : String) : Except Fault Value :=
  match c.lookup name with
  | some v => .ok v
  | none => .error .undefinedName

/-- The models under their name. -/
def models (c : Context) : Except Fault (List Model) := do
  match ← c.value "models" with
  | .models all => return all
  | _ => throw .unfit

/-- The enumerations under their name. -/
def enums (c : Context) : Except Fault (List Enumeration) := do
  match ← c.value "enums" with
  | .enums all => return all
  | _ => throw .unfit

/-- The endpoints under their name. -/
def endpoints (c : Context) : Except Fault (List Endpoint) := do
  match ← c.value "endpoints" with
  | .endpoints all => return all
  | _ => throw .unfit

end Context

end ApiScaffold.Template
