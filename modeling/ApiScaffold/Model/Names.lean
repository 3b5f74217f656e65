import ApiScaffold.Schema.Kind

set_option autoImplicit false

/-! # Names of classes

The class of a schema has the name of the schema with `Dto` behind it, unless another name was given
to it. -/

namespace ApiScaffold

namespace ModelName

/-- What the names of classes end with. -/
def ending : String := "Dto"

/-- The name of the class for a base name. -/
def ofBase (base : String) : String := base ++ ending

/-- The name of a class without its ending, if something is left then. -/
def base (name : String) : String :=
  match Text.dropBack? ending.toList name.toList with
  | some [] => name
  | some rest => String.ofList rest
  | none => name

theorem base_ofBase {b : String} (h : b ≠ "") : base (ofBase b) = b := by
  have hdrop : Text.dropBack? ending.toList (ofBase b).toList = some b.toList := by
    rw [Text.dropBack?_eq_some_iff]
    simp [ofBase]
  unfold base
  rw [hdrop]
  cases hchars : b.toList with
  | nil => exact absurd (String.toList_eq_nil_iff.mp hchars) h
  | cons ch rest =>
      dsimp only
      rw [← hchars, String.ofList_toList]

end ModelName

/-- The names of schemas with the names of their classes, in the order in which they were given. -/
structure ModelNames where
  entries : List (String × String) := []
deriving DecidableEq, Repr, Inhabited

namespace ModelNames

/-- Give a schema the name of its class; a schema that has one keeps its place. -/
def give (schema className : String) : List (String × String) → List (String × String)
  | [] => [(schema, className)]
  | (s, c) :: rest =>
    if s = schema then (schema, className) :: rest else (s, c) :: give schema className rest

/-- Give a schema the name of its class. -/
def register (names : ModelNames) (schema className : String) : ModelNames :=
  ⟨give schema className names.entries⟩

/-- The name of the class of a schema. -/
def classOf (names : ModelNames) (schema : String) : String :=
  (names.entries.lookup schema).getD (ModelName.ofBase schema)

/-- The first schema whose class has a name. -/
def schemaOf? (names : ModelNames) (className : String) : Option String :=
  (names.entries.find? (·.2 == className)).map (·.1)

/-- The names of all schemas that a node lists. -/
def ofSchemas (schemas : Node) : Except Fault ModelNames := do
  (← schemas.entriesIfAny).foldlM (fun names entry => do
    let key ← entry.opened
    if !key.isHashable then throw .unfit
    return names.register key.display (ModelName.ofBase key.display)) {}

end ModelNames

end ApiScaffold
