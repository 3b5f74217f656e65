import ApiScaffold.Firsts
import ApiScaffold.Model.Constraint

set_option autoImplicit false

/-! # Models

A model describes a class of data: its properties and the models that they depend on. An enumeration
describes a closed list of values. -/

namespace ApiScaffold

/-! ## Properties -/

/-- A property of a model. -/
structure Property where
  name : String
  required : Bool := false
  typeExpression : String := "any"
  constraints : List Constraint := []
  description : Option String := none
  sample : Excerpt := .null
  enumValues : List Excerpt := []
  isArray : Bool := false
  itemType : Option String := none
deriving DecidableEq, Repr, Inhabited

namespace Property

/-- The marker of a property that may be missing. -/
def optionalMarker : Constraint := { kind := .optional }

/-- The constraints with the optional marker in front exactly when the property may be missing. -/
def marked (required : Bool) (constraints : List Constraint) : List Constraint :=
  let others := constraints.filter (·.kind != .optional)
  if required then others else optionalMarker :: others

/-- A property whose optional marker agrees with `required`. -/
def settled (p : Property) : Property :=
  { p with constraints := marked p.required p.constraints }

theorem marked_marked (required : Bool) (constraints : List Constraint) :
    marked required (marked required constraints) = marked required constraints := by
  cases required <;> simp [marked, optionalMarker]

theorem settled_settled (p : Property) : p.settled.settled = p.settled := by
  simp [settled, marked_marked]

/-- How the property is declared: a question mark says that it may be missing. -/
def declaration (p : Property) : String :=
  if p.required then p.name else p.name ++ "?"

/-- Whether the property has a constraint of a kind. -/
def hasConstraint (p : Property) (kind : ConstraintKind) : Bool :=
  p.constraints.any (·.kind == kind)

end Property

/-! ## Models and enumerations -/

/-- A class of data. -/
structure Model where
  name : String
  properties : List Property := []
  /-- The names of the models that the properties use. -/
  dependsOn : List String := []
  /-- Where the model comes from. -/
  source : String := "component"
  description : Option String := none
deriving DecidableEq, Repr, Inhabited

/-- The first property of a name. -/
def Model.property? (m : Model) (name : String) : Option Property :=
  m.properties.find? (·.name == name)

/-- A member of an enumeration. -/
structure EnumMember where
  key : String
  value : Excerpt
deriving DecidableEq, Repr, Inhabited

/-- A closed list of values with a name. -/
structure Enumeration where
  name : String
  members : List EnumMember := []
deriving DecidableEq, Repr, Inhabited

/-- All models and enumerations of a document, and the models that were left out for want of a
schema. -/
structure ModelBatch where
  models : List Model := []
  enums : List Enumeration := []
  skipped : List String := []
deriving DecidableEq, Repr, Inhabited

/-- The first model of a name. -/
def ModelBatch.model? (b : ModelBatch) (name : String) : Option Model :=
  b.models.find? (·.name == name)

/-- The names of the models. -/
def ModelBatch.names (b : ModelBatch) : List String :=
  b.models.map (·.name)

end ApiScaffold
