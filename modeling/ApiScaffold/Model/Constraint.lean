import ApiScaffold.Document.Excerpt

set_option autoImplicit false

/-! # Constraints

What a property must satisfy, as a kind and perhaps a value. Most kinds are checked by a decorator
of their own. -/

namespace ApiScaffold

/-- The kinds of constraints. -/
inductive ConstraintKind where
  | optional
  | string
  | email
  | enum
  | minLength
  | maxLength
  | pattern
  | int
  | number
  | min
  | max
  | boolean
  | array
  /-- The value is checked by the class that it belongs to. -/
  | nested
  /-- The class that a value belongs to. -/
  | type
  | other (name : String)
deriving DecidableEq, Repr, Inhabited

namespace ConstraintKind

/-- The names of the kinds that are known. -/
def known : List (String × ConstraintKind) :=
  [("optional", .optional), ("string", .string), ("email", .email), ("enum", .enum),
    ("min_length", .minLength), ("max_length", .maxLength), ("pattern", .pattern), ("int", .int),
    ("number", .number), ("min", .min), ("max", .max), ("boolean", .boolean), ("array", .array),
    ("nested", .nested), ("type", .type)]

/-- The kind of a name. -/
def ofName (name : String) : ConstraintKind :=
  (known.lookup name).getD (.other name)

/-- The name of a kind. -/
def name : ConstraintKind → String
  | .optional => "optional"
  | .string => "string"
  | .email => "email"
  | .enum => "enum"
  | .minLength => "min_length"
  | .maxLength => "max_length"
  | .pattern => "pattern"
  | .int => "int"
  | .number => "number"
  | .min => "min"
  | .max => "max"
  | .boolean => "boolean"
  | .array => "array"
  | .nested => "nested"
  | .type => "type"
  | .other name => name

theorem ofName_name (k : ConstraintKind) : ofName k.name = k ∨ ∃ n, k = .other n := by
  cases k <;> first | exact Or.inr ⟨_, rfl⟩ | exact Or.inl (by decide)

/-- The decorator that checks a kind of constraint. -/
def decorator? : ConstraintKind → Option String
  | .optional => some "IsOptional"
  | .string => some "IsString"
  | .email => some "IsEmail"
  | .enum => some "IsEnum"
  | .minLength => some "MinLength"
  | .maxLength => some "MaxLength"
  | .pattern => some "Matches"
  | .int => some "IsInt"
  | .number => some "IsNumber"
  | .min => some "Min"
  | .max => some "Max"
  | .boolean => some "IsBoolean"
  | .array => some "IsArray"
  | .nested => some "ValidateNested"
  | .type | .other _ => none

end ConstraintKind

/-- A constraint on a property; the value is null for constraints that have none. -/
structure Constraint where
  kind : ConstraintKind
  value : Excerpt := .null
deriving DecidableEq, Repr, Inhabited

/-- The text of a constraint: its kind, with the value in brackets. -/
def Constraint.text (c : Constraint) : String :=
  if c.value.isNull then c.kind.name
  else c.kind.name ++ "(" ++ c.value.value.display ++ ")"

/-- The constraints of a value of a class, or of a list of such values. -/
def Constraint.ofClass (name : String) (each : Bool) : List Constraint :=
  [{ kind := .nested, value := if each then .text "each" else .null },
    { kind := .type, value := .text name }]

end ApiScaffold
