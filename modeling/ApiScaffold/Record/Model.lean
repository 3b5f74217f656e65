import ApiScaffold.Model.Basic
import ApiScaffold.Record.Reading

set_option autoImplicit false

/-! # Models as records

Models, their properties and enumerations as JSON objects and back. Reading restores what writing
gives; on the way it puts the optional marker of a property in order and drops repeated
dependencies. -/

namespace ApiScaffold.Record

/-- A text, or null for none. -/
def writeText? (s : Option String) : Json :=
  s.elim .null .str

/-- A list of texts. -/
def writeTexts (texts : List String) : Json :=
  .arr (texts.map .str)

/-- Any value. -/
def excerpt (v : Json) : Reading Excerpt := .good (.plain v)

/-! ## Constraints and properties -/

/-- A constraint as a record. -/
def writeConstraint (c : Constraint) : Json :=
  .obj [("kind", .str c.kind.name), ("value", c.value.value)]

/-- The constraint that a record describes. -/
def readConstraint (v : Json) : Reading Constraint :=
  (object v).andThen fun fs =>
    (fun kind value => { kind := .ofName kind, value := value })
      <$> need fs "kind" text
      <*> field fs "value" .null excerpt

/-- A property as a record. -/
def writeProperty (p : Property) : Json :=
  .obj [("name", .str p.name), ("required", .bool p.required),
    ("type_expression", .str p.typeExpression),
    ("constraints", .arr (p.constraints.map writeConstraint)),
    ("description", writeText? p.description), ("example", p.sample.value),
    ("enum_values", .arr (p.enumValues.map (·.value))), ("is_array", .bool p.isArray),
    ("item_type", writeText? p.itemType)]

/-- The property that a record describes, with its optional marker in order. -/
def readProperty (v : Json) : Reading Property :=
  (object v).andThen fun fs =>
    (fun name required typeExpression constraints description sample enumValues isArray itemType =>
      Property.settled
        { name, required, typeExpression, constraints, description, sample, enumValues, isArray,
          itemType })
      <$> need fs "name" text
      <*> field fs "required" false truth
      <*> field fs "type_expression" "any" text
      <*> field fs "constraints" [] (list readConstraint)
      <*> field fs "description" none (optional text)
      <*> field fs "example" .null excerpt
      <*> field fs "enum_values" [] (list excerpt)
      <*> field fs "is_array" false truth
      <*> field fs "item_type" none (optional text)

/-! ## Models -/

/-- A model as a record. -/
def writeModel (m : Model) : Json :=
  .obj [("name", .str m.name), ("properties", .arr (m.properties.map writeProperty)),
    ("depends_on", writeTexts m.dependsOn), ("source", .str m.source),
    ("description", writeText? m.description)]

/-- Add a value at the end of a list that holds none like it. -/
def addUnlike (values : List Json) (value : Json) : List Json :=
  if value.among values then values else values ++ [value]

/-- What a list of dependencies goes through before it is read: repetitions are dropped, and a value
that counts as false is no dependency at all. -/
def distinctEntries (v : Json) : Reading (List Json) :=
  if !v.truthy then .good []
  else
    match v with
    | .arr items => .good (items.foldl addUnlike [])
    | .str s => .good ((s.toList.map fun c => Json.str (String.singleton c)).foldl addUnlike [])
    | .obj fields => .good ((fields.map fun f => Json.str f.1).foldl addUnlike [])
    | _ => .stopped .unfit

/-- The model that a record describes. -/
def readModel (v : Json) : Reading Model :=
  (object v).andThen fun fs =>
    (fun name properties dependsOn source description =>
      { name, properties, dependsOn, source, description })
      <$> need fs "name" text
      <*> field fs "properties" [] (list readProperty)
      <*> field fs "depends_on" [] (fun d => (distinctEntries d).andThen (itemsFrom text 0))
      <*> field fs "source" "component" text
      <*> field fs "description" none (optional text)

/-- A member of an enumeration as a record. -/
def writeEnumMember (m : EnumMember) : Json :=
  .obj [("key", .str m.key), ("value", m.value.value)]

/-- The member of an enumeration that a record describes. -/
def readEnumMember (v : Json) : Reading EnumMember :=
  (object v).andThen fun fs =>
    (fun key value => { key, value }) <$> need fs "key" text <*> need fs "value" excerpt

/-- An enumeration as a record. -/
def writeEnumeration (e : Enumeration) : Json :=
  .obj [("name", .str e.name), ("values", .arr (e.members.map writeEnumMember))]

/-- The enumeration that a record describes. -/
def readEnumeration (v : Json) : Reading Enumeration :=
  (object v).andThen fun fs =>
    (fun name members => { name, members })
      <$> need fs "name" text
      <*> field fs "values" [] (list readEnumMember)

/-- A batch of models as a record. -/
def writeModelBatch (b : ModelBatch) : Json :=
  .obj [("models", .arr (b.models.map writeModel)), ("enums", .arr (b.enums.map writeEnumeration)),
    ("skipped", writeTexts b.skipped)]

/-- The batch of models that a record describes. -/
def readModelBatch (v : Json) : Reading ModelBatch :=
  (object v).andThen fun fs =>
    (fun models enums skipped => { models, enums, skipped })
      <$> field fs "models" [] (list readModel)
      <*> field fs "enums" [] (list readEnumeration)
      <*> field fs "skipped" [] (list text)

end ApiScaffold.Record
