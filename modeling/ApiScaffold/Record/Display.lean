import ApiScaffold.Endpoint.Basic
import ApiScaffold.Model.Basic

set_option autoImplicit false

/-! # Records in running text

A record in running text is the name of its kind, with its fields in round brackets in the order in
which `Record.writeModel` and its like have them. -/

namespace ApiScaffold.Record

/-- A record of a kind with its fields in running text. -/
def inspect (kind : RecordKind) (fields : List (String × String)) : String :=
  kind.name ++ "(" ++ ", ".intercalate (fields.map fun f => f.1 ++ "=" ++ f.2) ++ ")"

/-- A list of things in running text. -/
def inspectList {α : Type} (shown : α → String) (items : List α) : String :=
  "[" ++ ", ".intercalate (items.map shown) ++ "]"

/-- Something that may be missing. -/
def inspect? {α : Type} (shown : α → String) (item : Option α) : String :=
  item.elim Json.null.inspect shown

/-- A text that may be missing. -/
def inspectText? (s : Option String) : String :=
  inspect? Json.quoted s

/-- A truth value. -/
def inspectTruth (b : Bool) : String :=
  (Json.bool b).inspect

/-! ## Models -/

/-- A constraint in running text. -/
def inspectConstraint (c : Constraint) : String :=
  inspect .constraint [("kind", Json.quoted c.kind.name), ("value", c.value.value.inspect)]

/-- A property in running text. -/
def inspectProperty (p : Property) : String :=
  inspect .property
    [("name", Json.quoted p.name), ("required", inspectTruth p.required),
      ("type_expression", Json.quoted p.typeExpression),
      ("constraints", inspectList inspectConstraint p.constraints),
      ("description", inspectText? p.description), ("example", p.sample.value.inspect),
      ("enum_values", inspectList (·.value.inspect) p.enumValues),
      ("is_array", inspectTruth p.isArray), ("item_type", inspectText? p.itemType)]

/-- A model in running text. -/
def inspectModel (m : Model) : String :=
  inspect .model
    [("name", Json.quoted m.name), ("properties", inspectList inspectProperty m.properties),
      ("depends_on", inspectList Json.quoted m.dependsOn), ("source", Json.quoted m.source),
      ("description", inspectText? m.description)]

/-- A member of an enumeration in running text. -/
def inspectEnumMember (m : EnumMember) : String :=
  inspect .enumMember [("key", Json.quoted m.key), ("value", m.value.value.inspect)]

/-- An enumeration in running text. -/
def inspectEnumeration (e : Enumeration) : String :=
  inspect .enumeration
    [("name", Json.quoted e.name), ("values", inspectList inspectEnumMember e.members)]

/-! ## Endpoints -/

/-- A parameter in running text. -/
def inspectParameter (p : Parameter) : String :=
  inspect .parameter
    [("name", Json.quoted p.name), ("wire_name", Json.quoted p.wireName),
      ("kind", Json.quoted p.kind.name), ("required", inspectTruth p.required),
      ("type_expression", Json.quoted p.typeExpression),
      ("constraint_schema", (Json.obj p.constraintSchema).inspect),
      ("description", inspectText? p.description)]

/-- A body in running text. -/
def inspectBody (b : Body) : String :=
  inspect .body
    [("type_expression", Json.quoted b.typeExpression), ("required", inspectTruth b.required),
      ("description", inspectText? b.description)]

/-- A response in running text. -/
def inspectResponse (r : Response) : String :=
  inspect .response
    [("status", Json.quoted r.status), ("type_expression", Json.quoted r.typeExpression),
      ("description", inspectText? r.description), ("inline", inspectTruth r.inPlace)]

/-- An endpoint in running text. -/
def inspectEndpoint (e : Endpoint) : String :=
  inspect .endpoint
    [("http_method", Json.quoted e.method.name), ("path", Json.quoted e.path),
      ("operation_name", Json.quoted e.operationName), ("summary", inspectText? e.summary),
      ("description", inspectText? e.description), ("deprecated", inspectTruth e.deprecated),
      ("tags", inspectList Json.quoted e.tags),
      ("parameters", inspectList inspectParameter e.parameters),
      ("body", inspect? inspectBody e.body),
      ("arguments", inspectList inspectParameter e.arguments),
      ("responses", inspectList inspectResponse e.responses),
      ("return_type", Json.quoted e.returnType),
      ("force_status_code", inspect? (fun n => (Json.int n).inspect) e.forcedStatus)]

end ApiScaffold.Record
