import ApiScaffold.Endpoint.Signature
import ApiScaffold.Record.Reading
import ApiScaffold.Typing.Mapper

set_option autoImplicit false

/-! # From operations to endpoints

Which operations there are is read from a document whose references stand for their targets. What an
operation says is read from the document as it was written, where references still tell the names of
schemas.

Responses that describe an object in place get a class of their own, named for the operation. -/

namespace ApiScaffold

/-- Compiles the operations of a document. -/
structure EndpointCompiler where
  /-- Lists the operations. -/
  resolved : Document
  /-- Says what the operations are. -/
  written : Document
  mapper : Mapper
  /-- The names that responses cannot have unless they are what the names stand for. -/
  arena : Registry
  /-- Whether the type of a method includes those of errors. -/
  includeErrors : Bool
  /-- Whether objects in place become classes. -/
  synthesize : Bool

/-- What compiling operations leaves behind. -/
structure EndpointState where
  /-- The classes made up for responses, with their schemas. -/
  responseModels : List (String × Node) := []
  arena : Registry := {}
deriving Inhabited

/-- A step of compiling; the classes it made up stay, also when it fails. -/
abbrev Compiling := ExceptT Fault (StateM EndpointState)

namespace EndpointCompiler

/-- The compiler for a document in its two readings. -/
def ofDocuments (resolved written : Document) (includeErrors synthesize : Bool)
    (spec : Option String) : Except Fault EndpointCompiler := do
  let mapper ← Mapper.ofDocument written spec
  let arena := (← mapper.components.fields).foldl (fun r c =>
    r.register {
      name := mapper.names.classOf c.1
      schema := if c.2.isAbsent then none else some c.2
      pointer := some (Pointer.toSchema c.1) }) {}
  return { resolved, written, mapper, arena, includeErrors, synthesize }

/-- The state in which nothing has been compiled. -/
def start (c : EndpointCompiler) : EndpointState :=
  { arena := c.arena }

/-- A field of a record, with the name that complaints use. -/
def field {α : Type} (name : String) (read : Json → Record.Reading α) (value : Json) :
    Record.Reading α :=
  (read value).within name

/-! ## Parts of operations -/

/-- The first field whose name speaks of JSON. -/
def jsonField? (fields : List (String × Node)) : Option Node :=
  (fields.find? fun f => Text.holds "json" (Text.lowerLatin f.1)).map (·.2)

/-- The schema of the JSON content among the contents of a message. -/
def jsonSchema (content : Node) : Except Fault (Option Node) := do
  if !(← content.isObject) then return none
  let plain ← content.get "application/json"
  let media ← if plain.isAbsent then pure (jsonField? (← content.fields)) else pure (some plain)
  match media with
  | none => return none
  | some m =>
    if !(← m.isObject) then return none
    let schema ← m.get "schema"
    return if schema.isAbsent then none else some schema

/-- Whether the schema of a response is an object in place that becomes a class. -/
def isInlineResponse (schema : Node) : Except Fault Bool := do
  if !(← schema.isObject) then return false
  if ← schema.isReference then return false
  let type ← Schema.typeOf schema
  if type = .str "object" then
    if ← schema.has "properties" then return true
    return !(← (← schema.get "additionalProperties").truthy)
  if type = .null then schema.has "properties" else return false

/-- The item of a path, if it is an object. -/
def pathItem (document : Document) (path : String) : Except Fault (Option Node) := do
  let paths ← document.top.get "paths"
  if !(← paths.truthy) then return none
  let item ← paths.get path
  if ← item.isObject then return some item else return none

/-- Where an operation is described, and the item of its path: in the document as it was written if
it is there, else as given. -/
def sourceOf (c : EndpointCompiler) (method : Method) (path : String) (operation : Node) :
    Except Fault (Node × Node) := do
  let item ← match ← pathItem c.written path with
    | some node => c.mapper.resolver.objectAt node
    | none => pure none
  let nothing : Node := ⟨c.resolved, [], .obj []⟩
  let given : Except Fault (Node × Node) := do
    return (operation, (← pathItem c.resolved path).getD nothing)
  match item with
  | some node =>
    let own ← node.get method.name
    if ← own.isObject then return (own, node) else given
  | none => given

/-! ## Parameters -/

/-- The type of a parameter; `fuel` bounds the depth of lists. -/
def parameterTypeWithin (r : Resolver) : Nat → Option Node → Except Fault String
  | 0, _ => .error .endless
  | _ + 1, none => .ok "string"
  | fuel + 1, some schema => do
    if !(← schema.isObject) then return "string"
    match ← Schema.typeOf schema with
    | .str "integer" => return "number"
    | .str "array" =>
      match ← r.derefIfAny (← schema.get "items") with
      | none => return "any[]"
      | some items =>
        if items.isAbsent then return "any[]"
        return (← parameterTypeWithin r fuel (some items)) ++ "[]"
    | .str "number" => return "number"
    | .str "boolean" => return "boolean"
    | .str "object" => return "object"
    | _ => return "string"

/-- The type of a parameter. Lists nested deeper than there are values in reach go round. -/
def parameterType (r : Resolver) (schema : Option Node) : Except Fault String :=
  let reach := (schema.map fun s => s.document.root.size + s.value.size).getD 0
  parameterTypeWithin r (r.document.root.size + reach + 2) schema

/-- The fields of a schema that are texts, numbers or truth values. -/
def shallowFields (schema : Option Node) : Except Fault Fields := do
  match schema with
  | none => return []
  | some node =>
    if !(← node.isObject) then return []
    let fields ← (← node.fields).mapM fun f => do return (f.1, ← f.2.opened)
    return fields.filter fun f => f.2.isHashable && f.2 != .null

/-- A value as it is written and what it stands for; one that counts as false gives way to the usual
value. -/
def givenOr (n : Node) (usual : Json) : Except Fault (Json × Json) := do
  let value ← n.opened
  return if value.truthy then (n.value, value) else (usual, usual)

/-- The argument for a parameter. -/
def compileParameter (c : EndpointCompiler) (parameter : Node) : Except Fault Parameter := do
  let r := c.mapper.resolver
  let wireName := (← parameter.get "name").value
  -- a link to a text compares like the text, but is none
  let (kind, named) ← givenOr (← parameter.get "in") (.str "query")
  let schema ← r.derefIfAny (← parameter.get "schema")
  -- only the name of a header is turned into an identifier
  let name ← if named = .str "header" then
      match wireName with
      | .str header => pure (Json.str (Naming.headerIdentifier header))
      | _ => throw .unfit
    else pure wireName
  let required := named = .str "path" || (← parameter.get "required").value = .bool true
  let typeExpression ← parameterType r schema
  let constraintSchema ← shallowFields schema
  let description := (← parameter.get "description").value
  Record.finish .parameter
    ((fun name wireName kind description =>
        { name, wireName, kind := .ofName kind, required, typeExpression, constraintSchema,
          description })
      <$> field "name" Record.text name
      <*> field "wire_name" Record.text wireName
      <*> field "kind" Record.text kind
      <*> field "description" (Record.optional Record.text) description)

/-- Give a parameter its node; a parameter that is there keeps its place. -/
def putParameter (key : Json × Json) (parameter : Node) :
    List ((Json × Json) × Node) → List ((Json × Json) × Node)
  | [] => [(key, parameter)]
  | (k, p) :: rest =>
    if k.1.same key.1 && k.2.same key.2 then (k, parameter) :: rest
    else (k, p) :: putParameter key parameter rest

/-- Add a parameter to those of an operation. One that leads nowhere, is no object or has no name
does not count. -/
def mergeParameter (c : EndpointCompiler) (merged : List ((Json × Json) × Node)) (entry : Node) :
    Except Fault (List ((Json × Json) × Node)) := do
  match ← c.mapper.resolver.objectAt entry with
  | none => return merged
  | some parameter =>
    let name ← (← parameter.get "name").opened
    if !name.truthy then return merged
    let place ← (← parameter.get "in").opened
    if !name.isHashable || !place.isHashable then throw .unfit
    return putParameter (name, place) parameter merged

/-- The parameters of a path and of an operation. Of parameters of one name and place the last
counts, at the place of the first. -/
def compileParameters (c : EndpointCompiler) (item operation : Node) :
    Except Fault (List Parameter) := do
  let shared ← (← item.get "parameters").entriesIfAny
  let own ← (← operation.get "parameters").entriesIfAny
  let merged ← (shared ++ own).foldlM c.mergeParameter []
  merged.mapM fun m => c.compileParameter m.2

/-! ## Bodies and responses -/

/-- The body that a request takes, if it takes JSON. -/
def compileBody (c : EndpointCompiler) (request : Node) : Except Fault (Option Body) := do
  match ← c.mapper.resolver.objectAt request with
  | none => return none
  | some node =>
    match ← jsonSchema (← node.get "content") with
    | none => return none
    | some schema =>
      let type ← c.mapper.mapBody schema
      let description := (← node.get "description").value
      let body ← Record.finish .body
        ((fun description => { typeExpression := type.text, description })
          <$> field "description" (Record.optional Record.text) description)
      return some body

/-- The order of responses: those with a number as their status by the number, then the others by
their text. -/
inductive StatusKey where
  | number (n : Nat)
  | text (s : String)
deriving DecidableEq, Repr, Inhabited

/-- The place of a status in the order; digits that are no numeral are a fault. -/
def statusKey (status : String) : Except Fault StatusKey :=
  if Text.allDigits status.toList then
    match Text.natural? status.toList with
    | some n => .ok (.number n)
    | none => .error .notANumeral
  else .ok (.text status)

/-- Whether one status stands before another or at the same place. -/
def StatusKey.notAfter : StatusKey → StatusKey → Bool
  | .number m, .number n => m ≤ n
  | .number _, .text _ => true
  | .text _, .number _ => false
  | .text s, .text t => s ≤ t

/-- A response of an operation before it is compiled. -/
structure RawResponse where
  key : StatusKey
  status : String
  response : Node
  /-- The schema of its JSON content. -/
  schema : Option Node

/-- The responses of an operation in their order. -/
def rawResponses (r : Resolver) (responses : List (String × Node)) :
    Except Fault (List RawResponse) := do
  let found ← responses.filterMapM fun (status, entry) => do
    match ← r.objectAt entry with
    | none => return none
    | some response => return some (status, response, ← jsonSchema (← response.get "content"))
  -- all statuses are looked at before any is put in order
  let keyed ← found.mapM fun (status, response, schema) => do
    return { key := ← statusKey status, status, response, schema }
  return keyed.mergeSort fun a b => a.key.notAfter b.key

/-- The beginning of the names of the classes of an operation. Only a text has upper case. -/
def operationBase (name : Json) : Except Fault String :=
  match name with
  | .str s => .ok (Naming.capitalize s)
  | .arr _ => .error .lacksPart
  | _ => .error .unfit

/-- The name of the class for the schema of a response. -/
def claimResponse (c : EndpointCompiler) (base : String) (schema : Node) : Compiling String := do
  let state ← get
  let (name, arena) ← liftM (state.arena.claim base schema "response")
  set { state with arena }
  if (c.mapper.names.schemaOf? name).isNone && !state.responseModels.any (·.1 == name) then
    modify fun s => { s with responseModels := s.responseModels ++ [(name, schema)] }
  return name

/-- Whether the type of a response is to be made up. -/
def isMadeUp (schema : Option Node) : Except Fault Bool :=
  match schema with
  | some node => isInlineResponse node
  | none => .ok false

/-- A response with its type. If several responses of an operation become classes, their names tell
the status. -/
def compileResponse (c : EndpointCompiler) (operation : Json) (several : Bool) (raw : RawResponse) :
    Compiling Response := do
  let (typeExpression, inPlace) ← match raw.schema with
    | none => pure ("void", false)
    | some schema =>
      if c.synthesize && (← liftM (isInlineResponse schema)) then
        let base ← liftM (operationBase operation)
        let name ← c.claimResponse
          (base ++ (if several then raw.status else "") ++ "Response") schema
        pure (name, true)
      else pure ((← liftM (c.mapper.mapBody schema)).text, false)
  let description := (← liftM (raw.response.get "description")).value
  liftM <| Record.finish .response
    ((fun description => { status := raw.status, typeExpression, description, inPlace })
      <$> field "description" (Record.optional Record.text) description)

/-- The responses of an operation. -/
def compileResponses (c : EndpointCompiler) (operation : Json) (responses : Node) :
    Compiling (List Response) := do
  let raw ← liftM (do rawResponses c.mapper.resolver (← responses.fieldsIfAny))
  let madeUp ← liftM (raw.filterM fun r => isMadeUp r.schema)
  raw.mapM (c.compileResponse operation (madeUp.length > 1))

/-! ## Operations -/

/-- The endpoint of an operation. -/
def compile (c : EndpointCompiler) (method : Method) (path : String) (operation : Node) :
    Compiling Endpoint := do
  let (source, item) ← liftM (c.sourceOf method path operation)
  let usual := Naming.operationName method.name path
  let (name, shownName) ← liftM (givenOr (← liftM (source.get "operationId")) (.str usual))
  let parameters ← liftM (c.compileParameters item source)
  let body ← liftM (do c.compileBody (← source.get "requestBody"))
  let bodyArgument := body.toList.map fun b =>
    ({ name := "body", wireName := "body", kind := .body, required := true,
       typeExpression := b.typeExpression, description := b.description } : Parameter)
  let responses ← c.compileResponses shownName (← liftM (source.get "responses"))
  let summary := (← liftM (source.get "summary")).value
  let description := (← liftM (source.get "description")).value
  let deprecated ← liftM (do (← source.get "deprecated").truthy)
  let tags ← liftM (do (← source.get "tags").entriesIfAny)
  let forced ← liftM (forcedStatus responses)
  liftM <| Record.finish .endpoint
    ((fun operationName summary description tags =>
        { method
          path := if Text.beginsWith "/" path then path else "/" ++ path
          operationName
          summary
          description
          deprecated
          tags
          parameters
          body
          arguments := Parameter.ordered (parameters ++ bodyArgument)
          responses
          returnType := returnType c.includeErrors responses
          forcedStatus := forced.map Int.ofNat })
      <$> field "operation_name" Record.text name
      <*> field "summary" (Record.optional Record.text) summary
      <*> field "description" (Record.optional Record.text) description
      <*> field "tags" (Record.list Record.text) (.arr (tags.map (·.value))))

/-- The operations of the item of a path. -/
def compileItem (c : EndpointCompiler) (path : String) (item : Node) :
    Compiling (List Endpoint) := do
  if !(← liftM item.isObject) then return []
  Method.all.filterMapM fun method => do
    let operation ← liftM (item.get method.name)
    if ← liftM operation.isObject then return some (← c.compile method path operation)
    else return none

/-- All operations of the document, by path and method. What was compiled before does not count. -/
def compileAll (c : EndpointCompiler) : Compiling (List Endpoint) := do
  set c.start
  let paths ← liftM (do (← c.resolved.top.get "paths").fieldsIfAny)
  return (← paths.mapM fun p => c.compileItem p.1 p.2).flatten

end EndpointCompiler

end ApiScaffold
