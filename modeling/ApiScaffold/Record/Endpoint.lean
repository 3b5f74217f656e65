import ApiScaffold.Generation.Batch
import ApiScaffold.Project
import ApiScaffold.Record.Model

set_option autoImplicit false

/-! # Endpoints, batches and projects as records

Endpoints with their parts, the batch of a resource and its files as JSON objects and back. -/

namespace ApiScaffold.Record

/-! ## Parts of endpoints -/

/-- A parameter as a record. -/
def writeParameter (p : Parameter) : Json :=
  .obj [("name", .str p.name), ("wire_name", .str p.wireName), ("kind", .str p.kind.name),
    ("required", .bool p.required), ("type_expression", .str p.typeExpression),
    ("constraint_schema", .obj p.constraintSchema), ("description", writeText? p.description)]

/-- The parameter that a record describes. -/
def readParameter (v : Json) : Reading Parameter :=
  (object v).andThen fun fs =>
    (fun name wireName kind required typeExpression constraintSchema description =>
      { name, wireName, kind := .ofName kind, required, typeExpression, constraintSchema,
        description })
      <$> need fs "name" text
      <*> need fs "wire_name" text
      <*> need fs "kind" text
      <*> field fs "required" false truth
      <*> field fs "type_expression" "string" text
      <*> field fs "constraint_schema" [] object
      <*> field fs "description" none (optional text)

/-- A body as a record. -/
def writeBody (b : Body) : Json :=
  .obj [("type_expression", .str b.typeExpression), ("required", .bool b.required),
    ("description", writeText? b.description)]

/-- The body that a record describes. -/
def readBody (v : Json) : Reading Body :=
  (object v).andThen fun fs =>
    (fun typeExpression required description => { typeExpression, required, description })
      <$> field fs "type_expression" "any" text
      <*> field fs "required" true truth
      <*> field fs "description" none (optional text)

/-- A response as a record. -/
def writeResponse (r : Response) : Json :=
  .obj [("status", .str r.status), ("type_expression", .str r.typeExpression),
    ("description", writeText? r.description), ("inline", .bool r.inPlace)]

/-- The response that a record describes. -/
def readResponse (v : Json) : Reading Response :=
  (object v).andThen fun fs =>
    (fun status typeExpression description inPlace =>
      { status, typeExpression, description, inPlace })
      <$> need fs "status" text
      <*> field fs "type_expression" "void" text
      <*> field fs "description" none (optional text)
      <*> field fs "inline" false truth

/-! ## Endpoints -/

/-- An endpoint as a record. -/
def writeEndpoint (e : Endpoint) : Json :=
  .obj [("http_method", .str e.method.name), ("path", .str e.path),
    ("operation_name", .str e.operationName), ("summary", writeText? e.summary),
    ("description", writeText? e.description), ("deprecated", .bool e.deprecated),
    ("tags", writeTexts e.tags), ("parameters", .arr (e.parameters.map writeParameter)),
    ("body", e.body.elim .null writeBody), ("arguments", .arr (e.arguments.map writeParameter)),
    ("responses", .arr (e.responses.map writeResponse)), ("return_type", .str e.returnType),
    ("force_status_code", e.forcedStatus.elim .null .int)]

/-- The endpoint that a record describes. -/
def readEndpoint (v : Json) : Reading Endpoint :=
  (object v).andThen fun fs =>
    (fun method path operationName summary description deprecated tags parameters body arguments
        responses returnType forcedStatus =>
      { method := .ofName method, path, operationName, summary, description, deprecated, tags,
        parameters, body, arguments, responses, returnType, forcedStatus })
      <$> need fs "http_method" text
      <*> need fs "path" text
      <*> need fs "operation_name" text
      <*> field fs "summary" none (optional text)
      <*> field fs "description" none (optional text)
      <*> field fs "deprecated" false truth
      <*> field fs "tags" [] (list text)
      <*> field fs "parameters" [] (list readParameter)
      <*> field fs "body" none (optional readBody)
      <*> field fs "arguments" [] (list readParameter)
      <*> field fs "responses" [] (list readResponse)
      <*> field fs "return_type" "void" text
      <*> field fs "force_status_code" none (optional integer)

/-- A controller as a record. -/
def writeController (c : Controller) : Json :=
  .obj [("class_name", .str c.className), ("resource_name", .str c.resourceName),
    ("tags", writeTexts c.tags), ("endpoints", .arr (c.endpoints.map writeEndpoint)),
    ("dto_imports", writeTexts c.dtoImports)]

/-- The controller that a record describes. -/
def readController (v : Json) : Reading Controller :=
  (object v).andThen fun fs =>
    (fun className resourceName tags endpoints dtoImports =>
      { className, resourceName, tags, endpoints, dtoImports })
      <$> need fs "class_name" text
      <*> need fs "resource_name" text
      <*> field fs "tags" [] (list text)
      <*> field fs "endpoints" [] (list readEndpoint)
      <*> field fs "dto_imports" [] (list text)

/-- A service as a record. -/
def writeService (s : Service) : Json :=
  .obj [("class_name", .str s.className), ("resource_name", .str s.resourceName),
    ("endpoints", .arr (s.endpoints.map writeEndpoint)), ("dto_imports", writeTexts s.dtoImports)]

/-- The service that a record describes. -/
def readService (v : Json) : Reading Service :=
  (object v).andThen fun fs =>
    (fun className resourceName endpoints dtoImports =>
      { className, resourceName, endpoints, dtoImports })
      <$> need fs "class_name" text
      <*> need fs "resource_name" text
      <*> field fs "endpoints" [] (list readEndpoint)
      <*> field fs "dto_imports" [] (list text)

/-! ## Batches and projects -/

/-- A batch as a record. -/
def writeBatch (b : Batch) : Json :=
  .obj [("resource_name", .str b.resourceName), ("models", writeModelBatch b.models),
    ("controller", b.controller.elim .null writeController),
    ("service", b.service.elim .null writeService)]

/-- The batch that a record describes. -/
def readBatch (v : Json) : Reading Batch :=
  (object v).andThen fun fs =>
    (fun resourceName models controller service => { resourceName, models, controller, service })
      <$> need fs "resource_name" text
      <*> field fs "models" {} readModelBatch
      <*> field fs "controller" none (optional readController)
      <*> field fs "service" none (optional readService)

/-- A file of code as a record. -/
def writeCodeFile (f : CodeFile) : Json :=
  .obj [("file_name", .str f.fileName), ("content", .str f.content)]

/-- The file of code that a record describes. -/
def readCodeFile (v : Json) : Reading CodeFile :=
  (object v).andThen fun fs =>
    (fun fileName content => { fileName, content })
      <$> need fs "file_name" text
      <*> field fs "content" "" text

/-- A project as a record. -/
def writeProject (p : Project) : Json :=
  .obj [("name", .str p.name), ("files", .arr (p.files.map writeCodeFile))]

/-- The project that a record describes. -/
def readProject (v : Json) : Reading Project :=
  (object v).andThen fun fs =>
    (fun name files => { name, files })
      <$> need fs "name" text
      <*> field fs "files" [] (list readCodeFile)

end ApiScaffold.Record
