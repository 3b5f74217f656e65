import ApiScaffold.Code.Decorator
import ApiScaffold.Template.Context

set_option autoImplicit false

/-! # Built-in layouts

The files that the tool lays out itself: the classes of the models, the controller and the service
of a resource. A layout is a list of lines. -/

namespace ApiScaffold.Template

/-- Lines as a text, each ended by a line feed. -/
def ofLines (lines : List String) : String :=
  String.join (lines.map (· ++ "\n"))

/-- Groups of lines with an empty line between them. -/
def spaced (groups : List (List String)) : List String :=
  [""].intercalate groups

/-- The line that imports names from a module. -/
def importLine (names : List String) (source : String) : String :=
  "import \x7b " ++ ", ".intercalate names ++ " \x7d from '" ++ source ++ "';"

/-- The line that imports names from a module, if there are names. -/
def importIfAny (names : List String) (source : String) : List String :=
  if names.isEmpty then [] else [importLine names source]

/-- The line that opens the body of a declaration. -/
def opening (declaration : String) : String :=
  declaration ++ " \x7b"

/-- The line that closes a body. -/
def closing : String := "\x7d"

/-! ## Models -/

/-- The lines of an enumeration, behind an empty one. -/
def enumLines (e : Enumeration) : List String :=
  ["", opening ("export enum " ++ e.name)] ++
    e.members.map (fun m => "  " ++ m.key ++ " = " ++ Code.literal m.value ++ ",") ++ [closing]

/-- The lines of a property: its decorators, then its declaration. -/
def propertyLines (p : Property) : Except Fault (List String) := do
  let decorators ← Decorator.ofProperty p
  return decorators.map (fun d => "  " ++ d.text) ++
    ["  " ++ p.declaration ++ ": " ++ p.typeExpression ++ ";"]

/-- The lines of a model, behind an empty one. -/
def modelLines (m : Model) : Except Fault (List String) := do
  let properties ← m.properties.mapM propertyLines
  let description := m.description.getD ""
  return [""] ++ (if description = "" then [] else ["/** " ++ description ++ " */"]) ++
    [opening ("export class " ++ m.name)] ++ spaced properties ++ [closing]

/-- The file of the models and enumerations. -/
def dtoText (c : Context) : Except Fault String := do
  let models ← c.models
  let enums ← c.enums
  let classes ← models.mapM modelLines
  return ofLines <|
    [importLine ["ApiProperty"] "@nestjs/swagger"] ++
    importIfAny (Code.validatorImports models) "class-validator" ++
    (if Code.usesClasses models then [importLine ["Type"] "class-transformer"] else []) ++
    enums.flatMap enumLines ++ classes.flatten

/-! ## Controllers and services -/

/-- The lines of a method that is yet to be written. -/
def methodLines (e : Endpoint) (signature : String) : List String :=
  let call := e.operationName ++ "(" ++ signature ++ ")"
  [opening ("  async " ++ call ++ ": Promise<" ++ e.returnType ++ ">"),
    "    throw new NotImplementedException('" ++ e.operationName ++ "');", "  " ++ closing]

/-- The line that imports the classes of the models, if any are used. -/
def modelImport (c : Context) : Except Fault (List String) := do
  let used ← c.value "dto_imports"
  if !used.truthy then return []
  let names ← used.texts
  let resource ← c.value "resource_name"
  return [importLine names ("./" ++ resource.display ++ ".dto")]

/-- The file of the controller. -/
def controllerText (c : Context) : Except Fault String := do
  let endpoints ← c.endpoints
  let hasTags := ((c.lookup "tags").map Value.truthy).getD false
  let imports ← Code.controllerImports endpoints hasTags
  let tags ← c.value "tags"
  let models ← modelImport c
  let tagLine ← if tags.truthy then do
      let names ← tags.texts
      pure ["@ApiTags(" ++ ", ".intercalate (names.map Code.stringLiteral) ++ ")"]
    else pure []
  let className ← c.value "class_name"
  let methods ← endpoints.mapM fun e => do
    let route ← Decorator.ofRoute e
    let others ← Decorator.ofEndpoint e
    return (route :: others).map (fun d => "  " ++ d.text) ++
      methodLines e (Code.controllerSignature e)
  return ofLines <|
    [importLine imports.common "@nestjs/common"] ++
    importIfAny imports.swagger "@nestjs/swagger" ++ models ++ [""] ++ tagLine ++
    ["@Controller()", opening ("export abstract class " ++ className.display)] ++
    spaced methods ++ [closing]

/-- The file of the service. -/
def serviceText (c : Context) : Except Fault String := do
  let models ← modelImport c
  let className ← c.value "class_name"
  let endpoints ← c.endpoints
  let methods := endpoints.map fun e => methodLines e (Code.serviceSignature e)
  return ofLines <|
    [importLine ["Injectable", "NotImplementedException"] "@nestjs/common"] ++ models ++
    ["", "@Injectable()", opening ("export class " ++ className.display)] ++
    spaced methods ++ [closing]

/-- Templates that hold what is known about the layouts themselves. They use nothing of their
context. -/
def labels : List (String × String) :=
  [("__doc__", "Встроенные шаблоны для генерации файлов"),
    ("__module__", "openapi_nest.internal.generator.templates"), ("__name__", "Templates"),
    ("__qualname__", "Templates")]

/-- The layout of a name. -/
def builtIn? (name : String) : Option (Context → Except Fault String) :=
  if name = "dto" then some dtoText
  else if name = "controller" then some controllerText
  else if name = "service" then some serviceText
  else (labels.lookup name).map fun label _ => .ok label

end ApiScaffold.Template
