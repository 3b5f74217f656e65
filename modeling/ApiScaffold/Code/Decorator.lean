import ApiScaffold.Code.Literal
import ApiScaffold.Endpoint.Basic
import ApiScaffold.Model.Basic
import ApiScaffold.Text.Word

set_option autoImplicit false

/-! # Decorators

The decorators on properties, arguments and methods of the generated classes, and the names that the
files import for them. -/

namespace ApiScaffold

/-- A decorator: its name and what stands between its round brackets. -/
structure Decorator where
  name : String
  arguments : String := ""
deriving DecidableEq, Repr, Inhabited

namespace Decorator

/-- The text of a decorator. -/
def text (d : Decorator) : String :=
  "@" ++ d.name ++ "(" ++ d.arguments ++ ")"

/-- An object literal of some settings, as an argument. -/
def settings (items : List String) : String :=
  "\x7b " ++ ", ".intercalate items ++ " \x7d"

/-- A truth value in code. -/
def truth (b : Bool) : String := if b then "true" else "false"

/-! ## Properties -/

/-- The decorator that checks a constraint. -/
def ofConstraint (c : Constraint) : Except Fault Decorator :=
  match c.kind with
  | .type => .ok ⟨"Type", "() => " ++ c.value.value.display⟩
  | .nested =>
    .ok ⟨"ValidateNested", if c.value.value = .str "each" then settings ["each: true"] else ""⟩
  | .pattern => .ok ⟨"Matches", Code.patternLiteral c.value.value.display⟩
  | kind =>
    match kind.decorator? with
    | none => .error .unknownKey
    | some name =>
      .ok ⟨name,
        if c.value.isNull then ""
        else if kind = .enum then c.value.value.display
        else Code.literal c.value⟩

/-- What the decorator that documents a property says. -/
def documentation (p : Property) : List String :=
  (match p.description with
    | some text => if text = "" then [] else ["description: " ++ Code.stringLiteral text]
    | none => []) ++
  (if p.sample.isNull then [] else ["example: " ++ p.sample.shown.write .spaced]) ++
  (if p.required then [] else ["required: false"]) ++
  (if p.enumValues.isEmpty then []
    else ["enum: [" ++ ", ".intercalate (p.enumValues.map Code.literal) ++ "]"]) ++
  (if p.isArray then
    let item := p.itemType.getD ""
    ["isArray: true", "type: () => " ++ Code.constructorOf (if item = "" then "any" else item)]
  else if p.hasConstraint .type then ["type: () => " ++ p.typeExpression]
  else [])

/-- The decorator that documents a property. -/
def apiProperty (p : Property) : Decorator :=
  let items := documentation p
  ⟨"ApiProperty", if items.isEmpty then "" else settings items⟩

/-- The decorators of a property: one per constraint, then its documentation. -/
def ofProperty (p : Property) : Except Fault (List Decorator) := do
  return (← p.constraints.mapM ofConstraint) ++ [apiProperty p]

/-! ## Arguments and methods -/

/-- The decorator of an argument, if its kind has one. -/
def ofArgument (p : Parameter) : Option Decorator :=
  p.kind.decorator?.map fun name =>
    ⟨name, if p.kind = .body then "" else Code.stringLiteral p.wireName⟩

/-- The decorator that binds a method to a route. -/
def ofRoute (e : Endpoint) : Except Fault Decorator :=
  match e.method.decorator? with
  | some name => .ok ⟨name, Code.stringLiteral (Code.route e.path)⟩
  | none => .error .unknownKey

/-- What the documentation of a header repeats of its schema. -/
def schemaKeys : List String := ["type", "pattern", "format"]

/-- The decorator that documents a header. -/
def apiHeader (p : Parameter) : Decorator :=
  let description :=
    match p.description with
    | some text => if text = "" then p.wireName ++ " header parameter" else text
    | none => p.wireName ++ " header parameter"
  let schema := schemaKeys.filterMap fun key =>
    match p.constraintSchema.lookup key with
    | some value =>
      if value.truthy then some (key ++ ": " ++ Code.stringLiteral value.display) else none
    | none => none
  ⟨"ApiHeader", settings
    (["name: " ++ Code.stringLiteral p.wireName,
      "description: " ++ Code.stringLiteral description,
      "required: " ++ truth p.required] ++
      (if schema.isEmpty then [] else ["schema: " ++ settings schema]))⟩

/-- The decorator that documents what a method does. -/
def apiOperation (e : Endpoint) : List Decorator :=
  match e.summary with
  | some summary =>
    if summary = "" then []
    else
      [⟨"ApiOperation", settings
        (["summary: " ++ Code.stringLiteral summary] ++
          (if e.deprecated then ["deprecated: true"] else []))⟩]
  | none => []

/-- The decorator that documents a parameter of the path. -/
def apiParam (p : Parameter) : Decorator :=
  ⟨"ApiParam", settings
    ["name: " ++ Code.stringLiteral p.wireName, "type: " ++ Code.constructorOf p.typeExpression]⟩

/-- The decorator that documents a parameter of the query. -/
def apiQuery (p : Parameter) : Decorator :=
  ⟨"ApiQuery", settings
    ["name: " ++ Code.stringLiteral p.wireName, "type: " ++ Code.constructorOf p.typeExpression,
      "required: " ++ truth p.required]⟩

/-- The decorator that documents a response. -/
def apiResponse (r : Response) : Except Fault Decorator := do
  let status :=
    match ← r.statusCode with
    | some code => toString code
    | none => Code.stringLiteral r.status
  let typed := r.typeExpression != "void" && r.typeExpression != "any" && r.status != "204"
  return ⟨"ApiResponse", settings
    (["status: " ++ status] ++
      (if typed then ["type: " ++ Code.responseType r.typeExpression] else []))⟩

/-- The decorators of a method but the one of its route: what it does, its path, query and header
parameters, its responses, and the status that it answers with. -/
def ofEndpoint (e : Endpoint) : Except Fault (List Decorator) := do
  let responses ← e.responses.mapM apiResponse
  return apiOperation e ++
    (e.parameters.filter (·.kind = .path)).map apiParam ++
    (e.parameters.filter (·.kind = .query)).map apiQuery ++
    (e.parameters.filter (·.kind = .header)).map apiHeader ++
    responses ++
    (match e.forcedStatus with
      | some code => [⟨"HttpCode", toString code⟩]
      | none => [])

end Decorator

/-! ## Signatures -/

namespace Code

/-- The declaration of an argument with its type. -/
def argument (p : Parameter) : String :=
  p.declaration ++ ": " ++ p.typeExpression

/-- The arguments of a method of a controller, with their decorators. -/
def controllerSignature (e : Endpoint) : String :=
  ", ".intercalate <| e.arguments.map fun p =>
    match Decorator.ofArgument p with
    | some d => d.text ++ " " ++ argument p
    | none => argument p

/-- The arguments of a method of a service. -/
def serviceSignature (e : Endpoint) : String :=
  ", ".intercalate (e.arguments.map argument)

/-! ## Imports -/

/-- The decorators that check the constraints of some models. -/
def validatorImports (models : List Model) : List String :=
  sortedFirsts <| models.flatMap fun m => m.properties.flatMap fun p =>
    p.constraints.filterMap fun c => c.kind.decorator?

/-- Whether some property names the class of its values. -/
def usesClasses (models : List Model) : Bool :=
  models.any fun m => m.properties.any (·.hasConstraint .type)

/-- The words between `@` and an opening round bracket. -/
def decoratorNames : List Char → List String
  | [] => []
  | c :: rest =>
    let word := rest.takeWhile Text.isWord
    if c = '@' && !word.isEmpty && (rest.drop word.length).head? = some '(' then
      String.ofList word :: decoratorNames rest
    else decoratorNames rest

/-- What a controller imports, by package. -/
structure ControllerImports where
  common : List String
  swagger : List String
deriving DecidableEq, Repr

/-- The lines of a method of a controller that may use decorators. -/
def decoratedLines (e : Endpoint) : Except Fault (List String) := do
  let route ← Decorator.ofRoute e
  let others ← Decorator.ofEndpoint e
  return [route.text, controllerSignature e] ++ others.map Decorator.text

/-- What the controller of some endpoints and tags imports. -/
def controllerImports (endpoints : List Endpoint) (hasTags : Bool) :
    Except Fault ControllerImports := do
  let lines := (← endpoints.mapM decoratedLines).flatten
  let used := sortedFirsts (["Controller", "NotImplementedException"] ++
    lines.flatMap (fun line => decoratorNames line.toList) ++ (if hasTags then ["ApiTags"] else []))
  let isSwagger (name : String) : Bool := Text.beginsWith "Api" name
  return ⟨used.filter (!isSwagger ·), used.filter isSwagger⟩

end Code

end ApiScaffold
