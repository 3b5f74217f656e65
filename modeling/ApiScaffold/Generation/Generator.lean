import ApiScaffold.Config.Basic
import ApiScaffold.Endpoint.Compiler
import ApiScaffold.Generation.Batch
import ApiScaffold.Model.Compiler
import ApiScaffold.Project
import ApiScaffold.Template.Renderer

set_option autoImplicit false

/-! # Generating the files of a resource

All descriptions are compiled before a file is written: when compiling fails, nothing is written. -/

namespace ApiScaffold

open Files (Tree)

/-- Generates the code of one resource. -/
structure Generator where
  /-- Lists the operations. -/
  resolved : Document
  written : Document
  resource : String
  config : Config
  /-- The file that complaints are about. -/
  spec : Option String

namespace Generator

/-- The generator for a resource; the setting for templates must be one that can name a
directory. -/
def make (t : Tree) (resolved written : Document) (resource : String) (config : Config)
    (spec : Option String) : Except Fault Generator := do
  let _ ← Template.namesDirectory t config.templateDir
  return { resolved, written, resource, config, spec }

/-- The tags of some endpoints, each once. -/
def tagsOf (endpoints : List Endpoint) : List String :=
  firsts (endpoints.flatMap (·.tags))

/-- Compile everything that the files are written from. -/
def build (g : Generator) : Except Fault Batch := do
  let compiler ← EndpointCompiler.ofDocuments g.resolved g.written g.config.includeErrorTypes.truthy
    g.config.synthesizeResponses.truthy g.spec
  let (result, state) := compiler.compileAll.run.run compiler.start
  let endpoints ← result
  let models ← (← ModelCompiler.ofDocument g.written g.config.strict.truthy g.spec).compileAll
    state.responseModels
  let dtoImports := dtoImports endpoints
  let className := Naming.className g.resource
  let controller : Controller :=
    { className := className ++ "ControllerBase", resourceName := g.resource,
      tags := tagsOf endpoints, endpoints, dtoImports }
  let service : Service :=
    { className := className ++ "Service", resourceName := g.resource, endpoints, dtoImports }
  return {
    resourceName := g.resource
    models
    controller := if g.config.generateControllers.truthy then some controller else none
    service := if g.config.generateServices.truthy then some service else none }

/-- The name of the file of a kind of code. -/
def fileName (g : Generator) (kind : String) : String :=
  Files.join g.resource (g.resource ++ "." ++ kind ++ ".ts")

/-- The context for the file of the models. -/
def modelContext (g : Generator) (models : ModelBatch) : Template.Context :=
  [("resource_name", .json (.str g.resource)), ("models", .models models.models),
    ("enums", .enums models.enums)]

/-- The context for a file with a class of methods. -/
def classContext (className resource : String) (tags : List String) (endpoints : List Endpoint)
    (dtoImports : List String) : Template.Context :=
  [("class_name", .json (.str className)), ("resource_name", .json (.str resource)),
    ("endpoints", .endpoints endpoints), ("dto_imports", .json (.arr (dtoImports.map .str))),
    ("tags", .json (.arr (tags.map .str)))]

/-- The context for the file of a controller. -/
def controllerContext (c : Controller) : Template.Context :=
  classContext c.className c.resourceName c.tags c.endpoints c.dtoImports

/-- The context for the file of a service. -/
def serviceContext (s : Service) : Template.Context :=
  classContext s.className s.resourceName [] s.endpoints s.dtoImports

/-- The files of a batch. -/
def render (g : Generator) (t : Tree) (batch : Batch) : Except Fault Project := do
  let file (kind template : String) (context : Template.Context) : Except Fault CodeFile := do
    let content ← Template.render t g.config.templateDir template context
    return { fileName := g.fileName kind, content }
  let models ← if g.config.generateDtos.truthy then
      some <$> file "dto" "dto" (g.modelContext batch.models)
    else pure none
  let controller ← batch.controller.mapM fun c =>
    file "controller.base" "controller" (controllerContext c)
  let service ← batch.service.mapM fun s => file "service" "service" (serviceContext s)
  return { name := g.resource, files := models.toList ++ controller.toList ++ service.toList }

/-- Compile everything and fill in the files. -/
def generate (g : Generator) (t : Tree) : Except Fault Project := do
  g.render t (← g.build)

end Generator

end ApiScaffold
