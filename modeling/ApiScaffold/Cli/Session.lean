import ApiScaffold.Cli.Notice
import ApiScaffold.Cli.Options
import ApiScaffold.Config.File
import ApiScaffold.Generation.Generator
import ApiScaffold.Spec.Load
import ApiScaffold.Watch.Specs

set_option autoImplicit false

/-! # Sessions of the command line

A session works on a tree of files and tells its user what it does. Specifications are taken one
after the other, and the files of one are written before the next is loaded; a specification that
fails ends the work, and none of its files is written. -/

namespace ApiScaffold.Cli

open Files (Tree)

/-- The files that a session works on, and what it has told its user, the last notice first. -/
structure Session where
  tree : Tree
  told : List Notice := []
deriving Inhabited

/-- A step of a session; what it wrote and told stays, also when it fails. -/
abbrev Work := ExceptT Fault (StateM Session)

/-- The notices in the order in which they were given. -/
def Session.notices (s : Session) : List Notice := s.told.reverse

/-- Tell the user something. -/
def tell (notice : Notice) : Work Unit :=
  modify fun s => { s with told := notice :: s.told }

/-- Look something up in the tree. -/
def look {α : Type} (f : Tree → Except Fault α) : Work α := do
  liftM (f (← get).tree)

/-- Change the tree. -/
def change (f : Tree → Except FileFault Tree) : Work Unit := do
  let tree ← liftM ((f (← get).tree).mapError Fault.file)
  modify fun s => { s with tree }

/-- Write a file; what was made of it stays also if its text cannot be written. -/
def save (path : String) (text : Except Fault String) : Work Unit := do
  let (tree, result) := (← get).tree.save path text
  modify fun s => { s with tree }
  liftM result

/-! ## Generating -/

/-- Generate the project of a specification without writing it. -/
def generateSpec (config : Config) (path : String) : Work Project := do
  tell (.loading path)
  let spec ← look fun t => Spec.load t none path
  tell (.generating spec.resource)
  let generator ← look fun t =>
    Generator.make t spec.resolved spec.written spec.resource config (some path)
  let batch ← liftM generator.build
  if !batch.models.skipped.isEmpty then tell (.skipped batch.models.skipped)
  look fun t => generator.render t batch

/-- Write a file and the directories that lead to it. -/
def saveFile (directory : String) (file : CodeFile) : Work Unit := do
  let path := Files.join directory file.fileName
  change (·.makeDirectories (Files.parent path))
  save path (.ok file.content)

/-- Write the files of a project below a directory, which must be a text. -/
def saveProject (project : Project) (directory : Json) : Work Unit := do
  tell (.saving project.files.length)
  match directory with
  | .str directory =>
    project.files.forM (saveFile directory)
    let here := "/" ++ "/".intercalate (← get).tree.here
    tell (.saved project.name (Files.fromRoot here directory))
  | _ => throw .unfit

/-- Generate and write the project of a specification. -/
def runSpec (config : Config) (path : String) : Work Unit := do
  saveProject (← generateSpec config path) config.outputDir

/-- Generate the code of all specifications that there are. -/
def generateAll (config : Config) : Work Unit := do
  let specs ← look fun t => SpecFiles.find t config.specsDir
  if specs.isEmpty then tell (.nothingFound config.specsDir.display)
  else
    tell (.started specs.length)
    specs.forM (runSpec config)
    tell .finished

/-! ## Configuration -/

/-- The configuration that the options ask for. -/
def configure (o : Options) : Work Config := do
  let asked := o.config.filter (· != "")
  let path := asked.getD Config.tomlFile
  if asked.isSome && !(← get).tree.has path then
    throw (.complaint .configNotFound (some path))
  let found ← look fun t => Config.load t path ""
  if found.isSome then tell (.configUsed path)
  let text (s : Option String) : Json := s.elim .null .str
  return (found.getD {}).withDirectories (text o.specs) (text o.output)

/-! ## Watching -/

/-- Generate everything again after some changes. -/
def regenerate (config : Config) (events : List Event) : Work Unit := do
  events.forM fun e => tell (.changed e)
  generateAll config

/-- The watcher of the specifications of a configuration, in a world that holds a session. -/
def watcher {ω : Type} (config : Config) (session : ω → Session) (update : Session → ω → ω) :
    Watcher ω Stamp Fault where
  scan world := Snapshot.ofSpecs (session world).tree config.specsDir
  onChange events world :=
    let (result, after) := (regenerate config events).run.run (session world)
    { world := update after world
      fault := match result with
        | .error fault => some fault
        | .ok () => none }
  onFault := some fun fault world =>
    let s := session world
    update { s with told := .regenerationFailed fault :: s.told } world

/-- A session with the changes that are still to come while it waits. -/
structure Rehearsal where
  session : Session
  coming : List (Tree → Tree)

/-- Wait: the next change comes, and when there is none the wait is interrupted. -/
def Rehearsal.wait (r : Rehearsal) : Option Rehearsal :=
  match r.coming with
  | [] => none
  | edit :: rest =>
    some { session := { r.session with tree := edit r.session.tree }, coming := rest }

/-- Get ready for watching. -/
def prepareWatch (o : Options) : Work Config := do
  let config ← configure o
  tell (.watching config.specsDir.display)
  return config

/-- Watch the specifications while some changes come, until a wait is interrupted. -/
def watchSpecs (config : Config) (coming : List (Tree → Tree)) : Work Unit := do
  let w := watcher config Rehearsal.session fun session r => { r with session }
  let start : Watching Rehearsal Stamp := { world := { session := ← get, coming } }
  let (after, ending) := w.start Rehearsal.wait none (coming.length + 1) start
  set after.world.session
  match ending with
  | .failed fault => throw fault
  | _ => tell .stopped

/-! ## Commands -/

/-- Do what the options ask for. -/
def perform (o : Options) (coming : List (Tree → Tree)) : Work Unit := do
  if o.watches then watchSpecs (← prepareWatch o) coming
  else
    let config ← configure o
    if o.initConfig then
      save Config.tomlFile config.text
      tell (.configWritten Config.tomlFile)
    else generateAll config

/-- Start a session on a tree: what its work comes to, the session that it leaves behind, and the
status that it ends with. A fault is told at the end. -/
def Work.onTree {α : Type} (work : Work α) (tree : Tree) : Option α × Session × Nat :=
  match work.run.run { tree } with
  | (.ok result, s) => (some result, s, 0)
  | (.error fault, s) => (none, { s with told := .failed fault :: s.told }, 1)

/-- Run a command line: the session that it leaves behind, and the status that it ends with. -/
def run (arguments : List String) (coming : List (Tree → Tree)) (tree : Tree) : Session × Nat :=
  match request arguments with
  | .refused => ({ tree }, 2)
  | .help => ({ tree }, 0)
  | .run o => ((perform o coming).onTree tree).2

/-! ## What a session looks at -/

/-- The files that a configuration may come from. -/
def Options.configFiles (o : Options) : List String :=
  o.config.toList ++ [Config.tomlFile, Config.jsonFile]

/-- The directories that a configuration names; a pattern of specifications names the one that it
starts at. -/
def directoriesOf (c : Config) : List String :=
  let specs := match c.specsDir with
    | .str path => [(SpecFiles.splitPattern path).1]
    | _ => []
  specs ++ [c.outputDir, c.templateDir].filterMap fun
    | .str path => some path
    | _ => none

/-- The directories that the options lead to, as far as the configuration can be read. -/
def Options.directories (o : Options) (tree : Tree) : List String :=
  ((configure o).onTree tree).1.elim [] directoriesOf

end ApiScaffold.Cli
