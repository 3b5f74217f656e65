import ApiScaffold.Cli.Session

set_option autoImplicit false

/-! # The program

The command line on a disk: the files that it concerns are read into a tree, the session runs on the
tree, its notices are printed, and what it changed is written back. -/

namespace ApiScaffold.Disk

open Files (Tree Place)

/-! ## Reading -/

/-- The path from the root to a place. -/
def pathOf (place : Place) : String :=
  "/" ++ "/".intercalate place

/-- What stands at a place. Files that hold no text count as empty. -/
def entryAt? (place : Place) : IO (Option Files.Entry) := do
  let path := (← IO.currentDir) / pathOf place
  if !(← path.pathExists) then return none
  if ← path.isDir then return some .directory
  let modified := (← path.metadata).modified
  let text ← try IO.FS.readFile path catch _ => pure ""
  return some (.file text (modified.sec * 1000000000 + modified.nsec.toNat))

/-- Add what stands at a place to a tree. -/
def add (t : Tree) (place : Place) : IO Tree := do
  match ← entryAt? place with
  | some entry => return { t with entries := Tree.put place entry t.entries }
  | none => return t

/-- Add what stands at a place and everything below it that is not hidden. -/
partial def addAll (t : Tree) (place : Place) : IO Tree := do
  let t ← add t place
  if !t.isDirectoryAt place then return t
  let here ← ((← IO.currentDir) / pathOf place).readDir
  let names := (here.toList.map (·.fileName)).filter (!Files.isHidden ·)
  names.foldlM (fun t name => addAll t (place ++ [name])) t

/-- Add what a path leads to, and the directories on the way. -/
def addPath (t : Tree) (path : String) : IO Tree := do
  let place := Files.namesFromRoot (pathOf t.here) path
  let t ← (List.range place.length).foldlM (fun t n => add t (place.take n)) t
  addAll t place

/-- The tree of the files that some options concern. -/
def treeFor (o : Cli.Options) : IO Tree := do
  let here := Files.namesFromRoot "/" (← IO.currentDir).toString
  let t ← (List.range (here.length + 1)).foldlM (fun t n => add t (here.take n)) { here }
  let t ← o.configFiles.foldlM addPath t
  (o.directories t).foldlM addPath t

/-! ## Writing -/

/-- Write what stands in a tree that did not stand so before. -/
def save (before after : Tree) : IO Unit :=
  (after.newSince before).forM fun (place, entry) =>
    match entry with
    | .directory => IO.FS.createDirAll (pathOf place)
    | .file text _ => IO.FS.writeFile (pathOf place) text

/-- Print the notices of a session that worked on a tree, and write what it changed. -/
def settle (before : Tree) (s : Cli.Session) : IO Unit := do
  s.notices.forM fun notice => IO.println (notice.text Fault.text)
  (← IO.getStdout).flush
  save before s.tree

/-! ## Running -/

/-- Watch the specifications, with a second between two passes, until the program is interrupted or
a pass fails. -/
partial def watch (o : Cli.Options) (config : Config) (s : Watching Cli.Session Stamp) :
    IO UInt32 := do
  let tree ← treeFor o
  let watcher := Cli.watcher config id fun session _ => session
  let (next, result) := watcher.check { s with world := { tree } }
  settle tree next.world
  match result with
  | .error fault =>
    IO.println ((Cli.Notice.failed fault).text Fault.text)
    return 1
  | .ok _ =>
    IO.sleep 1000
    watch o config next

/-- Do what a command line asks for, and give the status to end with. -/
def execute (arguments : List String) : IO UInt32 := do
  match Cli.request arguments with
  | .help =>
    IO.println Cli.Flag.summary
    return 0
  | .refused =>
    IO.eprintln Cli.Flag.summary
    return 2
  | .run o =>
    let tree ← treeFor o
    if o.watches then
      let (config, session, status) := (Cli.prepareWatch o).onTree tree
      settle tree session
      match config with
      | some config => watch o config { world := { tree } }
      | none => return status.toUInt32
    else
      let (session, status) := Cli.run arguments [] tree
      settle tree session
      return status.toUInt32

end ApiScaffold.Disk

/-- The command line. -/
def main (arguments : List String) : IO UInt32 :=
  ApiScaffold.Disk.execute arguments
