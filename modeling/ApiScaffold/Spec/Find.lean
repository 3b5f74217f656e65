import ApiScaffold.Files.Pattern
import ApiScaffold.Files.Tree
import ApiScaffold.Firsts
import ApiScaffold.Json.Value
import ApiScaffold.Naming

set_option autoImplicit false

/-! # Finding specifications

The specifications of a directory are the files anywhere below it that have one of the extensions of
`Naming.specExtensions`; nothing hidden counts. The name of the directory may be a pattern for
others. -/

namespace ApiScaffold.SpecFiles

open Files (Tree Place)

/-- The places of everything below a place that is not hidden, relative to it. -/
def below (t : Tree) (place : Place) : List Place :=
  t.entries.filterMap fun e =>
    if place.isPrefixOf e.1 then
      let rest := e.1.drop place.length
      if rest.isEmpty || rest.any Files.isHidden then none else some rest
    else none

/-- The directories that one more part of a pattern leads to from a directory. -/
def expandPart (t : Tree) (part base : String) : List String :=
  let place := (t.follow (if base = "" then "." else base)).toOption
  if part = "**" then
    let nested := (place.map (below t)).getD []
    Files.join base "" ::
      (nested.map fun rest => Files.join base ("/".intercalate rest)).filter t.isDirectory
  else if Files.isPattern part then
    let names := (place.map t.names).getD []
    ((names.filter (Files.describes part)).map (Files.join base)).filter t.isDirectory
  else
    let path := Files.join base part
    if t.has path then [path] else []

/-- The directory that a path or a pattern of a path starts at, as it is written, and the parts from
the first pattern on. -/
def splitPattern (directory : String) : String × List String :=
  let parts := Files.parts (Files.dropSlashes directory)
  let plain := parts.takeWhile (!Files.isPattern ·)
  match parts.drop plain.length with
  | [] => (Files.dropSlashes directory, [])
  | patterns => (Files.dropSlashes (String.join (plain.map (· ++ "/"))), patterns)

/-- The directories that a path or a pattern of a path stands for. -/
def expand (t : Tree) (directory : String) : List String :=
  let (start, patterns) := splitPattern directory
  (patterns.filter (· != "")).foldl (fun bases part => bases.flatMap (expandPart t part)) [start]

/-- Whether a name has one of the extensions of specifications. -/
def isSpecName (name : String) : Bool :=
  Naming.specExtensions.any fun ext => Text.finishesWith ext name

/-- The specifications anywhere below a directory. -/
def filesBelow (t : Tree) (directory : String) : List String :=
  match t.follow (if directory = "" then "." else directory) with
  | .error _ => []
  | .ok place =>
    ((below t place).filter fun rest => isSpecName (rest.getLast?.getD "")).map fun rest =>
      Files.join directory ("/".intercalate rest)

/-- The specifications of a directory, sorted, each once. -/
def inDirectory (t : Tree) (directory : String) : List String :=
  -- the name must be that of a directory as it stands, also when it is a pattern
  if t.isDirectory directory then
    sortedFirsts (((expand t directory).flatMap (filesBelow t)).filter t.isFile)
  else []

/-- The specifications of the directory that a value names. A value that counts as false, a number
without fraction and a truth value name none; what is neither these nor a text is a fault. -/
def find (t : Tree) (directory : Json) : Except Fault (List String) :=
  if !directory.truthy then .ok []
  else
    match directory with
    | .str path => .ok (inDirectory t path)
    | .int _ | .bool _ => .ok []
    | _ => .error .unfit

end ApiScaffold.SpecFiles
