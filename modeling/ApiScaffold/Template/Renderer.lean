import ApiScaffold.Files.Tree
import ApiScaffold.Template.Custom
import ApiScaffold.Template.Layout

set_option autoImplicit false

/-! # Choosing a template

A template is looked for in the directory of the user first, then among the built-in layouts. A
directory that is not there does no harm. -/

namespace ApiScaffold.Template

open Files (Tree)

/-- The ending of the names of template files. -/
def extension : String := ".j2"

/-- Whether the value of a setting names a directory that is there. Values that are neither texts
nor whole numbers cannot name one. -/
def namesDirectory (t : Tree) (directory : Json) : Except Fault Bool :=
  if !directory.truthy then .ok false
  else
    match directory with
    | .str path => .ok (t.isDirectory path)
    | .int _ | .bool _ => .ok false
    | _ => .error .unfit

/-- The file of a template below a directory; a name that leads back up has none. -/
def fileBelow? (directory name : String) : Option String :=
  let steps := Files.parts (name ++ extension)
  if steps.contains ".." then none
  else some ((steps.filter fun s => s != "" && s != ".").foldl Files.join directory)

/-- The template that the user has of a name. -/
def custom? (t : Tree) (directory : Json) (name : String) : Option String :=
  match directory with
  | .str path => do
    let file ← fileBelow? path name
    if t.isDirectory path && t.isFile file then (t.read file).toOption else none
  | _ => none

/-- Fill in the template of a name. -/
def render (t : Tree) (directory : Json) (name : String) (context : Context) :
    Except Fault String :=
  match custom? t directory name with
  | some text => fillIn (name ++ extension) text context
  | none =>
    match builtIn? name with
    | some layout => layout context
    | none =>
      let place := if directory.truthy then some directory.display else none
      .error (.complaint (.missingTemplate name place) none)

end ApiScaffold.Template
