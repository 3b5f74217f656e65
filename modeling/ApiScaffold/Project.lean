set_option autoImplicit false

/-! # Projects

The files that the tool writes, in the order in which they were added. -/

namespace ApiScaffold

/-- A file of code. -/
structure CodeFile where
  fileName : String
  content : String := ""
deriving DecidableEq, Repr, Inhabited

/-- Files of code under a name. -/
structure Project where
  name : String
  files : List CodeFile := []
deriving DecidableEq, Repr, Inhabited

/-- Add a file behind the others, also when one of its name is there. -/
def Project.addFile (p : Project) (file : CodeFile) : Project :=
  { p with files := p.files ++ [file] }

/-- The first file of a name. -/
def Project.file? (p : Project) (fileName : String) : Option CodeFile :=
  p.files.find? (·.fileName == fileName)

end ApiScaffold
