import ApiScaffold.Text.Cut

set_option autoImplicit false

/-! # Paths

Paths are texts with slashes between their parts. A path that begins with a slash starts at the
root, any other path at the directory that the reader is in. -/

namespace ApiScaffold.Files

/-- Whether a path starts at the root. -/
def isAbsolute (path : String) : Bool :=
  Text.beginsWith "/" path

/-- The parts of a path; two slashes in a row, or one at an end, have an empty part beside them. -/
def parts (path : String) : List String :=
  Text.pieces "/" path

/-- A path that goes on from a directory; one that starts at the root stands alone. -/
def join (directory path : String) : String :=
  if isAbsolute path then path
  else if directory = "" || Text.finishesWith "/" directory then directory ++ path
  else directory ++ "/" ++ path

/-- A path without the slashes at its end, unless it has nothing else. -/
def dropSlashes (path : String) : String :=
  let rest := Text.trimBack (· = '/') path.toList
  if rest.isEmpty then path else String.ofList rest

/-- What follows the last slash of a path. -/
def lastPart (path : String) : String :=
  (parts path).getLast?.getD ""

/-- The directory that a path leads through last. -/
def parent (path : String) : String :=
  dropSlashes (String.ofList (path.toList.take (path.length - (lastPart path).length)))

/-- One more part behind others from the root: an empty part or a single dot stays, two dots go
back. -/
def stepInto (sofar : List String) (part : String) : List String :=
  if part = "" || part = "." then sofar
  else if part = ".." then sofar.dropLast
  else sofar ++ [part]

/-- The names that lead from the root to what a path stands for, without empty parts and dots. -/
def namesFromRoot (here path : String) : List String :=
  (parts (join here path)).foldl stepInto []

/-- A path from the root without empty parts and dots. Exactly two slashes in front are kept. -/
def fromRoot (here path : String) : String :=
  let whole := join here path
  let slashes := (whole.toList.takeWhile (· = '/')).length
  (if slashes = 2 then "//" else "/") ++ "/".intercalate (namesFromRoot here path)

example : join "a" "b" = "a/b" ∧ join "a/" "b" = "a/b" ∧ join "a" "/b" = "/b" := by decide +kernel
example : parent "a//b" = "a" ∧ parent "b" = "" ∧ parent "/b" = "/" := by decide +kernel
example : fromRoot "/work" "./a/../b/" = "/work/b" := by decide +kernel

end ApiScaffold.Files
