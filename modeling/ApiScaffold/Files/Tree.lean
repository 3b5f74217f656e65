import ApiScaffold.Fault
import ApiScaffold.Files.Path
import ApiScaffold.Text.Surrogate

set_option autoImplicit false

/-! # Trees of files

A tree holds the text files and directories that the tool works on, each under the names that lead
to it from the root. Paths are followed part by part, so that a path through a missing directory or
through a file fails the way it does on a disk.

Every write is stamped: a tree counts its writes, so a later write has a later stamp unless the
writer gives one. -/

namespace ApiScaffold.Files

/-- The names that lead from the root to a file or a directory. -/
abbrev Place := List String

/-- What can stand at a place. -/
inductive Entry where
  | directory
  /-- A file with its text and the time of its last change. -/
  | file (text : String) (changed : Int)
deriving DecidableEq, Repr, Inhabited

/-- A tree of files. The root is always there. -/
structure Tree where
  /-- The directory that relative paths start at. -/
  here : Place := []
  /-- What stands below the root, in the order in which it was made. -/
  entries : List (Place × Entry) := []
  /-- How many writes there were. -/
  writes : Nat := 0
deriving DecidableEq, Repr, Inhabited

namespace Tree

/-! ## Looking things up -/

/-- What stands at a place. -/
def at? (t : Tree) (place : Place) : Option Entry :=
  if place = [] then some .directory else t.entries.lookup place

/-- Whether a directory stands at a place. -/
def isDirectoryAt (t : Tree) (place : Place) : Bool :=
  t.at? place == some .directory

/-- Go on from a place by one part of a path. Only directories lead on. -/
def step (t : Tree) (place : Place) (part : String) : Except FileFault Place :=
  match t.at? place with
  | none => .error .missing
  | some (.file ..) => .error .notDirectory
  | some .directory =>
    if part = "" || part = "." then .ok place
    else if part = ".." then .ok place.dropLast
    else .ok (place ++ [part])

/-- The place that a path leads to; something may or may not stand there. -/
def follow (t : Tree) (path : String) : Except FileFault Place :=
  if path = "" then .error .missing
  else (parts path).foldlM t.step (if isAbsolute path then [] else t.here)

/-- What a path leads to. -/
def find (t : Tree) (path : String) : Except FileFault Entry := do
  match t.at? (← t.follow path) with
  | some entry => return entry
  | none => throw .missing

/-- Whether a path leads to something. -/
def has (t : Tree) (path : String) : Bool :=
  (t.find path).toOption.isSome

/-- Whether a path leads to a directory. -/
def isDirectory (t : Tree) (path : String) : Bool :=
  match t.find path with
  | .ok .directory => true
  | _ => false

/-- Whether a path leads to a file. -/
def isFile (t : Tree) (path : String) : Bool :=
  match t.find path with
  | .ok (.file ..) => true
  | _ => false

/-- A text with every line ended by a line feed alone. -/
def plainLines : List Char → List Char
  | [] => []
  | '\r' :: '\n' :: rest => '\n' :: plainLines rest
  | c :: rest => (if c = '\r' then '\n' else c) :: plainLines rest

/-- The text of the file that a path leads to, with plain line ends. -/
def read (t : Tree) (path : String) : Except FileFault String := do
  match ← t.find path with
  | .file text _ => return String.ofList (plainLines text.toList)
  | .directory => throw .isDirectory

/-- The names in a directory. -/
def names (t : Tree) (place : Place) : List String :=
  t.entries.filterMap fun e =>
    match e.1.getLast? with
    | some name => if e.1.dropLast = place then some name else none
    | none => none

/-! ## Changing a tree -/

/-- Put something at a place, in place of what stood there. -/
def put (place : Place) (entry : Entry) : List (Place × Entry) → List (Place × Entry)
  | [] => [(place, entry)]
  | e :: rest => if e.1 = place then (place, entry) :: rest else e :: put place entry rest

theorem lookup_put_self (place : Place) (entry : Entry) (entries : List (Place × Entry)) :
    (put place entry entries).lookup place = some entry := by
  induction entries with
  | nil => simp [put]
  | cons e rest ih =>
    obtain ⟨p, x⟩ := e
    by_cases h : p = place
    · simp [put, h]
    · simp [put, h, ih, List.lookup_cons, beq_eq_false_iff_ne.mpr (Ne.symm h)]

theorem lookup_put_of_ne {place other : Place} (h : other ≠ place) (entry : Entry)
    (entries : List (Place × Entry)) :
    (put place entry entries).lookup other = entries.lookup other := by
  induction entries with
  | nil => simp [put, List.lookup_cons, beq_eq_false_iff_ne.mpr h]
  | cons e rest ih =>
    obtain ⟨p, x⟩ := e
    by_cases hp : p = place
    · subst hp
      simp [put, List.lookup_cons, beq_eq_false_iff_ne.mpr h]
    · simp [put, hp, List.lookup_cons, ih]

/-- The stamp of the next write: seconds from a fixed start, in nanoseconds. -/
def nextStamp (t : Tree) : Int :=
  (1700000000 + t.writes : Int) * 1000000000

/-- Write a file in a directory that is there; the stamp is the next one unless another is given. -/
def write (t : Tree) (path text : String) (stamp : Option Int) : Except FileFault Tree := do
  let place ← t.follow path
  match t.at? place with
  | some .directory => throw .isDirectory
  | some (.file ..) => pure ()
  | none =>
    if !t.isDirectoryAt place.dropLast then throw .missing
  return { t with
    entries := put place (.file text (stamp.getD t.nextStamp)) t.entries
    writes := t.writes + 1 }

/-- Write a file whose text is made when the file is there already. If it cannot be made, or holds
half of a surrogate pair, the file stays empty. -/
def save (t : Tree) (path : String) (text : Except Fault String) : Tree × Except Fault Unit :=
  let whole : Except Fault String :=
    text.bind fun s =>
      if s.toList.any (Text.half? · |>.isSome) then .error .halfCharacter else .ok s
  match t.write path (whole.toOption.getD "") none with
  | .ok next => (next, whole.map fun _ => ())
  | .error cause => (t, .error (.file cause))

/-- Make a directory in a directory that is there. -/
def makeDirectory (t : Tree) (path : String) : Except FileFault Tree := do
  let place ← t.follow path
  if (t.at? place).isSome then throw .alreadyThere
  if !t.isDirectoryAt place.dropLast then throw .missing
  return { t with entries := t.entries ++ [(place, .directory)] }

/-- Make the directory of a path unless it is there. A file in its place is a fault only if the path
ends there: if it goes on, the next part fails. -/
def ensureDirectory (t : Tree) (last : Bool) (path : String) : Except FileFault Tree :=
  if t.isDirectory path then .ok t
  else
    match t.makeDirectory path with
    | .error .alreadyThere => if last then .error .alreadyThere else .ok t
    | result => result

/-- The paths that the first parts of a path make up, the whole path last. -/
def leads (path : String) : List String :=
  let all := parts path
  ((List.range all.length).map fun n => "/".intercalate (all.take (n + 1))).filter
    (fun lead => lead != "")

/-- Make all directories that a path leads through, and the one that it leads to. -/
def makeDirectories (t : Tree) (path : String) : Except FileFault Tree :=
  match (leads path).reverse with
  | [] => t.makeDirectory path
  | whole :: others => do
    let through ← others.reverse.foldlM (fun tree lead => tree.ensureDirectory false lead) t
    through.ensureDirectory true whole

/-- Take the file that a path leads to away. -/
def delete (t : Tree) (path : String) : Except FileFault Tree := do
  let place ← t.follow path
  match t.at? place with
  | some (.file ..) => return { t with entries := t.entries.filter (·.1 != place) }
  | some .directory => throw .isDirectory
  | none => throw .missing

/-- What stands in a tree that did not stand so in an earlier one, directories before what is in
them if they were made first. -/
def newSince (t earlier : Tree) : List (Place × Entry) :=
  t.entries.filter fun e => earlier.at? e.1 != some e.2

end Tree

end ApiScaffold.Files
