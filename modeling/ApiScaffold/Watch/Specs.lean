import ApiScaffold.Spec.Find
import ApiScaffold.Watch.Watcher

set_option autoImplicit false

/-! # Stamps of specifications

The stamp of a file is the time of its last change and its size in bytes. -/

namespace ApiScaffold

open Files (Tree)

/-- What tells two states of a file apart. -/
structure Stamp where
  changed : Int
  size : Nat
deriving DecidableEq, Repr, Inhabited

/-- The stamp of the file that a path leads to. -/
def Stamp.ofFile? (t : Tree) (path : String) : Option Stamp :=
  match t.find path with
  | .ok (.file text changed) => some ⟨changed, text.utf8ByteSize⟩
  | _ => none

/-- The specifications of a directory with their stamps. -/
def Snapshot.ofSpecs (t : Tree) (directory : Json) : Except Fault (Snapshot Stamp) :=
  (SpecFiles.find t directory).map fun paths =>
    paths.filterMap fun path => (Stamp.ofFile? t path).map (path, ·)

end ApiScaffold
