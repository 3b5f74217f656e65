import ApiScaffold.Firsts

set_option autoImplicit false

/-! # Watching files

A watcher compares the stamps of the files it sees with those that it saw before, and reports the
differences: each path whose presence or stamp differs once, in the order of the paths. What it saw
is kept before the report is made, so that a report that fails is not repeated.

The watcher works on a world of any kind. What it sees in the world, what it does about changes, and
what happens between two passes are given to it. -/

namespace ApiScaffold

/-- How a file differs from before. -/
inductive Change where
  | added
  | changed
  | deleted
deriving DecidableEq, Repr, Inhabited

/-- The name of a change. -/
def Change.name : Change → String
  | .added => "added"
  | .changed => "changed"
  | .deleted => "deleted"

/-- A path with its change. -/
abbrev Event := Change × String

/-- Paths with their stamps. -/
abbrev Snapshot (σ : Type) := List (String × σ)

/-- The change of a path from one stamp to another, where a path without stamp is not there. -/
def changeOf? {σ : Type} [BEq σ] : Option σ → Option σ → Option Change
  | none, some _ => some .added
  | some _, none => some .deleted
  | some a, some b => if a == b then none else some .changed
  | none, none => none

/-- The differences between two snapshots, in the order of the paths. -/
def Snapshot.diff {σ : Type} [BEq σ] (previous current : Snapshot σ) : List Event :=
  (sortedFirsts (previous.map (·.1) ++ current.map (·.1))).filterMap fun path =>
    (changeOf? (previous.lookup path) (current.lookup path)).map (·, path)

/-- What a handler of changes leaves behind. -/
structure Handled (ε ω : Type) where
  world : ω
  /-- Whether the watcher was told to stop. -/
  stops : Bool := false
  fault : Option ε := none

/-- Watches a world: `ω` is the kind of the world, `σ` that of stamps and `ε` that of faults. -/
structure Watcher (ω σ ε : Type) where
  /-- What there is to see. -/
  scan : ω → Except ε (Snapshot σ)
  /-- What to do about changes. -/
  onChange : List Event → ω → Handled ε ω
  /-- What to do when that fails; without it the fault ends the pass. -/
  onFault : Option (ε → ω → ω) := none

/-- The state of a watcher. -/
structure Watching (ω σ : Type) where
  world : ω
  snapshot : Snapshot σ := []
  stopped : Bool := false

namespace Watcher

/-- One pass: the events since the last pass. -/
def check {ω σ ε : Type} [BEq σ] (w : Watcher ω σ ε) (s : Watching ω σ) :
    Watching ω σ × Except ε (List Event) :=
  match w.scan s.world with
  | .error fault => (s, .error fault)
  | .ok current =>
    let events := s.snapshot.diff current
    if events.isEmpty then ({ s with snapshot := current }, .ok events)
    else
      -- whatever the handler does, the next pass starts from what was seen now
      let handled := w.onChange events s.world
      let next : Watching ω σ :=
        { world := handled.world, snapshot := current, stopped := s.stopped || handled.stops }
      match handled.fault, w.onFault with
      | none, _ => (next, .ok events)
      | some fault, none => (next, .error fault)
      | some fault, some onFault => ({ next with world := onFault fault next.world }, .ok events)

/-- How watching ends. -/
inductive Ending (ε : Type) where
  /-- It was told to stop, or made the passes that were asked for. -/
  | finished
  | failed (fault : ε)
  /-- The wait between two passes was interrupted. -/
  | interrupted
  /-- The passes that were allowed for did not suffice. -/
  | unfinished
deriving DecidableEq, Repr

/-- Make passes until the watcher is told to stop or has made `limit` of them; the first pass is
made in any case. `wait` is what happens between two passes, none if it is interrupted. `fuel`
bounds the passes. -/
def passes {ω σ ε : Type} [BEq σ] (w : Watcher ω σ ε) (wait : ω → Option ω) (limit : Option Nat) :
    Nat → Nat → Watching ω σ → Watching ω σ × Ending ε
  | 0, _, s => (s, .unfinished)
  | fuel + 1, made, s =>
    match w.check s with
    | (next, .error fault) => (next, .failed fault)
    | (next, .ok _) =>
      if limit.any (· ≤ made + 1) then (next, .finished)
      else
        match wait next.world with
        | none => (next, .interrupted)
        | some world =>
          let next := { next with world }
          if next.stopped then (next, .finished)
          else w.passes wait limit fuel (made + 1) next

/-- Watch until told to stop, or for `limit` passes. What was seen before is still known. -/
def start {ω σ ε : Type} [BEq σ] (w : Watcher ω σ ε) (wait : ω → Option ω) (limit : Option Nat)
    (fuel : Nat) (s : Watching ω σ) : Watching ω σ × Ending ε :=
  w.passes wait limit fuel 0 { s with stopped := false }

end Watcher

end ApiScaffold
