import ApiScaffold.Fault
import ApiScaffold.Watch.Watcher
import Mathlib

set_option autoImplicit false

/-! # Passes of a watcher

A watcher looks at a world pass by pass. In between the world changes, and what the handler does
about changes may change it too, or fail. A pass that can see the world keeps what it saw, and
reports what differs from what was seen last (`Tells`): each path once, in the order of the paths.
So nothing is lost and nothing is reported twice, and all reports together, put into effect one
after the other, give the paths that were seen last (`run_reports`). -/

namespace ApiScaffold

/-! ## Differences between snapshots -/

section Differences

variable {σ : Type} {before now : Option σ} {previous current : Snapshot σ} {change : Change}
  {path : String} {events : List Event}

/-- What became of a path that had one stamp and has another; a path without stamp is not there. -/
inductive Becomes : Option σ → Option σ → Change → Prop where
  | added (now : σ) : Becomes none (some now) .added
  | deleted (before : σ) : Becomes (some before) none .deleted
  | changed {before now : σ} (h : before ≠ now) : Becomes (some before) (some now) .changed

/-- The paths of a snapshot. -/
def Snapshot.paths (s : Snapshot σ) : Finset String := (s.map (·.1)).toFinset

theorem Snapshot.mem_paths {s : Snapshot σ} : path ∈ s.paths ↔ s.lookup path ≠ none := by
  rw [Snapshot.paths, List.mem_toFinset, List.mem_map, ne_eq, List.lookup_eq_none_iff]
  constructor
  · rintro ⟨p, hp, rfl⟩ hnone
    simpa using hnone p hp
  · intro h
    push Not at h
    obtain ⟨p, hp, hpath⟩ := h
    have hsame : path = p.1 := by simpa using hpath
    exact ⟨p, hp, hsame.symm⟩

theorem becomes_added : Becomes before now .added ↔ before = none ∧ now ≠ none := by
  constructor
  · intro h
    cases h with
    | added b => exact ⟨rfl, Option.some_ne_none b⟩
  · rintro ⟨rfl, hnow⟩
    obtain ⟨b, rfl⟩ := Option.ne_none_iff_exists'.mp hnow
    exact .added b

theorem becomes_deleted : Becomes before now .deleted ↔ before ≠ none ∧ now = none := by
  constructor
  · intro h
    cases h with
    | deleted a => exact ⟨Option.some_ne_none a, rfl⟩
  · rintro ⟨hbefore, rfl⟩
    obtain ⟨a, rfl⟩ := Option.ne_none_iff_exists'.mp hbefore
    exact .deleted a

theorem Becomes.ne (h : Becomes before now change) : before ≠ now := by
  cases h with
  | added b => exact (Option.some_ne_none b).symm
  | deleted a => exact Option.some_ne_none a
  | changed hab => exact fun h => hab (Option.some.inj h)

theorem Becomes.unique {other : Change} (h : Becomes before now change)
    (h' : Becomes before now other) : other = change := by
  cases h <;> cases h' <;> rfl

theorem Becomes.mem_paths (h : Becomes (previous.lookup path) (current.lookup path) change) :
    path ∈ previous.paths ∨ path ∈ current.paths := by
  rw [Snapshot.mem_paths, Snapshot.mem_paths]
  by_contra hboth
  push Not at hboth
  exact h.ne (hboth.1.trans hboth.2.symm)

/-- What a comparison of stamps finds is what became of the path. -/
theorem changeOf?_eq_some [DecidableEq σ] :
    changeOf? before now = some change ↔ Becomes before now change := by
  constructor
  · intro h
    cases before with
    | none =>
        cases now with
        | none => cases h
        | some b =>
            cases h
            exact .added b
    | some a =>
        cases now with
        | none =>
            cases h
            exact .deleted a
        | some b =>
            by_cases hab : a = b
            · simp [changeOf?, hab] at h
            · simp only [changeOf?, beq_iff_eq, hab, if_false, Option.some.injEq] at h
              subst h
              exact .changed hab
  · intro h
    cases h with
    | added b => rfl
    | deleted a => rfl
    | changed hab => simp [changeOf?, hab]

theorem exists_becomes [DecidableEq σ] (h : before ≠ now) :
    ∃ change, Becomes before now change := by
  simp only [← changeOf?_eq_some, ← Option.isSome_iff_exists]
  cases before <;> cases now <;> simp_all [changeOf?]

/-- Events tell the differences between two snapshots. -/
structure Tells (previous current : Snapshot σ) (events : List Event) : Prop where
  /-- The paths get strictly greater from event to event. -/
  ordered : events.Pairwise (·.2 < ·.2)
  /-- An event says what became of its path. -/
  faithful : ∀ change path, (change, path) ∈ events →
    Becomes (previous.lookup path) (current.lookup path) change
  /-- A path that differs has one event. -/
  once : ∀ path, previous.lookup path ≠ current.lookup path → ∃! change, (change, path) ∈ events

theorem mem_diff [DecidableEq σ] : (change, path) ∈ previous.diff current ↔
    Becomes (previous.lookup path) (current.lookup path) change := by
  simp only [Snapshot.diff, List.mem_filterMap, mem_sortedFirsts, Option.map_eq_some_iff,
    changeOf?_eq_some, Prod.mk.injEq]
  constructor
  · rintro ⟨listed, -, found, hfound, rfl, rfl⟩
    exact hfound
  · intro h
    refine ⟨path, ?_, change, h, rfl, rfl⟩
    rw [List.mem_append]
    exact h.mem_paths.imp List.mem_toFinset.mp List.mem_toFinset.mp

theorem tells_diff [DecidableEq σ] (previous current : Snapshot σ) :
    Tells previous current (previous.diff current) where
  ordered := by
    have hlt : (sortedFirsts (previous.map (·.1) ++ current.map (·.1))).Pairwise (· < ·) :=
      (pairwise_sortedFirsts _).imp₂ (fun _ _ => lt_of_le_of_ne) (nodup_sortedFirsts _)
    refine hlt.filterMap _ ?_
    intro a b hab e he e' he'
    obtain ⟨-, -, rfl⟩ := Option.map_eq_some_iff.mp he
    obtain ⟨-, -, rfl⟩ := Option.map_eq_some_iff.mp he'
    exact hab
  faithful _ _ := mem_diff.mp
  once path hne := by
    obtain ⟨change, h⟩ := exists_becomes hne
    exact ⟨change, mem_diff.mpr h, fun other hother => h.unique (mem_diff.mp hother)⟩

theorem Tells.mem_iff (h : Tells previous current events) : (change, path) ∈ events ↔
    Becomes (previous.lookup path) (current.lookup path) change := by
  refine ⟨h.faithful change path, fun hbecomes => ?_⟩
  obtain ⟨found, hfound, -⟩ := h.once path hbecomes.ne
  exact hbecomes.unique (h.faithful found path hfound) ▸ hfound

/-! ## Putting events into effect -/

/-- The paths that there are after an event. -/
def Event.replay (paths : Finset String) : Event → Finset String
  | (.added, path) => insert path paths
  | (.deleted, path) => paths.erase path
  | (.changed, _) => paths

/-- The paths that there are after some events. -/
def replay (paths : Finset String) (events : List Event) : Finset String :=
  events.foldl Event.replay paths

theorem replay_append (paths : Finset String) (events later : List Event) :
    replay paths (events ++ later) = replay (replay paths events) later :=
  List.foldl_append

/-- When every path has one event at most, only this event decides whether it is there. -/
theorem mem_replay {paths : Finset String} (h : events.Pairwise (·.2 < ·.2)) :
    path ∈ replay paths events ↔
      (.added, path) ∈ events ∨ path ∈ paths ∧ (.deleted, path) ∉ events := by
  induction events generalizing paths with
  | nil => simp [replay]
  | cons e events ih =>
      obtain ⟨hfirst, hrest⟩ := List.pairwise_cons.mp h
      have hother : ∀ change, (change, e.2) ∉ events :=
        fun change hmem => lt_irrefl e.2 (hfirst (change, e.2) hmem)
      rw [replay, List.foldl_cons, ← replay, ih hrest]
      obtain ⟨change, here⟩ := e
      cases change with
      | added =>
          by_cases hpath : path = here
          · subst hpath
            simp [Event.replay, hother]
          · simp [Event.replay, hpath]
      | changed => simp [Event.replay]
      | deleted =>
          by_cases hpath : path = here
          · subst hpath
            simp [Event.replay, hother]
          · simp [Event.replay, hpath]

/-- Events that tell the differences lead from the paths of one snapshot to those of the other. -/
theorem Tells.replay (h : Tells previous current events) :
    ApiScaffold.replay previous.paths events = current.paths := by
  ext path
  rw [mem_replay h.ordered, h.mem_iff, h.mem_iff, becomes_added, becomes_deleted,
    Snapshot.mem_paths, Snapshot.mem_paths]
  tauto

end Differences

/-! ## Passes -/

/-- A pass: what there was to see, what the handler was called with, call by call, what came of the
pass, and the snapshot that the watcher has afterwards. -/
structure Pass (σ ε : Type) where
  seen : Except ε (Snapshot σ)
  calls : List (List Event)
  answer : Except ε (List Event)
  kept : Snapshot σ

/-- What happens to a world that is watched: something changes it, or the watcher makes a pass. -/
inductive Move (ω : Type) where
  | edit (change : ω → ω)
  | pass

/-- What was seen last: in the last pass that could see the world, or else before all passes. -/
def lastSeen {σ ε : Type} (known : Snapshot σ) (passes : List (Pass σ ε)) : Snapshot σ :=
  passes.foldl (fun known p => p.seen.toOption.getD known) known

/-- All events that the handler was called with. -/
def reported {σ ε : Type} (passes : List (Pass σ ε)) : List Event :=
  passes.flatMap (·.calls.flatten)

section Passes

variable {ω σ ε : Type} {w : Watcher ω σ ε} {s : Watching ω σ} {previous last : Snapshot σ}
  {p : Pass σ ε} {passes : List (Pass σ ε)}

/-- A pass reports what differs from the snapshot before it, and keeps what was seen. If nothing was
seen, it reports nothing and keeps what it had. -/
structure Pass.Reports (previous : Snapshot σ) (p : Pass σ ε) : Prop where
  unseen : ∀ fault, p.seen = .error fault → p.calls = [] ∧ p.kept = previous
  seen : ∀ current, p.seen = .ok current → p.kept = current ∧
    ∃ events, Tells previous current events ∧
      p.calls = (if events = [] then [] else [events]) ∧
      ∀ answer, p.answer = .ok answer → answer = events

theorem Pass.Reports.kept_eq (h : p.Reports previous) :
    p.kept = p.seen.toOption.getD previous := by
  cases hseen : p.seen with
  | error fault => exact (h.unseen fault hseen).2
  | ok current => exact (h.seen current hseen).1

theorem Pass.Reports.replay (h : p.Reports previous) :
    ApiScaffold.replay previous.paths p.calls.flatten = p.kept.paths := by
  cases hseen : p.seen with
  | error fault =>
      obtain ⟨hcalls, hkept⟩ := h.unseen fault hseen
      rw [hcalls, hkept]
      rfl
  | ok current =>
      obtain ⟨hkept, events, htells, hcalls, -⟩ := h.seen current hseen
      rw [hkept, hcalls, ← htells.replay]
      split
      · next hnone => rw [hnone, List.flatten_nil]
      · rw [List.flatten_singleton]

/-- Passes of which each reports what differs from the snapshot that the one before it kept. -/
inductive Chain : Snapshot σ → List (Pass σ ε) → Snapshot σ → Prop where
  | nil (known : Snapshot σ) : Chain known [] known
  | cons {known last : Snapshot σ} {p : Pass σ ε} {rest : List (Pass σ ε)}
      (hfirst : p.Reports known) (hrest : Chain p.kept rest last) : Chain known (p :: rest) last

theorem Chain.last_eq (h : Chain previous passes last) : last = lastSeen previous passes := by
  induction h with
  | nil known => rfl
  | cons hfirst hrest ih =>
      rw [ih, hfirst.kept_eq]
      rfl

theorem Chain.reports (h : Chain previous passes last) {earlier later : List (Pass σ ε)}
    (hpasses : passes = earlier ++ p :: later) : p.Reports (lastSeen previous earlier) := by
  induction h generalizing earlier with
  | nil known => simp at hpasses
  | @cons known last first rest hfirst hrest ih =>
      cases earlier with
      | nil =>
          obtain ⟨rfl, rfl⟩ := List.cons.inj hpasses
          exact hfirst
      | cons q earlier =>
          obtain ⟨rfl, htail⟩ := List.cons.inj hpasses
          have hlater := ih htail
          rw [hfirst.kept_eq] at hlater
          exact hlater

theorem Chain.replay (h : Chain previous passes last) :
    ApiScaffold.replay previous.paths (reported passes) = last.paths := by
  induction h with
  | nil known => rfl
  | cons hfirst hrest ih =>
      rw [reported, List.flatMap_cons, replay_append, hfirst.replay]
      exact ih

/-- The state of a watcher after its handler was called. -/
def Watching.after (s : Watching ω σ) (current : Snapshot σ) (handled : Handled ε ω) :
    Watching ω σ :=
  { world := handled.world, snapshot := current, stopped := s.stopped || handled.stops }

/-- The same state, in a world with a record that is empty. -/
def Watching.withRecord (s : Watching ω σ) : Watching (ω × List (List Event)) σ :=
  { world := (s.world, []), snapshot := s.snapshot, stopped := s.stopped }

namespace Watcher

variable [DecidableEq σ]

/-- What checking does: it sees nothing, or no differences, or differences; then the handler works,
or it fails, and its fault ends the pass or is dealt with. -/
inductive Checks (w : Watcher ω σ ε) (s : Watching ω σ) :
    Watching ω σ → Except ε (List Event) → Prop where
  | unseen {fault : ε} (hscan : w.scan s.world = .error fault) : Checks w s s (.error fault)
  | same {current : Snapshot σ} (hscan : w.scan s.world = .ok current)
      (hsame : s.snapshot.diff current = []) : Checks w s { s with snapshot := current } (.ok [])
  | handled {current : Snapshot σ} {next : Watching ω σ} (hscan : w.scan s.world = .ok current)
      (hdiffers : s.snapshot.diff current ≠ [])
      (hnext : next = s.after current (w.onChange (s.snapshot.diff current) s.world))
      (hfault : (w.onChange (s.snapshot.diff current) s.world).fault = none) :
      Checks w s next (.ok (s.snapshot.diff current))
  | failed {current : Snapshot σ} {next : Watching ω σ} {fault : ε}
      (hscan : w.scan s.world = .ok current) (hdiffers : s.snapshot.diff current ≠ [])
      (hnext : next = s.after current (w.onChange (s.snapshot.diff current) s.world))
      (hfault : (w.onChange (s.snapshot.diff current) s.world).fault = some fault)
      (hnone : w.onFault = none) : Checks w s next (.error fault)
  | caught {current : Snapshot σ} {next : Watching ω σ} {fault : ε} {onFault : ε → ω → ω}
      (hscan : w.scan s.world = .ok current) (hdiffers : s.snapshot.diff current ≠ [])
      (hnext : next = s.after current (w.onChange (s.snapshot.diff current) s.world))
      (hfault : (w.onChange (s.snapshot.diff current) s.world).fault = some fault)
      (hsome : w.onFault = some onFault) :
      Checks w s { next with world := onFault fault next.world } (.ok (s.snapshot.diff current))

theorem checks (w : Watcher ω σ ε) (s : Watching ω σ) :
    Checks w s (w.check s).1 (w.check s).2 := by
  unfold check
  split
  · next fault hscan => exact .unseen hscan
  · next current hscan =>
      dsimp only
      split
      · next hempty =>
          rw [List.isEmpty_iff] at hempty
          rw [hempty]
          exact .same hscan hempty
      · next hdiffers =>
          rw [List.isEmpty_iff] at hdiffers
          split
          · next hfault => exact .handled hscan hdiffers rfl hfault
          · next fault hfault hnone => exact .failed hscan hdiffers rfl hfault hnone
          · next fault onFault hfault hsome => exact .caught hscan hdiffers rfl hfault hsome

variable {next : Watching ω σ} {answer : Except ε (List Event)} {current : Snapshot σ} {fault : ε}

theorem Checks.eq_of_unseen (h : Checks w s next answer) (hscan : w.scan s.world = .error fault) :
    next = s := by
  cases h with
  | unseen _ => rfl
  | same hseen | handled hseen | failed hseen | caught hseen => cases hseen.symm.trans hscan

theorem Checks.keeps (h : Checks w s next answer) (hscan : w.scan s.world = .ok current) :
    next.snapshot = current ∧
      ∀ events, answer = .ok events → events = s.snapshot.diff current := by
  cases h with
  | unseen hunseen => cases hunseen.symm.trans hscan
  | same hseen hsame =>
      cases hseen.symm.trans hscan
      exact ⟨rfl, fun events hevents => (Except.ok.inj hevents).symm.trans hsame.symm⟩
  | handled hseen _ hnext =>
      cases hseen.symm.trans hscan
      exact ⟨hnext ▸ rfl, fun events hevents => (Except.ok.inj hevents).symm⟩
  | failed hseen _ hnext =>
      cases hseen.symm.trans hscan
      refine ⟨hnext ▸ rfl, fun events hevents => ?_⟩
      cases hevents
  | caught hseen _ hnext =>
      cases hseen.symm.trans hscan
      exact ⟨hnext ▸ rfl, fun events hevents => (Except.ok.inj hevents).symm⟩

/-! ### What the handler is called with -/

/-- The same watcher, in a world with a record of what its handler was called with. -/
def recording (w : Watcher ω σ ε) : Watcher (ω × List (List Event)) σ ε where
  scan world := w.scan world.1
  onChange events world :=
    let handled := w.onChange events world.1
    { handled with world := (handled.world, world.2 ++ [events]) }
  onFault := w.onFault.map fun onFault fault world => (onFault fault world.1, world.2)

/-- A record goes on with the differences, if there are any. -/
theorem Checks.record {s next : Watching (ω × List (List Event)) σ}
    (h : Checks w.recording s next answer) (hscan : w.scan s.world.1 = .ok current) :
    next.world.2 = s.world.2 ++
      if s.snapshot.diff current = [] then [] else [s.snapshot.diff current] := by
  cases h with
  | unseen hunseen => cases hunseen.symm.trans hscan
  | same hseen hsame =>
      cases hseen.symm.trans hscan
      rw [if_pos hsame, List.append_nil]
  | handled hseen hdiffers hnext =>
      cases hseen.symm.trans hscan
      rw [if_neg hdiffers, hnext]
      rfl
  | failed hseen hdiffers hnext =>
      cases hseen.symm.trans hscan
      rw [if_neg hdiffers, hnext]
      rfl
  | caught hseen hdiffers hnext _ hsome =>
      cases hseen.symm.trans hscan
      obtain ⟨onFault, -, rfl⟩ := Option.map_eq_some_iff.mp hsome
      rw [if_neg hdiffers, hnext]
      rfl

/-- What the handler is called with when a watcher checks, call by call. -/
def callsOf (w : Watcher ω σ ε) (s : Watching ω σ) : List (List Event) :=
  (w.recording.check s.withRecord).1.world.2

theorem callsOf_unseen (hscan : w.scan s.world = .error fault) : w.callsOf s = [] :=
  congrArg (·.world.2) ((checks w.recording s.withRecord).eq_of_unseen hscan)

theorem callsOf_seen (hscan : w.scan s.world = .ok current) :
    w.callsOf s =
      if s.snapshot.diff current = [] then [] else [s.snapshot.diff current] :=
  (checks w.recording s.withRecord).record hscan

/-! ### Runs -/

/-- A pass in which a watcher checks. -/
def pass (w : Watcher ω σ ε) (s : Watching ω σ) : Pass σ ε where
  seen := w.scan s.world
  calls := w.callsOf s
  answer := (w.check s).2
  kept := (w.check s).1.snapshot

/-- Passes and changes of the world, one after the other. -/
def run (w : Watcher ω σ ε) (s : Watching ω σ) : List (Move ω) → List (Pass σ ε) × Watching ω σ
  | [] => ([], s)
  | .edit change :: rest => w.run { s with world := change s.world } rest
  | .pass :: rest =>
    let (passes, last) := w.run (w.check s).1 rest
    (w.pass s :: passes, last)

theorem pass_reports (w : Watcher ω σ ε) (s : Watching ω σ) : (w.pass s).Reports s.snapshot where
  unseen fault hscan :=
    ⟨callsOf_unseen hscan, congrArg Watching.snapshot ((checks w s).eq_of_unseen hscan)⟩
  seen current hscan := by
    obtain ⟨hkept, hanswer⟩ := (checks w s).keeps hscan
    exact ⟨hkept, _, tells_diff s.snapshot current, callsOf_seen hscan, hanswer⟩

theorem run_chain (w : Watcher ω σ ε) (s : Watching ω σ) (moves : List (Move ω)) :
    Chain s.snapshot (w.run s moves).1 (w.run s moves).2.snapshot := by
  induction moves generalizing s with
  | nil => exact .nil s.snapshot
  | cons move rest ih =>
      cases move with
      | edit change => exact ih { s with world := change s.world }
      | pass => exact .cons (w.pass_reports s) (ih (w.check s).1)

/-- Whatever happens to a world between and during the passes of a watcher that has seen nothing
yet: each pass reports, in one call of the handler, the differences between what it sees and what was
seen last, and keeps what it sees. What was seen last is what the watcher has in the end, and all
reports together give its paths. -/
theorem run_reports (w : Watcher ω σ ε) (world : ω) (moves : List (Move ω)) :
    let (passes, last) := w.run { world } moves
    (∀ earlier p later, passes = earlier ++ p :: later → p.Reports (lastSeen [] earlier)) ∧
      last.snapshot = lastSeen [] passes ∧
      replay ∅ (reported passes) = last.snapshot.paths := by
  have hchain := w.run_chain { world } moves
  exact ⟨fun earlier p later hpasses => hchain.reports hpasses, hchain.last_eq, hchain.replay⟩

/-- Watches files that are seen only at low tide, with a handler that always fails. -/
def shore : Watcher (Option (Snapshot Nat)) Nat Fault where
  scan world := world.elim (.error .unfit) .ok
  onChange _ world := { world, fault := some .halfCharacter }

/-- The tide is high in the second pass. A file comes, makes way for two others of which one is
written anew, and in the last pass all is as it was. -/
def tides : List (Move (Option (Snapshot Nat))) :=
  [.edit fun _ => some [("b", 1)], .pass, .edit fun _ => none, .pass,
    .edit fun _ => some [("c", 2), ("a", 3)], .pass, .edit fun _ => some [("a", 4), ("c", 2)], .pass,
    .pass]

/-- Though the handler fails every time, each change is reported once, and the reports tell which
files there are in the end. -/
theorem shore_reports :
    let passes := (shore.run { world := none } tides).1
    passes.map (·.calls) =
        [[[(.added, "b")]], [], [[(.added, "a"), (.deleted, "b"), (.added, "c")]],
          [[(.changed, "a")]], []] ∧
      (∀ p ∈ passes[3]?, p.Reports [("c", 2), ("a", 3)]) ∧
      replay ∅ (reported passes) = {"a", "c"} := by
  intro passes
  obtain ⟨hreports, hlast, hreplay⟩ := run_reports shore none tides
  refine ⟨by cbv, ?_, ?_⟩
  · rintro p ⟨⟩
    exact hreports (passes.take 3) _ (passes.drop 4) rfl
  · have hseen : lastSeen [] passes = [("a", 4), ("c", 2)] := by
      unfold passes
      cbv
    exact hreplay.trans (congrArg Snapshot.paths (hlast.trans hseen))

end Watcher

end Passes

end ApiScaffold
