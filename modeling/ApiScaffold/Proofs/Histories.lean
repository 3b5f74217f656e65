import ApiScaffold.Firsts
import ApiScaffold.Proofs.Registry

set_option autoImplicit false

/-! # Histories of registries

A registry is asked to register models, to claim names and to hand models out, one after the other
(`run`). What it was asked for and what it answered is its history. The history tells the whole
registry: the models handed out and those that wait are, in this order, the models asked for, each
at its first place (`run_accounts`). -/

namespace ApiScaffold.Registry

/-! ## Operations -/

/-- What a registry can be asked to do. -/
inductive Operation where
  | register (e : Entry)
  | claim (base : String) (schema : Node) (source : String)
  | pop
deriving Inhabited

/-- What a registry answers. -/
inductive Answer where
  /-- A model has this name. -/
  | named (name : String)
  /-- The model that waited longest, if one did. -/
  | handed (e? : Option Entry)
  | failed (fault : Fault)

/-- An operation with its answer. -/
structure Event where
  operation : Operation
  answer : Answer

variable {r r' : Registry} {e : Entry} {events : List Event}

/-- Do what is asked. A claim that fails leaves the registry as it is. -/
def perform (r : Registry) : Operation → Answer × Registry
  | .register e => (.named e.name, r.register e)
  | .claim base schema source =>
    match r.claim base schema source with
    | .ok (name, next) => (.named name, next)
    | .error fault => (.failed fault, r)
  | .pop =>
    match r.pop? with
    | some (e, next) => (.handed (some e), next)
    | none => (.handed none, r)

/-- Do one thing after the other. -/
def run (r : Registry) : List Operation → List Event × Registry
  | [] => ([], r)
  | o :: rest =>
    let (answer, next) := r.perform o
    let (events, last) := next.run rest
    (⟨o, answer⟩ :: events, last)

/-- The registry after some operations on an empty one. -/
def after (operations : List Operation) : Registry := (run {} operations).2

theorem run_cons (o : Operation) (rest : List Operation) :
    r.run (o :: rest) =
      (⟨o, (r.perform o).1⟩ :: ((r.perform o).2.run rest).1, ((r.perform o).2.run rest).2) := rfl

/-- What one operation does: it registers a model, or changes nothing, or hands a model out. -/
inductive Performs (r : Registry) : Operation → Answer → Registry → Prop where
  | register (e : Entry) : Performs r (.register e) (.named e.name) (r.register e)
  | claim {base name source : String} {schema : Node}
      (h : r.claim base schema source = .ok (name, r.register (claimed name schema source))) :
      Performs r (.claim base schema source) (.named name)
        (r.register (claimed name schema source))
  | fail {base source : String} {schema : Node} {fault : Fault}
      (h : r.claim base schema source = .error fault) :
      Performs r (.claim base schema source) (.failed fault) r
  | hand {e : Entry} {next : Registry} (h : r.pop? = some (e, next)) :
      Performs r .pop (.handed (some e)) next
  | empty (h : r.pop? = none) : Performs r .pop (.handed none) r

theorem performs (r : Registry) (o : Operation) : Performs r o (r.perform o).1 (r.perform o).2 := by
  cases o with
  | register e => exact .register e
  | claim base schema source =>
      unfold perform
      dsimp only
      split
      · next name next hclaim =>
          obtain rfl := (claim_spec hclaim).1
          exact .claim hclaim
      · next hclaim => exact .fail hclaim
  | pop =>
      unfold perform
      dsimp only
      split
      · next hpop => exact .hand hpop
      · next hpop => exact .empty hpop

theorem run_append (before later : List Operation) :
    r.run (before ++ later) =
      ((r.run before).1 ++ ((r.run before).2.run later).1, ((r.run before).2.run later).2) := by
  induction before generalizing r with
  | nil => rfl
  | cons o before ih => rw [List.cons_append, run_cons, run_cons, ih, List.cons_append]

theorem after_append (before later : List Operation) :
    after (before ++ later) = ((after before).run later).2 := by
  rw [after, run_append]
  rfl

/-! ## Models of a history -/

/-- The model that an event asks for. -/
def Event.asked? : Event → Option Entry
  | ⟨.register e, .named _⟩ => some e
  | ⟨.claim _ schema source, .named name⟩ => some (claimed name schema source)
  | _ => none

/-- The model that an event hands out. -/
def Event.handed? : Event → Option Entry
  | ⟨_, .handed e?⟩ => e?
  | _ => none

/-- The models that a history asks for. -/
def asked (events : List Event) : List Entry := events.filterMap Event.asked?

/-- The models that a history hands out. -/
def handedOut (events : List Event) : List Entry := events.filterMap Event.handed?

/-- Add a model, unless there is one of its name. -/
def addModel (kept : List Entry) (e : Entry) : List Entry :=
  if e.name ∈ kept.map (·.name) then kept else kept ++ [e]

/-- Models of different names: of several of one name the first. -/
def firstModels (es : List Entry) : List Entry := es.foldl addModel []

theorem map_name_addModel (kept : List Entry) (e : Entry) :
    (addModel kept e).map (·.name) = addNew (kept.map (·.name)) e.name := by
  unfold addModel addNew
  split
  · rfl
  · rw [List.map_append, List.map_singleton]

theorem map_name_foldl_addModel (kept es : List Entry) :
    (es.foldl addModel kept).map (·.name) = (es.map (·.name)).foldl addNew (kept.map (·.name)) := by
  induction es generalizing kept with
  | nil => rfl
  | cons e es ih => rw [List.foldl_cons, ih, map_name_addModel, List.map_cons, List.foldl_cons]

/-- The first models have the names in the order in which these came first. -/
theorem map_name_firstModels (es : List Entry) :
    (firstModels es).map (·.name) = firsts (es.map (·.name)) :=
  map_name_foldl_addModel [] es

theorem find?_addModel (kept : List Entry) (e : Entry) (name : String) :
    (addModel kept e).find? (·.name == name) = (kept ++ [e]).find? (·.name == name) := by
  unfold addModel
  split
  · next hmem =>
      rw [List.find?_append]
      -- a model that is left out has the name of one in front of it
      by_cases hname : e.name = name
      · obtain ⟨known, hknown, hsame⟩ := List.mem_map.mp hmem
        have hthere : (kept.find? (·.name == name)).isSome = true := by
          rw [List.find?_isSome]
          exact ⟨known, hknown, by simp [hsame, hname]⟩
        obtain ⟨found, hfound⟩ := Option.isSome_iff_exists.mp hthere
        rw [hfound]
        rfl
      · have hother : [e].find? (·.name == name) = none := by simp [hname]
        rw [hother, Option.or_none]
  · rfl

theorem find?_foldl_addModel (kept es : List Entry) (name : String) :
    (es.foldl addModel kept).find? (·.name == name) = (kept ++ es).find? (·.name == name) := by
  induction es generalizing kept with
  | nil => rw [List.foldl_nil, List.append_nil]
  | cons e es ih =>
      rw [List.foldl_cons, ih, List.find?_append, find?_addModel, ← List.find?_append,
        List.append_assoc, List.singleton_append]

/-- Under a name the first models have the first model of that name. -/
theorem find?_firstModels (es : List Entry) (name : String) :
    (firstModels es).find? (·.name == name) = es.find? (·.name == name) :=
  find?_foldl_addModel [] es name

/-! ## What a history tells -/

/-- A history tells a registry: what was handed out was taken, the models are those asked for. -/
structure Traces (events : List Event) (r : Registry) : Prop where
  taken : handedOut events = r.taken
  entries : firstModels (asked events) = r.entries

theorem traces_empty : Traces [] {} := ⟨rfl, rfl⟩

theorem entries_register (r : Registry) (e : Entry) :
    (r.register e).entries = addModel r.entries e := by
  unfold addModel
  split
  · next hmem => rw [register_of_mem hmem]
  · next hnew => exact entries_register_of_notMem hnew

theorem asked_append_singleton (events : List Event) (event : Event) :
    asked (events ++ [event]) = asked events ++ event.asked?.toList := by
  rw [asked, List.filterMap_append, ← asked]
  cases h : event.asked? <;> simp [h]

theorem handedOut_append_singleton (events : List Event) (event : Event) :
    handedOut (events ++ [event]) = handedOut events ++ event.handed?.toList := by
  rw [handedOut, List.filterMap_append, ← handedOut]
  cases h : event.handed? <;> simp [h]

theorem Traces.ask (h : Traces events r) {event : Event} (hasked : event.asked? = some e)
    (hhanded : event.handed? = none) : Traces (events ++ [event]) (r.register e) where
  taken := by
    rw [handedOut_append_singleton, hhanded, Option.toList_none, List.append_nil, h.taken,
      taken_register]
  entries := by
    rw [asked_append_singleton, hasked, Option.toList_some, entries_register, ← h.entries,
      firstModels, List.foldl_append]
    rfl

theorem Traces.skip (h : Traces events r) {event : Event} (hasked : event.asked? = none)
    (hhanded : event.handed? = none) : Traces (events ++ [event]) r where
  taken := by
    rw [handedOut_append_singleton, hhanded, Option.toList_none, List.append_nil, h.taken]
  entries := by
    rw [asked_append_singleton, hasked, Option.toList_none, List.append_nil, h.entries]

theorem Traces.hand (h : Traces events r) (hpop : r.pop? = some (e, r')) :
    Traces (events ++ [⟨.pop, .handed (some e)⟩]) r' where
  taken := by
    rw [handedOut_append_singleton, h.taken, taken_pop? hpop]
    rfl
  entries := by
    have hnone : Event.asked? ⟨.pop, .handed (some e)⟩ = none := rfl
    rw [asked_append_singleton, hnone, Option.toList_none, List.append_nil, h.entries,
      entries_pop? hpop]

/-- What one operation does is told by the history that it makes. -/
theorem Traces.performs (h : Traces events r) {o : Operation} {answer : Answer}
    (hdone : Performs r o answer r') : Traces (events ++ [⟨o, answer⟩]) r' := by
  cases hdone with
  | register e => exact h.ask rfl rfl
  | claim hclaim => exact h.ask rfl rfl
  | fail hclaim => exact h.skip rfl rfl
  | hand hpop => exact h.hand hpop
  | empty hpop => exact h.skip rfl rfl

theorem Traces.run (h : Traces events r) (operations : List Operation) :
    Traces (events ++ (r.run operations).1) (r.run operations).2 := by
  induction operations generalizing r events with
  | nil =>
      rw [Registry.run, List.append_nil]
      exact h
  | cons o rest ih =>
      rw [run_cons, List.append_cons]
      exact ih (h.performs (Registry.performs r o))

/-! ## Growth -/

/-- Whatever is asked, the models that are there stay. -/
theorem Performs.extends {o : Operation} {answer : Answer} (h : Performs r o answer r') :
    Extends r r' := by
  cases h with
  | register e => exact extends_register
  | claim hclaim => exact extends_register
  | fail hclaim => exact Extends.refl r
  | hand hpop => exact extends_pop? hpop
  | empty hpop => exact Extends.refl r

theorem extends_run (r : Registry) (operations : List Operation) :
    Extends r (r.run operations).2 := by
  induction operations generalizing r with
  | nil => exact Extends.refl r
  | cons o rest ih => exact (performs r o).extends.trans (ih (r.perform o).2)

theorem extends_after (before later : List Operation) :
    Extends (after before) (after (before ++ later)) := by
  rw [after_append]
  exact extends_run _ later

theorem extends_after_cons (before : List Operation) (o : Operation) (later : List Operation) :
    Extends (after (before ++ [o])) (after (before ++ o :: later)) := by
  have h := extends_after (before ++ [o]) later
  rwa [List.append_assoc, List.singleton_append] at h

/-! ## The whole history -/

/-- A history accounts for a registry: for its queue, its table and its size. -/
structure Accounts (events : List Event) (r : Registry) : Prop where
  /-- What was handed out and what waits are the models asked for, each at its first place. -/
  queue : handedOut events ++ r.waiting = firstModels (asked events)
  /-- The names of these are the names asked for, in the order in which they came first. -/
  names : (firstModels (asked events)).map (·.name) = firsts ((asked events).map (·.name))
  once : ((handedOut events ++ r.waiting).map (·.name)).Nodup
  size : r.size = (handedOut events ++ r.waiting).length
  /-- Under a name stands the first model that was asked for with it, as it was asked for. -/
  table : ∀ name, r.find? name = (asked events).find? (·.name == name)
  /-- No name is handed out twice. -/
  handedOnce : ((handedOut events).map (·.name)).Nodup
  /-- When nothing waits, every name that was asked for has been handed out. -/
  drained : r.waiting = [] → (handedOut events).map (·.name) = firsts ((asked events).map (·.name))

theorem Traces.accounts (h : Traces events r) : Accounts events r := by
  have hqueue : handedOut events ++ r.waiting = firstModels (asked events) := by
    rw [h.taken, h.entries, Registry.entries]
  have hnames := map_name_firstModels (asked events)
  have honce : ((handedOut events ++ r.waiting).map (·.name)).Nodup := by
    rw [hqueue, hnames]
    exact nodup_firsts _
  refine ⟨hqueue, hnames, honce, ?_, fun name => ?_, ?_, fun hempty => ?_⟩
  · rw [hqueue, h.entries, Registry.size]
  · rw [Registry.find?, ← h.entries, find?_firstModels]
  · rw [List.map_append] at honce
    exact honce.of_append_left
  · rw [hempty, List.append_nil] at hqueue
    rw [hqueue, hnames]

/-- A registry that was empty in the beginning is accounted for by its history, and at every moment
it has the models, unchanged, that it had at any moment before. -/
theorem run_accounts (operations : List Operation) :
    Accounts (run {} operations).1 (run {} operations).2 ∧
      ∀ before later, operations = before ++ later → ∀ name e,
        (run {} before).2.find? name = some e → (run {} operations).2.find? name = some e := by
  refine ⟨(traces_empty.run operations).accounts, ?_⟩
  rintro before later rfl name e he
  exact (extends_after before later).find? he

/-- Models are handed out between claims of one base for two schemas, until none waits. -/
def orchard : List Operation :=
  let schema (title : String) : Node :=
    ⟨⟨0, .null, false⟩, [.key title], .obj [("title", .str title)]⟩
  [.register { name := "TreeDto" }, .claim "Tree" (schema "apple") "inline", .pop,
    .claim "Tree" (schema "pear") "inline", .register { name := "TreeDto", source := "inline" },
    .claim "Tree" (schema "apple") "inline", .pop, .pop, .pop]

theorem orchard_accounts :
    (run {} orchard).2.waiting = [] ∧
      (handedOut (run {} orchard).1).map (·.name) = ["TreeDto", "Tree2Dto", "Tree3Dto"] ∧
      (run {} orchard).2.find? "TreeDto" = some { name := "TreeDto" } := by
  obtain ⟨haccounts, hkept⟩ := run_accounts orchard
  have hempty : (run {} orchard).2.waiting = [] := by decide
  refine ⟨hempty, ?_, ?_⟩
  · rw [haccounts.drained hempty]
    decide
  · exact hkept (orchard.take 1) (orchard.drop 1) (List.take_append_drop 1 orchard).symm "TreeDto" _
      (by decide)

end ApiScaffold.Registry
