import ApiScaffold.Proofs.Collecting

set_option autoImplicit false

/-! # What a collection of enumerations keeps

A collection is asked to walk through schemas and to add enumerations, in any order (`after`). A
walk changes it step by step (`WalkStep`): it visits a node, or adds what a schema lists. A walk
that fails has made its first steps, and these stay. Each step only appends, so every request does:
what was collected stays as it is, and behind it come enumerations of new names that have values
(`after_extends`). -/

namespace ApiScaffold.EnumCollection

open Mapper (ListsTexts)
open Relation (ReflTransGen)

variable {c s t u : EnumCollection} {P : Enumeration → Prop}

/-! ## One step -/

/-- One thing that a walk does: it visits a node, or adds what a schema lists, for a property. -/
inductive WalkStep (s : EnumCollection) : EnumCollection → Prop where
  | visit (n : Node) : WalkStep s { s with visited := n :: s.visited }
  | add (property : String) {texts : Node} {values : List Excerpt} (hlists : ListsTexts texts)
      (hvalues : listed texts = .ok values) : WalkStep s (s.add (Naming.enumName property) values)

theorem members_enumeration_ne_nil {name : String} {values : List Excerpt} (h : values ≠ []) :
    (enumeration name values).members ≠ [] := by
  simpa [enumeration] using h

/-! ## What steps keep -/

/-- A collection in which no two enumerations have one name, and each has values. -/
structure Sound (c : EnumCollection) : Prop where
  once : c.names.Nodup
  filled : ∀ e ∈ c.enums, e.members ≠ []

/-- A collection extends another: everything is where it was, and behind it come enumerations of
some kind that have new names. -/
structure Extends (P : Enumeration → Prop) (s t : EnumCollection) : Prop where
  kept : s.enums <+: t.enums
  added : ∀ e ∈ t.enums, e ∈ s.enums ∨ e.name ∉ s.names ∧ P e

theorem sound_empty : Sound {} := ⟨List.nodup_nil, nofun⟩

theorem Extends.refl (s : EnumCollection) : Extends P s s :=
  ⟨List.prefix_rfl, fun _ he => Or.inl he⟩

theorem Extends.names (h : Extends P s t) : s.names ⊆ t.names :=
  (h.kept.map _).subset

theorem Extends.trans (h : Extends P s t) (h' : Extends P t u) : Extends P s u where
  kept := h.kept.trans h'.kept
  added e he := by
    rcases h'.added e he with he | ⟨hnew, hP⟩
    · exact h.added e he
    · exact Or.inr ⟨fun hold => hnew (h.names hold), hP⟩

theorem extends_add {name : String} {values : List Excerpt}
    (hP : values ≠ [] → P (enumeration name values)) : Extends P s (s.add name values) := by
  rcases add_cases s name values with ⟨-, hsame⟩ | ⟨hnew, hvalues, hmore⟩
  · rw [hsame]
    exact .refl s
  · rw [hmore]
    refine ⟨List.prefix_append _ _, fun e he => (List.mem_append.mp he).imp_right fun he => ?_⟩
    rw [List.mem_singleton.mp he]
    exact ⟨hnew, hP hvalues⟩

theorem Sound.add (h : Sound s) (name : String) (values : List Excerpt) :
    Sound (s.add name values) where
  once := by
    rcases add_cases s name values with ⟨-, hsame⟩ | ⟨-, hvalues, -⟩
    · rw [hsame]
      exact h.once
    · rw [names_add hvalues]
      exact nodup_addNew name h.once
  filled e he := by
    have hextends : Extends (fun e => e.members ≠ []) s (s.add name values) :=
      extends_add members_enumeration_ne_nil
    exact (hextends.added e he).elim (h.filled e) fun hnew => hnew.2

/-- An enumeration of the texts that a schema lists, named for a property. -/
def Listed (e : Enumeration) : Prop :=
  ∃ property texts values, ListsTexts texts ∧ listed texts = .ok values ∧
    e = enumeration (Naming.enumName property) values

theorem WalkStep.sound (h : WalkStep s t) (hs : Sound s) : Sound t := by
  cases h with
  | visit n => exact ⟨hs.once, hs.filled⟩
  | add property hlists hvalues => exact hs.add _ _

theorem WalkStep.extends (h : WalkStep s t) : Extends Listed s t := by
  cases h with
  | visit n => exact ⟨List.prefix_rfl, fun _ he => Or.inl he⟩
  | add property hlists hvalues =>
      exact extends_add fun _ => ⟨property, _, _, hlists, hvalues, rfl⟩

theorem sound_of_steps (h : ReflTransGen WalkStep s t) (hs : Sound s) : Sound t := by
  induction h with
  | refl => exact hs
  | tail _ hstep ih => exact hstep.sound ih

theorem extends_of_steps (h : ReflTransGen WalkStep s t) : Extends Listed s t := by
  induction h with
  | refl => exact .refl s
  | tail _ hstep ih => exact ih.trans hstep.extends

/-! ## A walk is made of steps -/

section Walks

variable {resolver : Option Resolver} {walk : Node → EnumWalk Unit} {n schema : Node}
variable {name : String}

/-- A walk that makes steps, as long as it gets on. -/
abbrev MakesSteps {α : Type} (x : EnumWalk α) : Prop := Leaves (ReflTransGen WalkStep) x

theorem steps_refl (s : EnumCollection) : ReflTransGen WalkStep s s := .refl

theorem steps_trans (s t u : EnumCollection) (h : ReflTransGen WalkStep s t)
    (h' : ReflTransGen WalkStep t u) : ReflTransGen WalkStep s u :=
  h.trans h'

theorem makesSteps_addFor (h : ListsTexts schema) : MakesSteps (addFor name schema) :=
  leaves_lift_bind steps_refl fun _ hvalues =>
    leaves_modify fun _ => .single (.add name h hvalues)

theorem makesSteps_walkProperty (hwalk : ∀ n, MakesSteps (walk n)) :
    MakesSteps (walkProperty walk name schema) := by
  refine leaves_lift_bind steps_refl fun isReference href => ?_
  rcases pointer?_of_isReference href with ⟨rfl, -⟩ | ⟨rfl, hplain⟩
  · exact hwalk schema
  refine leaves_lift_bind steps_refl fun isObject _ => ?_
  cases isObject with
  | false => exact leaves_pure steps_refl _
  | true =>
      refine leaves_lift_bind steps_refl fun isEnum henum => ?_
      cases isEnum with
      | true => exact makesSteps_addFor ⟨hplain, henum⟩
      | false =>
          refine leaves_lift_bind steps_refl fun type _ => ?_
          by_cases harray : type = .str "array"
          · subst harray
            refine leaves_lift_bind steps_refl fun items _ => ?_
            refine leaves_lift_bind steps_refl fun listsTexts hlists => ?_
            have hiff := listsTexts_iff hlists
            cases listsTexts with
            | true => exact makesSteps_addFor (hiff.mp rfl)
            | false => exact hwalk items
          · rw [if_neg harray]
            exact hwalk schema

theorem makesSteps_walkThrough (hwalk : ∀ n, MakesSteps (walk n)) :
    MakesSteps (walkThrough walk n) := by
  refine leaves_lift_bind steps_refl fun members _ => ?_
  refine Leaves.bind steps_trans (leaves_forM steps_refl steps_trans fun m _ => hwalk m)
    fun _ => ?_
  refine leaves_lift_bind steps_refl fun properties _ => ?_
  exact leaves_forM steps_refl steps_trans fun _ _ => makesSteps_walkProperty hwalk

/-- However deep a walk goes, and wherever it is cut short, it has made steps. -/
theorem makesSteps_walkWithin (fuel : Nat) (schema : Node) :
    MakesSteps (walkWithin resolver fuel schema) := by
  induction fuel generalizing schema with
  | zero => exact leaves_throw steps_refl _
  | succ fuel ih =>
      rw [walkWithin_succ]
      refine leaves_lift_bind steps_refl fun found _ => ?_
      cases found with
      | none => exact leaves_pure steps_refl _
      | some here =>
          refine Leaves.bind steps_trans (leaves_get steps_refl) fun c => ?_
          by_cases hseen : c.hasVisited here = true
          · rw [if_pos hseen]
            exact leaves_pure steps_refl _
          · rw [if_neg hseen]
            exact Leaves.bind steps_trans (leaves_modify fun _ => .single (.visit here))
              fun _ => makesSteps_walkThrough ih

end Walks

/-! ## Requests -/

/-- What a collection can be asked for. -/
inductive Request where
  | collect (schema : Node)
  | add (name : String) (values : List Excerpt)

variable {resolver : Option Resolver}

/-- What comes of a request, and what it leaves behind, also when it fails. -/
def answer (resolver : Option Resolver) (c : EnumCollection) :
    Request → Except Fault Unit × EnumCollection
  | .collect schema => (collect resolver schema).run.run c
  | .add name values => (.ok (), c.add name values)

/-- What requests leave behind, one after the other. -/
def after (resolver : Option Resolver) (requests : List Request) : EnumCollection :=
  requests.foldl (fun c q => (c.answer resolver q).2) {}

/-- The enumerations that a request asks for. -/
def Request.AsksFor : Request → Enumeration → Prop
  | .collect _, e => Listed e
  | .add name values, e => e = enumeration name values

theorem after_concat (requests : List Request) (q : Request) :
    after resolver (requests ++ [q]) = ((after resolver requests).answer resolver q).2 := by
  rw [after, List.foldl_append]
  rfl

theorem sound_answer (q : Request) (hc : Sound c) : Sound (c.answer resolver q).2 := by
  cases q with
  | collect schema => exact sound_of_steps (makesSteps_walkWithin _ schema c) hc
  | add name values => exact hc.add name values

theorem extends_answer (resolver : Option Resolver) (c : EnumCollection) (q : Request) :
    Extends q.AsksFor c (c.answer resolver q).2 := by
  cases q with
  | collect schema => exact extends_of_steps (makesSteps_walkWithin _ schema c)
  | add name values => exact extends_add fun _ => rfl

theorem sound_foldl_answer (requests : List Request) (hc : Sound c) :
    Sound (requests.foldl (fun c q => (c.answer resolver q).2) c) := by
  induction requests generalizing c with
  | nil => exact hc
  | cons q requests ih => exact ih (sound_answer q hc)

theorem sound_after (resolver : Option Resolver) (requests : List Request) :
    Sound (after resolver requests) :=
  sound_foldl_answer requests sound_empty

/-- What a request brought about: an enumeration that has values has its name in the collection, and
a walk that did not fail has finished the nodes that it visited. -/
def Achieves (resolver : Option Resolver) (s t : EnumCollection) : Request → Prop
  | .collect schema => (s.answer resolver (.collect schema)).1 = .ok () →
      ∀ r, resolver = some r → Walks r (fun _ => True) s t ∧
        ∀ b, r.objectAt schema = .ok (some b) → t.hasVisited b = true
  | .add name values => values ≠ [] → name ∈ t.names

theorem achieves_answer (resolver : Option Resolver) (c : EnumCollection) (q : Request) :
    Achieves resolver c (c.answer resolver q).2 q := by
  cases q with
  | collect schema =>
      rintro hok r rfl
      have hclosed : Closed fun _ => True := by
        constructor <;> intros <;> trivial
      exact collect_walks hclosed trivial schema c () _ trivial (Prod.ext hok rfl)
  | add name values => exact fun hvalues => mem_names_add hvalues

/-- Whatever was asked before, and whether it failed, a request only appends: what was collected
stays in its place as it was, and what is new has a new name and was asked for. No name is there
twice, and every enumeration has values. -/
theorem after_extends (resolver : Option Resolver) (earlier : List Request) (q : Request) :
    let s := after resolver earlier
    let t := after resolver (earlier ++ [q])
    s.enums <+: t.enums ∧
      (∀ e ∈ t.enums, e ∈ s.enums ∨ e.name ∉ s.names ∧ q.AsksFor e) ∧
      t.names.Nodup ∧ (∀ e ∈ t.enums, e.members ≠ []) ∧ Achieves resolver s t q := by
  have hextends := extends_answer resolver (after resolver earlier) q
  have hachieves := achieves_answer resolver (after resolver earlier) q
  rw [← after_concat] at hextends hachieves
  have hsound := sound_after resolver (earlier ++ [q])
  exact ⟨hextends.kept, hextends.added, hsound.once, hsound.filled, hachieves⟩

/-- Colors, and sizes that are no list. -/
def garment : Node :=
  (Document.mk 0 (.obj [("properties", .obj [
    ("color", .obj [("type", .str "string"), ("enum", .arr [.str "green", .str "red"])]),
    ("size", .obj [("type", .str "string"), ("enum", .int 5)]),
    ("cut", .obj [("type", .str "string"), ("enum", .arr [.str "wide"])])])]) false).top

-- the walk fails at the sizes; the colors stay, and other colors come too late
example :
    (answer none {} (.collect garment)).1.toOption = none ∧
      ((after none [.collect garment, .add "ColorEnum" [.text "blue"], .add "CutEnum" [],
        .add "FitEnum" [.text "slim"]]).enums.map fun e => (e.name, e.members.map (·.value.value)))
      = [("ColorEnum", [.str "green", .str "red"]), ("FitEnum", [.str "slim"])] := by
  decide +kernel

end ApiScaffold.EnumCollection
