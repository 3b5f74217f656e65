import ApiScaffold.Firsts
import ApiScaffold.Model.Enums
import ApiScaffold.Proofs.Places
import ApiScaffold.Proofs.Typed

set_option autoImplicit false

/-! # What the walk for enumerations finds

A node that was visited is finished when the walk is over: its properties that list texts have their
enumeration, and its members were visited too (`Finished`). Each walk finishes every node that it
visits first, so nothing is missed when all walks begin at nodes that stand at their places. -/

namespace ApiScaffold.EnumCollection

open Mapper

variable {r : Resolver} {P : Node → Prop} {c c' s t : EnumCollection} {n schema : Node}

/-! ## Adding enumerations -/

/-- The names of the enumerations found. -/
def names (c : EnumCollection) : List String := c.enums.map (·.name)

theorem mem_names {name : String} : name ∈ s.names ↔ ∃ e ∈ s.enums, e.name = name :=
  List.mem_map

theorem find?_isSome_iff {name : String} : (s.find? name).isSome = true ↔ name ∈ s.names := by
  simp [find?, mem_names]

/-- Adding an enumeration changes nothing, or puts it at the end, under a new name. -/
theorem add_cases (s : EnumCollection) (name : String) (values : List Excerpt) :
    (name ∈ s.names ∨ values = []) ∧ s.add name values = s ∨
      name ∉ s.names ∧ values ≠ [] ∧
        s.add name values = { s with enums := s.enums ++ [enumeration name values] } := by
  by_cases hskip : ((s.find? name).isSome || values.isEmpty) = true
  · rw [add, if_pos hskip]
    rw [Bool.or_eq_true, find?_isSome_iff, List.isEmpty_iff] at hskip
    exact Or.inl ⟨hskip, rfl⟩
  · rw [add, if_neg hskip]
    rw [Bool.or_eq_true, find?_isSome_iff, List.isEmpty_iff, not_or] at hskip
    exact Or.inr ⟨hskip.1, hskip.2, rfl⟩

theorem enums_add (c : EnumCollection) (name : String) (values : List Excerpt) :
    c.enums <+: (c.add name values).enums ∧ (c.add name values).visited = c.visited := by
  rcases add_cases c name values with ⟨-, hsame⟩ | ⟨-, -, hmore⟩
  · rw [hsame]
    exact ⟨List.prefix_rfl, rfl⟩
  · rw [hmore]
    exact ⟨List.prefix_append _ _, rfl⟩

/-- What adding an enumeration adds has its name. -/
theorem mem_enums_add {name : String} {values : List Excerpt} {e : Enumeration}
    (h : e ∈ (c.add name values).enums) : e ∈ c.enums ∨ e.name = name := by
  rcases add_cases c name values with ⟨-, hsame⟩ | ⟨-, -, hmore⟩
  · rw [hsame] at h
    exact Or.inl h
  · rw [hmore] at h
    refine (List.mem_append.mp h).imp_right fun h => ?_
    rw [List.mem_singleton.mp h]
    rfl

/-- An enumeration puts its name behind the others, unless it is there. -/
theorem names_add {name : String} {values : List Excerpt} (h : values ≠ []) :
    (s.add name values).names = addNew s.names name := by
  rcases add_cases s name values with ⟨hskip, hsame⟩ | ⟨hnew, -, hmore⟩
  · rw [hsame, addNew, if_pos (hskip.resolve_right h)]
  · rw [hmore, addNew, if_neg hnew, names, List.map_append]
    rfl

/-- An enumeration that has values is there once it was added. -/
theorem mem_names_add {name : String} {values : List Excerpt} (h : values ≠ []) :
    name ∈ (c.add name values).names := by
  rw [names_add h]
  exact mem_addNew.mpr (Or.inr rfl)

/-- What counts as true has something to go through. -/
theorem entries_ne_nil {values : Node} {nodes : List Node} (htruthy : values.truthy = .ok true)
    (h : values.entries = .ok nodes) : nodes ≠ [] := by
  obtain ⟨here, hhere, h⟩ := bind_eq_ok.mp h
  have hvalue : here.value.truthy = true := by
    simpa [Node.truthy, Node.opened, hhere, Except.map] using htruthy
  have hlength : ∀ {items : List Json}, items ≠ [] → here.itemNodes items ≠ [] := by
    intro items hitems hnil
    rw [Node.itemNodes, List.mapIdx_eq_nil_iff] at hnil
    exact hitems hnil
  split at h
  · next items hitems =>
      cases pure_eq_ok.mp h
      refine hlength ?_
      simpa [hitems, Json.truthy] using hvalue
  · next text htext =>
      cases pure_eq_ok.mp h
      refine hlength ?_
      simpa [htext, Json.truthy] using hvalue
  · next fields hfields =>
      cases pure_eq_ok.mp h
      refine hlength ?_
      simpa [hfields, Json.truthy] using hvalue
  · exact absurd h throw_ne_ok

theorem mapM_ne_nil {α β : Type} {f : α → Except Fault β} {xs : List α} {ys : List β}
    (hxs : xs ≠ []) (h : xs.mapM f = .ok ys) : ys ≠ [] := by
  cases xs with
  | nil => exact absurd rfl hxs
  | cons x xs =>
      rw [List.mapM_cons] at h
      obtain ⟨y, -, h⟩ := bind_eq_ok.mp h
      obtain ⟨ys', -, h⟩ := bind_eq_ok.mp h
      cases pure_eq_ok.mp h
      exact List.cons_ne_nil y ys'

/-- A schema that lists texts lists at least one. -/
theorem listed_ne_nil {values : List Excerpt} (h : Schema.isStringEnum schema = .ok true)
    (hvalues : listed schema = .ok values) : values ≠ [] := by
  obtain ⟨type, -, h⟩ := bind_eq_ok.mp h
  split at h
  · obtain ⟨enum, henum, htruthy⟩ := bind_eq_ok.mp h
    obtain ⟨enum', henum', hrest⟩ := bind_eq_ok.mp hvalues
    obtain ⟨nodes, hnodes, hlast⟩ := bind_eq_ok.mp hrest
    obtain rfl : enum = enum' := Except.ok.inj (henum.symm.trans henum')
    exact mapM_ne_nil (entries_ne_nil htruthy hnodes) hlast
  · cases pure_eq_ok.mp h

theorem yields_addFor {name : String} {u : Unit} (h : Yields (addFor name schema) s u t) :
    ∃ values, listed schema = .ok values ∧ t = s.add (Naming.enumName name) values := by
  obtain ⟨values, hvalues, h⟩ := yields_lift_bind.mp h
  exact ⟨values, hvalues, yields_modify.mp h⟩

/-! ## Properties -/

/-- What a walk makes of the schema of a property: nothing, a schema that lists texts, or a schema
to walk through. -/
inductive Sight where
  | nothing
  | texts (schema : Node)
  | onward (schema : Node)

/-- A list, written in its place, and the schema of its items. -/
structure IsList (n items : Node) : Prop where
  plain : n.pointer? = .ok none
  type : Schema.typeOf n = .ok (.str "array")
  items : n.get "items" = .ok items

/-- An object, written in its place, that is no list and lists no texts. -/
structure IsOther (n : Node) : Prop where
  plain : n.pointer? = .ok none
  object : n.isObject = .ok true
  lists : Schema.isStringEnum n = .ok false
  type : ∃ type, Schema.typeOf n = .ok type ∧ type ≠ .str "array"

/-- A reference is walked through, and so is any other object that is no list and lists no texts. A
list is looked at by its items. -/
inductive Shows (n : Node) : Sight → Prop where
  | reference {pointer : String} (h : n.pointer? = .ok (some pointer)) : Shows n (.onward n)
  | nothing (hplain : n.pointer? = .ok none) (hobject : n.isObject = .ok false) : Shows n .nothing
  | texts (h : ListsTexts n) : Shows n (.texts n)
  | listOfTexts {items : Node} (h : IsList n items) (hlists : ListsTexts items) :
      Shows n (.texts items)
  | list {items : Node} (h : IsList n items) (hnot : ¬ ListsTexts items) : Shows n (.onward items)
  | other (h : IsOther n) : Shows n (.onward n)

theorem isObject_of_typeOf {text : String} (h : Schema.typeOf n = .ok (.str text)) :
    n.isObject = .ok true := by
  obtain ⟨isObject, hobject, h⟩ := bind_eq_ok.mp h
  cases isObject with
  | true => exact hobject
  | false => cases pure_eq_ok.mp h

theorem typeOf_of_isStringEnum (h : Schema.isStringEnum n = .ok true) :
    Schema.typeOf n = .ok (.str "string") := by
  obtain ⟨type, htype, h⟩ := bind_eq_ok.mp h
  split at h
  · next heq => exact heq ▸ htype
  · cases pure_eq_ok.mp h

theorem IsList.unique {items others : Node} (h : IsList n items) (h' : IsList n others) :
    items = others :=
  Except.ok.inj (h.items.symm.trans h'.items)

theorem IsList.not_listsTexts {items : Node} (h : IsList n items) : ¬ ListsTexts n := by
  intro hlists
  have htype := h.type.symm.trans (typeOf_of_isStringEnum hlists.lists)
  simp at htype

theorem IsList.not_isOther {items : Node} (h : IsList n items) : ¬ IsOther n := by
  intro hother
  obtain ⟨type, htype, hne⟩ := hother.type
  exact hne (Except.ok.inj (htype.symm.trans h.type))

theorem IsOther.not_listsTexts (h : IsOther n) : ¬ ListsTexts n := by
  intro hlists
  cases h.lists.symm.trans hlists.lists

/-- There is only one thing to make of a schema. -/
theorem Shows.unique {sight other : Sight} (h : Shows n sight) (h' : Shows n other) :
    sight = other := by
  cases h with
  | reference h =>
      cases h' with
      | reference _ => rfl
      | nothing hplain _ => cases h.symm.trans hplain
      | texts h' | other h' | list h' _ | listOfTexts h' _ => cases h.symm.trans h'.plain
  | nothing hplain hobject =>
      cases h' with
      | reference h' => cases hplain.symm.trans h'
      | nothing _ _ => rfl
      | texts h' =>
          cases hobject.symm.trans (isObject_of_typeOf (typeOf_of_isStringEnum h'.lists))
      | list h' _ | listOfTexts h' _ => cases hobject.symm.trans (isObject_of_typeOf h'.type)
      | other h' => cases hobject.symm.trans h'.object
  | texts h =>
      cases h' with
      | reference h' => cases h.plain.symm.trans h'
      | nothing _ hobject =>
          cases hobject.symm.trans (isObject_of_typeOf (typeOf_of_isStringEnum h.lists))
      | texts _ => rfl
      | list h' _ | listOfTexts h' _ => exact absurd h h'.not_listsTexts
      | other h' => exact absurd h h'.not_listsTexts
  | listOfTexts h hlists =>
      cases h' with
      | reference h' => cases h.plain.symm.trans h'
      | nothing _ hobject => cases hobject.symm.trans (isObject_of_typeOf h.type)
      | texts h' => exact absurd h' h.not_listsTexts
      | listOfTexts h' _ => rw [h.unique h']
      | list h' hnot => exact absurd (h.unique h' ▸ hlists) hnot
      | other h' => exact absurd h' h.not_isOther
  | list h hnot =>
      cases h' with
      | reference h' => cases h.plain.symm.trans h'
      | nothing _ hobject => cases hobject.symm.trans (isObject_of_typeOf h.type)
      | texts h' => exact absurd h' h.not_listsTexts
      | listOfTexts h' hlists => exact absurd (h'.unique h ▸ hlists) hnot
      | list h' _ => rw [h.unique h']
      | other h' => exact absurd h' h.not_isOther
  | other h =>
      cases h' with
      | reference h' => cases h.plain.symm.trans h'
      | nothing _ hobject => cases hobject.symm.trans h.object
      | texts h' => exact absurd h' h.not_listsTexts
      | list h' _ | listOfTexts h' _ => exact absurd h h'.not_isOther
      | other _ => rfl

/-- A schema that is looked at for texts lists some, itself or as a list. -/
theorem Shows.listsTexts {texts : Node} (h : Shows n (.texts texts)) : ListsTexts texts := by
  cases h with
  | texts h => exact h
  | listOfTexts _ h => exact h

theorem Shows.closed {next : Node} (h : Shows n (.onward next)) (hP : Closed P) (hn : P n) :
    P next := by
  cases h with
  | reference _ => exact hn
  | list h _ => exact hP.get hn h.items
  | other _ => exact hn

/-! ## Walks -/

/-- A node is finished: its properties that list texts have their enumeration, and the objects that
its members lead to were visited. -/
structure Finished (r : Resolver) (c : EnumCollection) (n : Node) : Prop where
  property : ∀ p, OwnProperty n p → ListsTexts p.2 → Naming.enumName p.1 ∈ c.names
  member : ∀ allOf members member b, n.get "allOf" = .ok allOf → allOf.entriesIfAny = .ok members →
    member ∈ members → r.objectAt member = .ok (some b) → c.hasVisited b = true

/-- What a part of the walk does: everything found stays, and the nodes it visits are finished. -/
structure Walks (r : Resolver) (P : Node → Prop) (s t : EnumCollection) : Prop where
  enums : s.enums <+: t.enums
  visited : s.visited ⊆ t.visited
  finished : ∀ n ∈ t.visited, n ∈ s.visited ∨ Finished r t n ∧ P n

theorem Walks.names (h : Walks r P s t) : s.names ⊆ t.names :=
  (h.enums.map _).subset

theorem Walks.hasVisited (h : Walks r P s t) (hn : s.hasVisited n = true) :
    t.hasVisited n = true :=
  any_samePlace_mono h.visited hn

theorem Finished.mono (h : Finished r s n) (hwalks : Walks r P s t) : Finished r t n where
  property p hp hlists := hwalks.names (h.property p hp hlists)
  member allOf members member b hall hmembers hmember hb :=
    hwalks.hasVisited (h.member allOf members member b hall hmembers hmember hb)

theorem Walks.refl (s : EnumCollection) : Walks r P s s :=
  ⟨List.prefix_rfl, List.Subset.refl _, fun _ hn => Or.inl hn⟩

theorem Walks.trans {u : EnumCollection} (h : Walks r P s t) (h' : Walks r P t u) :
    Walks r P s u where
  enums := h.enums.trans h'.enums
  visited := List.Subset.trans h.visited h'.visited
  finished n hn := by
    rcases h'.finished n hn with hn | hn
    · exact (h.finished n hn).imp_right fun ⟨hfinished, hP⟩ => ⟨hfinished.mono h', hP⟩
    · exact Or.inr hn

theorem walks_add (s : EnumCollection) (name : String) (values : List Excerpt) :
    Walks r P s (s.add name values) := by
  obtain ⟨henums, hvisited⟩ := enums_add s name values
  refine ⟨henums, ?_, ?_⟩
  · rw [hvisited]
    exact List.Subset.refl _
  · rw [hvisited]
    exact fun _ hn => Or.inl hn

/-- A walk that begins at a node visits the object that the node leads to. -/
def WalksFrom (r : Resolver) (P : Node → Prop) (walk : Node → EnumWalk Unit) : Prop :=
  ∀ n s u t, P n → Yields (walk n) s u t →
    Walks r P s t ∧ ∀ b, r.objectAt n = .ok (some b) → t.hasVisited b = true

theorem pointer?_of_isReference {isReference : Bool} (h : n.isReference = .ok isReference) :
    (isReference = true ∧ ∃ pointer, n.pointer? = .ok (some pointer)) ∨
      isReference = false ∧ n.pointer? = .ok none := by
  obtain ⟨pointer?, hpointer, rfl⟩ := map_eq_ok h
  cases pointer? with
  | none => exact Or.inr ⟨rfl, hpointer⟩
  | some pointer => exact Or.inl ⟨rfl, pointer, hpointer⟩

/-- Whether a schema lists texts, in its place, is found out step by step. -/
theorem listsTexts_iff {listsTexts : Bool}
    (h : (do
      if ← n.isReference then return false
      if !(← n.isObject) then return false
      Schema.isStringEnum n) = Except.ok listsTexts) :
    listsTexts = true ↔ ListsTexts n := by
  obtain ⟨isReference, href, h⟩ := bind_eq_ok.mp h
  rcases pointer?_of_isReference href with ⟨rfl, pointer, hpointer⟩ | ⟨rfl, hplain⟩
  · obtain rfl := pure_eq_ok.mp h
    refine ⟨nofun, fun hlists => ?_⟩
    cases hpointer.symm.trans hlists.plain
  obtain ⟨isObject, hobject, h⟩ := bind_eq_ok.mp h
  cases isObject with
  | false =>
      obtain rfl := pure_eq_ok.mp h
      refine ⟨nofun, fun hlists => ?_⟩
      cases hobject.symm.trans (isObject_of_typeOf (typeOf_of_isStringEnum hlists.lists))
  | true =>
      constructor
      · rintro rfl
        exact ⟨hplain, h⟩
      · intro hlists
        exact Except.ok.inj (h.symm.trans hlists.lists)

/-- What a walk makes of a property tells what it does there. -/
theorem yields_walkProperty {walk : Node → EnumWalk Unit} {name : String} {u : Unit}
    (h : Yields (walkProperty walk name n) s u t) :
    Shows n .nothing ∧ t = s ∨
      (∃ texts values, Shows n (.texts texts) ∧ listed texts = .ok values ∧
        t = s.add (Naming.enumName name) values) ∨
      ∃ next, Shows n (.onward next) ∧ Yields (walk next) s () t := by
  obtain ⟨isReference, href, h⟩ := yields_lift_bind.mp h
  rcases pointer?_of_isReference href with ⟨rfl, pointer, hpointer⟩ | ⟨rfl, hplain⟩
  · exact Or.inr (Or.inr ⟨n, .reference hpointer, h⟩)
  obtain ⟨isObject, hobject, h⟩ := yields_lift_bind.mp h
  cases isObject with
  | false =>
      obtain ⟨-, rfl⟩ := yields_pure.mp h
      exact Or.inl ⟨.nothing hplain hobject, rfl⟩
  | true =>
      obtain ⟨isEnum, henum, h⟩ := yields_lift_bind.mp h
      cases isEnum with
      | true =>
          obtain ⟨values, hvalues, rfl⟩ := yields_addFor h
          exact Or.inr (Or.inl ⟨n, values, .texts ⟨hplain, henum⟩, hvalues, rfl⟩)
      | false =>
          obtain ⟨type, htype, h⟩ := yields_lift_bind.mp h
          by_cases harray : type = .str "array"
          · subst harray
            obtain ⟨items, hitems, h⟩ := yields_lift_bind.mp h
            obtain ⟨listsTexts, hlists, h⟩ := yields_lift_bind.mp h
            have hiff := listsTexts_iff hlists
            cases listsTexts with
            | true =>
                obtain ⟨values, hvalues, rfl⟩ := yields_addFor h
                have hshows : Shows n (.texts items) :=
                  .listOfTexts ⟨hplain, htype, hitems⟩ (hiff.mp rfl)
                exact Or.inr (Or.inl ⟨items, values, hshows, hvalues, rfl⟩)
            | false =>
                have hnot : ¬ ListsTexts items := fun hlists => by simpa using hiff.mpr hlists
                exact Or.inr (Or.inr ⟨items, .list ⟨hplain, htype, hitems⟩ hnot, h⟩)
          · rw [if_neg harray] at h
            exact Or.inr (Or.inr ⟨n, .other ⟨hplain, hobject, henum, type, htype, harray⟩, h⟩)

/-- Looking at a property gives it its enumeration if it lists texts. -/
theorem walkProperty_walks {walk : Node → EnumWalk Unit} {name : String} {u : Unit}
    (hP : Closed P) (hwalk : WalksFrom r P walk) (hn : P n)
    (h : Yields (walkProperty walk name n) s u t) :
    Walks r P s t ∧ (ListsTexts n → Naming.enumName name ∈ t.names) := by
  rcases yields_walkProperty h with
    ⟨hshows, rfl⟩ | ⟨texts, values, hshows, hvalues, rfl⟩ | ⟨next, hshows, h⟩
  · refine ⟨Walks.refl _, fun hlists => ?_⟩
    cases hshows.unique (.texts hlists)
  · exact ⟨walks_add _ _ _, fun _ => mem_names_add (listed_ne_nil hshows.listsTexts.lists hvalues)⟩
  · refine ⟨(hwalk next s () t (hshows.closed hP hn) h).1, fun hlists => ?_⟩
    cases hshows.unique (.texts hlists)

theorem hasVisited_cons (c : EnumCollection) (n : Node) :
    ({ c with visited := n :: c.visited } : EnumCollection).hasVisited n = true := by
  simp [hasVisited, Registry.samePlace_self]

/-- Going through an object: a walk through each of its members, and a look at each of its
properties. -/
def walkThrough (walk : Node → EnumWalk Unit) (here : Node) : EnumWalk Unit := do
  let members ← liftM (do (← here.get "allOf").entriesIfAny)
  members.forM walk
  let properties ← liftM (do (← here.get "properties").fieldsIfAny)
  properties.forM fun p => walkProperty walk p.1 p.2

/-- A walk goes through the object that a schema leads to, if it has not been there. -/
theorem walkWithin_succ (resolver : Option Resolver) (fuel : Nat) (n : Node) :
    walkWithin resolver (fuel + 1) n = (do
      match ← liftM (objectBehind resolver n) with
      | none => return ()
      | some here =>
        if (← get).hasVisited here then return ()
        modify fun c => { c with visited := here :: c.visited }
        walkThrough (walkWithin resolver fuel) here) := by
  rw [walkWithin]
  refine bind_congr fun found => ?_
  cases found with
  | none => rfl
  | some here =>
      refine bind_congr fun c => ?_
      by_cases hseen : c.hasVisited here = true
      · rw [if_pos hseen, if_pos hseen]
      · rw [if_neg hseen, if_neg hseen]
        refine bind_congr fun _ => bind_congr fun members => ?_
        rw [forIn_eq_forM]
        refine bind_congr fun _ => bind_congr fun properties => ?_
        rw [← forIn_eq_forM, bind_pure]

/-- A walk enters an object: it goes through its members, then it looks at its properties. -/
inductive Enters (walk : Node → EnumWalk Unit) (here : Node) (s t : EnumCollection) : Prop where
  | intro {allOf listed : Node} {members : List Node} {properties : List (String × Node)}
      {middle : EnumCollection} (hallOf : here.get "allOf" = .ok allOf)
      (hmembers : allOf.entriesIfAny = .ok members)
      (hfirst : Yields (members.forM walk) { s with visited := here :: s.visited } () middle)
      (hlisted : here.get "properties" = .ok listed)
      (hproperties : listed.fieldsIfAny = .ok properties)
      (hlast : Yields (properties.forM fun p => walkProperty walk p.1 p.2) middle () t)

/-- A walk does nothing where it has been. -/
theorem yields_walkWithin {fuel : Nat} {here : Node} {u : Unit}
    (hfound : r.objectAt n = .ok (some here))
    (h : Yields (walkWithin (some r) (fuel + 1) n) s u t) :
    s.hasVisited here = true ∧ t = s ∨
      s.hasVisited here = false ∧ Enters (walkWithin (some r) fuel) here s t := by
  rw [walkWithin_succ] at h
  obtain ⟨found, hfound', h⟩ := yields_lift_bind.mp h
  cases hfound.symm.trans hfound'
  dsimp only at h
  have h := yields_get_bind.mp h
  split at h
  · next hseen =>
      obtain ⟨-, rfl⟩ := yields_pure.mp h
      exact Or.inl ⟨hseen, rfl⟩
  · next hnew =>
      have h := yields_modify_bind.mp h
      obtain ⟨members, hmembers, h⟩ := yields_lift_bind.mp h
      obtain ⟨_, middle, hfirst, h⟩ := yields_bind.mp h
      obtain ⟨properties, hproperties, hlast⟩ := yields_lift_bind.mp h
      obtain ⟨allOf, hallOf, hmembers⟩ := bind_eq_ok.mp hmembers
      obtain ⟨listed, hlisted, hproperties⟩ := bind_eq_ok.mp hproperties
      exact Or.inr ⟨by simpa using hnew,
        .intro hallOf hmembers hfirst hlisted hproperties hlast⟩

/-- Entering an object finishes it, and all that is visited from it. -/
theorem Enters.walks {walk : Node → EnumWalk Unit} {here : Node} (hP : Closed P)
    (hwalk : WalksFrom r P walk) (hhere : P here) (h : Enters walk here s t) :
    Walks r P s t ∧ t.hasVisited here = true := by
  obtain @⟨allOf, listed, members, properties, middle, hallOf, hmembers, hfirst, hlisted,
    hproperties, hlast⟩ := h
  have hmembersP : ∀ member ∈ members, P member :=
    hP.entriesIfAny (hP.get hhere hallOf) hmembers
  have hpropertiesP : ∀ p ∈ properties, P p.2 :=
    hP.fieldsIfAny (hP.get hhere hlisted) hproperties
  obtain ⟨hbefore, hmemberDone⟩ := yields_forM (R := Walks r P) Walks.refl
    (fun _ _ _ => Walks.trans)
    (fun member hmember s u t h => (hwalk member s u t (hmembersP member hmember) h).1) hfirst
  obtain ⟨hafter, hpropertyDone⟩ := yields_forM (R := Walks r P) Walks.refl
    (fun _ _ _ => Walks.trans)
    (fun p hp s u t h => (walkProperty_walks hP hwalk (hpropertiesP p hp) h).1) hlast
  have hwalks := hbefore.trans hafter
  -- each part was done at some point of the walk, and what follows leaves it as it was
  have hfinished : Finished r t here := by
    refine ⟨?_, ?_⟩
    · rintro p ⟨listed', fields, hlisted', hfields, hp⟩ hlists
      obtain rfl : listed = listed' := Except.ok.inj (hlisted.symm.trans hlisted')
      obtain rfl : properties = fields := Except.ok.inj (hproperties.symm.trans hfields)
      obtain ⟨v, w, -, hyields, hlater⟩ := hpropertyDone p hp
      exact hlater.names ((walkProperty_walks hP hwalk (hpropertiesP p hp) hyields).2 hlists)
    · intro allOf' members' member b hallOf' hmembers' hmember hb
      obtain rfl : allOf = allOf' := Except.ok.inj (hallOf.symm.trans hallOf')
      obtain rfl : members = members' := Except.ok.inj (hmembers.symm.trans hmembers')
      obtain ⟨v, w, -, hyields, hlater⟩ := hmemberDone member hmember
      exact (hlater.trans hafter).hasVisited
        ((hwalk member v _ w (hmembersP member hmember) hyields).2 b hb)
  refine ⟨⟨hwalks.enums, fun v hv => hwalks.visited (List.mem_cons_of_mem _ hv), ?_⟩,
    hwalks.hasVisited (hasVisited_cons _ here)⟩
  intro v hv
  rcases hwalks.finished v hv with hv | hv
  · rcases List.mem_cons.mp hv with rfl | hv
    · exact Or.inr ⟨hfinished, hhere⟩
    · exact Or.inl hv
  · exact Or.inr hv

/-- Walking through a schema finishes the nodes that were not visited before. -/
theorem walkWithin_walks (hP : Closed P) (hr : P r.document.top) (fuel : Nat) :
    WalksFrom r P (walkWithin (some r) fuel) := by
  induction fuel with
  | zero =>
      intro n s u t _ h
      exact absurd h yields_throw
  | succ fuel ih =>
      intro n s u t hn h
      obtain ⟨found, hfound, hrest⟩ := yields_lift_bind.mp h
      cases found with
      | none =>
          obtain ⟨-, rfl⟩ := yields_pure.mp hrest
          refine ⟨Walks.refl _, fun b hb => ?_⟩
          cases hfound.symm.trans hb
      | some here =>
          have hdone : Walks r P s t ∧ t.hasVisited here = true := by
            rcases yields_walkWithin hfound h with ⟨hseen, rfl⟩ | ⟨-, henters⟩
            · exact ⟨Walks.refl _, hseen⟩
            · exact henters.walks hP ih (hP.objectAt hr hn hfound)
          refine ⟨hdone.1, fun b hb => ?_⟩
          obtain rfl : b = here := Option.some.inj (Except.ok.inj (hb.symm.trans hfound))
          exact hdone.2

theorem collect_walks (hP : Closed P) (hr : P r.document.top) :
    WalksFrom r P (collect (some r)) :=
  fun n => walkWithin_walks hP hr _ n

/-! ## Where enumerations come from -/

/-- The objects that a walk through a schema meets. -/
inductive Meets (r : Resolver) (schema : Node) : Node → Prop where
  | self {b : Node} (h : r.objectAt schema = .ok (some b)) : Meets r schema b
  | member {b listed member inner : Node} {members : List Node} (hb : Meets r schema b)
      (hlisted : b.get "allOf" = .ok listed) (hmembers : listed.entriesIfAny = .ok members)
      (hmember : member ∈ members) (h : r.objectAt member = .ok (some inner)) :
      Meets r schema inner
  | property {b inner : Node} {p : String × Node} (hb : Meets r schema b) (hp : OwnProperty b p)
      (h : r.objectAt p.2 = .ok (some inner)) : Meets r schema inner
  | items {b items inner : Node} {p : String × Node} (hb : Meets r schema b)
      (hp : OwnProperty b p) (hitems : p.2.get "items" = .ok items)
      (h : r.objectAt items = .ok (some inner)) : Meets r schema inner

/-- A walk meets what it meets on from a node that it goes through. -/
theorem Meets.trans {b : Node} (hn : ∀ b, r.objectAt n = .ok (some b) → Meets r schema b)
    (h : Meets r n b) : Meets r schema b := by
  induction h with
  | self h => exact hn _ h
  | member _ hlisted hmembers hmember h ih => exact .member ih hlisted hmembers hmember h
  | property _ hp h ih => exact .property ih hp h
  | items _ hp hitems h ih => exact .items ih hp hitems h

theorem Meets.of_member {b : Node} (h : Member r schema b) : Meets r schema b := by
  induction h with
  | self h => exact .self h
  | inner _ hlisted hmembers hmember h ih => exact .member ih hlisted hmembers hmember h

/-- A walk does not lead out of nodes that looking does not lead out of. -/
theorem Meets.stays {b : Node} (h : Meets r schema b) (hP : Closed P) (hr : P r.document.top)
    (hschema : P schema) : P b := by
  induction h with
  | self hb => exact hP.objectAt hr hschema hb
  | member _ hlisted hmembers hmember hb ih =>
      exact hP.objectAt hr (hP.entriesIfAny (hP.get ih hlisted) hmembers _ hmember) hb
  | property _ hp hb ih => exact hP.objectAt hr (hP.ownProperty ih hp) hb
  | items _ hp hitems hb ih => exact hP.objectAt hr (hP.get (hP.ownProperty ih hp) hitems) hb

/-- A property lists texts, or its items do. -/
def ListsHere (n : Node) : Prop :=
  Schema.isStringEnum n = .ok true ∨
    ∃ items, n.get "items" = .ok items ∧ Schema.isStringEnum items = .ok true

/-- A property that a walk through a schema meets and that gets an enumeration. -/
def MeetsTexts (r : Resolver) (schema : Node) (p : String × Node) : Prop :=
  ∃ b, Meets r schema b ∧ OwnProperty b p ∧ ListsHere p.2

/-- The enumerations that a part of a walk through a schema adds are those of properties that it
meets. -/
def Adds (r : Resolver) (schema : Node) (s t : EnumCollection) : Prop :=
  ∀ e ∈ t.enums, e ∈ s.enums ∨
    ∃ p, MeetsTexts r schema p ∧ e.name = Naming.enumName p.1

theorem Adds.refl (s : EnumCollection) : Adds r schema s s := fun _ he => Or.inl he

theorem Adds.trans (u v w : EnumCollection) (h : Adds r schema u v) (h' : Adds r schema v w) :
    Adds r schema u w := by
  intro e he
  rcases h' e he with he | hmet
  · exact h e he
  · exact Or.inr hmet

/-- What a walk from a node adds, a walk that goes through the node adds. -/
theorem Adds.through (hn : ∀ b, r.objectAt n = .ok (some b) → Meets r schema b)
    (h : Adds r n s t) : Adds r schema s t := by
  intro e he
  rcases h e he with he | ⟨p, ⟨b, hb, hp, hlists⟩, hname⟩
  · exact Or.inl he
  · exact Or.inr ⟨p, ⟨b, hb.trans hn, hp, hlists⟩, hname⟩

/-- Walks add the enumerations of properties that they meet. -/
def AddsFrom (r : Resolver) (walk : Node → EnumWalk Unit) : Prop :=
  ∀ n s u t, Yields (walk n) s u t → Adds r n s t

theorem Shows.listsHere {texts : Node} (h : Shows n (.texts texts)) : ListsHere n := by
  cases h with
  | texts h => exact Or.inl h.lists
  | listOfTexts h hlists => exact Or.inr ⟨_, h.items, hlists.lists⟩

theorem walkProperty_adds {walk : Node → EnumWalk Unit} {b : Node} {p : String × Node} {u : Unit}
    (hwalk : AddsFrom r walk) (hb : Meets r schema b) (hp : OwnProperty b p)
    (h : Yields (walkProperty walk p.1 p.2) s u t) : Adds r schema s t := by
  rcases yields_walkProperty h with
    ⟨-, rfl⟩ | ⟨texts, values, hshows, -, rfl⟩ | ⟨next, hshows, h⟩
  · exact Adds.refl _
  · intro e he
    exact (mem_enums_add he).imp_right fun hname => ⟨p, ⟨b, hb, hp, hshows.listsHere⟩, hname⟩
  · refine (hwalk _ _ _ _ h).through fun inner hinner => ?_
    cases hshows with
    | reference _ => exact .property hb hp hinner
    | list hlist _ => exact .items hb hp hlist.items hinner
    | other _ => exact .property hb hp hinner

theorem Enters.adds {walk : Node → EnumWalk Unit} {here : Node} (hwalk : AddsFrom r walk)
    (hhere : Meets r schema here) (h : Enters walk here s t) : Adds r schema s t := by
  obtain @⟨allOf, listed, members, properties, middle, hallOf, hmembers, hfirst, hlisted,
    hproperties, hlast⟩ := h
  have hbefore := (yields_forM (R := Adds r schema) Adds.refl Adds.trans
    (fun member hmember s u t h => (hwalk member s u t h).through fun inner hinner =>
      .member hhere hallOf hmembers hmember hinner) hfirst).1
  have hafter := (yields_forM (R := Adds r schema) Adds.refl Adds.trans
    (fun p hp s u t h => walkProperty_adds hwalk hhere ⟨listed, properties, hlisted, hproperties, hp⟩
      h) hlast).1
  exact Adds.trans _ _ _ hbefore hafter

theorem walkWithin_adds (fuel : Nat) : AddsFrom r (walkWithin (some r) fuel) := by
  induction fuel with
  | zero => exact fun n s u t h => absurd h yields_throw
  | succ fuel ih =>
      intro n s u t h
      obtain ⟨found, hfound, hrest⟩ := yields_lift_bind.mp h
      cases found with
      | none =>
          obtain ⟨-, rfl⟩ := yields_pure.mp hrest
          exact Adds.refl _
      | some here =>
          rcases yields_walkWithin hfound h with ⟨-, rfl⟩ | ⟨-, henters⟩
          · exact Adds.refl _
          · exact henters.adds ih (.self hfound)

/-- The enumerations that walks through some schemas add are those of properties that they meet. -/
theorem forM_collect_adds {schemas : List Node} {u : Unit}
    (h : Yields (schemas.forM (collect (some r))) s u t) :
    ∀ e ∈ t.enums, e ∈ s.enums ∨
      ∃ n ∈ schemas, ∃ p, MeetsTexts r n p ∧ e.name = Naming.enumName p.1 := by
  refine (yields_forM (R := fun s t => ∀ e ∈ t.enums, e ∈ s.enums ∨
    ∃ n ∈ schemas, ∃ p, MeetsTexts r n p ∧ e.name = Naming.enumName p.1)
    (fun _ _ he => Or.inl he) ?_ ?_ h).1
  · intro s t v hst htv e he
    exact (htv e he).elim (hst e) Or.inr
  · intro n hn s u t h e he
    exact (walkWithin_adds _ n s u t h e he).imp_right fun hmet => ⟨n, hn, hmet⟩

/-! ## Whole collections -/

/-- After walks through some schemas, all of them at their places, every property of them that lists
texts has its enumeration. -/
theorem forM_collect_declares {D : Set Document} (hD : Sources D) (hr : r.document ∈ D)
    {schemas : List Node} (hschemas : ∀ n ∈ schemas, Stands D n) {u : Unit}
    (hfresh : s.visited = [])
    (h : Yields (schemas.forM (collect (some r))) s u t) :
    s.enums <+: t.enums ∧
      ∀ n ∈ schemas, ∀ gathered p, Gathered.ofSchema r n = .ok gathered →
        p ∈ gathered.properties → ListsTexts p.2 → Naming.enumName p.1 ∈ t.names := by
  have hP : Closed (Stands D) := hD.closed
  have htop : Stands D r.document.top := stands_top hr
  obtain ⟨hwalks, hall⟩ := yields_forM (R := Walks r (Stands D)) Walks.refl
    (fun _ _ _ => Walks.trans)
    (fun n hn s u t h => (collect_walks hP htop n s u t (hschemas n hn) h).1) h
  refine ⟨hwalks.enums, fun n hn gathered p hgathered hp hlists => ?_⟩
  -- a node at its place that was visited was itself visited, and is finished
  have hfinished : ∀ b, Stands D b → t.hasVisited b = true → Finished r t b := by
    intro b hb hvisited
    simp only [hasVisited, List.any_eq_true] at hvisited
    obtain ⟨v, hv, hsame⟩ := hvisited
    rcases hwalks.finished v hv with hv | ⟨hfinished, hstands⟩
    · rw [hfresh] at hv
      exact absurd hv List.not_mem_nil
    · exact Stands.eq_of_samePlace hD hstands hb hsame ▸ hfinished
  have hmember : ∀ b, Member r n b → t.hasVisited b = true := by
    intro b hb
    induction hb with
    | self hb =>
        obtain ⟨v, w, -, hyields, hlater⟩ := hall n hn
        exact hlater.hasVisited ((collect_walks hP htop n v _ w (hschemas n hn) hyields).2 _ hb)
    | inner hinner hlisted hmembers hmember hb ih =>
        have hstands := hP.memberOf htop (hschemas n hn) hinner
        exact (hfinished _ hstands ih).member _ _ _ _ hlisted hmembers hmember hb
  obtain ⟨b, hb, hown⟩ := ofSchema_members hgathered p hp
  have hstands := hP.memberOf htop (hschemas n hn) hb
  exact (hfinished b hstands (hmember b hb)).property p hown hlists

end ApiScaffold.EnumCollection
