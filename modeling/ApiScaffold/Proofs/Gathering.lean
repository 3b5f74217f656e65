import ApiScaffold.Firsts
import ApiScaffold.Proofs.Alike
import ApiScaffold.Proofs.References
import ApiScaffold.Proofs.Visiting

set_option autoImplicit false

/-! # What a schema and its members say

The properties of a schema are gathered from the objects that are reached from it along references
and along members of `allOf`, each object visited once. An object is finished when its own
properties and what it requires are there and its members have been visited (`Finished`). Gathering
finishes every object that it visits, so in the end all objects in reach have been visited and
nothing is gathered from others (`Closure`). What the schema says itself is added last, so its own
properties have the schemas that it gives them. -/

namespace ApiScaffold

open Resolver (Met Reaches Leads)

variable {r : Resolver} {n b c schema : Node} {g g' g'' : Gathered} {fuel : Nat}

/-- The members of a schema are met on a walk along references and members. -/
theorem member_iff_met : Member r schema b ↔ Met r MemberOf schema b := by
  constructor
  · intro h
    induction h with
    | self h => exact .self h
    | inner _ hlisted hmembers hmember hb ih =>
        exact .onward ih ⟨_, _, hlisted, hmembers, hmember⟩ hb
  · intro h
    induction h with
    | self h => exact .self h
    | onward _ h hb ih =>
        obtain ⟨listed, members, hlisted, hmembers, hmember⟩ := h
        exact .inner ih hlisted hmembers hmember hb

/-- What has fields to read is an object. -/
theorem isObject_of_get {key : String} (h : n.get key = .ok b) : n.isObject = .ok true := by
  obtain ⟨here, hhere, h⟩ := bind_eq_ok.mp h
  split at h
  · next fields hfields =>
      refine bind_eq_ok.mpr ⟨here, hhere, ?_⟩
      rw [hfields]
      rfl
  · exact absurd h throw_ne_ok

/-- The fields of an object have different names. -/
theorem Stands.nodup_fieldsIfAny {D : Set Document} (hD : Sources D) (hn : Stands D n)
    {fields : List (String × Node)} (h : n.fieldsIfAny = .ok fields) :
    (fields.map (·.1)).Nodup := by
  obtain ⟨truthy, -, h⟩ := bind_eq_ok.mp h
  split at h
  · obtain ⟨here, hhere, h⟩ := bind_eq_ok.mp h
    split at h
    · next found hfound =>
        obtain rfl := pure_eq_ok.mp h
        have hnodup := (hD.closed.settle hn hhere).nodup_keys hD hfound
        simpa [Node.fieldNodes, Function.comp_def] using hnodup
    · exact absurd h throw_ne_ok
  · obtain rfl := pure_eq_ok.mp h
    exact List.nodup_nil

namespace Gathered

/-! ## Putting properties -/

section Putting

variable {name : String} {s : Node} {known fields : List (String × Node)} {p : String × Node}

/-- The names of the properties gathered. -/
def names (g : Gathered) : List String := g.properties.map (·.1)

theorem map_fst_put (name : String) (s : Node) (known : List (String × Node)) :
    (put name s known).map (·.1) = addNew (known.map (·.1)) name := by
  induction known with
  | nil => simp [put, addNew]
  | cons q known ih =>
      rw [put]
      by_cases heq : q.1 = name
      · simp [addNew, heq]
      · have hne : name ≠ q.1 := fun h => heq h.symm
        simp only [heq, if_false, List.map_cons, ih, addNew, List.mem_cons, hne, false_or]
        split <;> rfl

/-- Names that are new come behind those that are known. -/
theorem map_fst_foldl_put (fields known : List (String × Node)) :
    (fields.foldl (fun known p => put p.1 p.2 known) known).map (·.1) =
      (fields.map (·.1)).foldl addNew (known.map (·.1)) := by
  induction fields generalizing known with
  | nil => rfl
  | cons f fields ih => rw [List.foldl_cons, ih, map_fst_put, List.map_cons, List.foldl_cons]

theorem mem_put_self : (name, s) ∈ put name s known := by
  induction known with
  | nil => exact List.mem_singleton_self _
  | cons q known ih =>
      rw [put]
      split
      · exact List.mem_cons_self
      · exact List.mem_cons_of_mem _ ih

/-- A property of another name keeps its schema. -/
theorem mem_put_of_ne (hp : p ∈ known) (hne : p.1 ≠ name) : p ∈ put name s known := by
  induction known with
  | nil => exact absurd hp List.not_mem_nil
  | cons q known ih =>
      rw [put]
      rcases List.mem_cons.mp hp with rfl | hp
      · rw [if_neg hne]
        exact List.mem_cons_self
      · split
        · exact List.mem_cons_of_mem _ hp
        · exact List.mem_cons_of_mem _ (ih hp)

theorem mem_foldl_put_of_notMem (hp : p ∈ known) (hnew : p.1 ∉ fields.map (·.1)) :
    p ∈ fields.foldl (fun known p => put p.1 p.2 known) known := by
  induction fields generalizing known with
  | nil => exact hp
  | cons f fields ih =>
      rw [List.map_cons, List.mem_cons, not_or] at hnew
      exact ih (mem_put_of_ne hp hnew.1) hnew.2

/-- Properties of different names all have their schemas once they were put. -/
theorem mem_foldl_put_of_mem (hnodup : (fields.map (·.1)).Nodup) (hp : p ∈ fields) :
    p ∈ fields.foldl (fun known p => put p.1 p.2 known) known := by
  induction fields generalizing known with
  | nil => exact absurd hp List.not_mem_nil
  | cons f fields ih =>
      rw [List.map_cons, List.nodup_cons] at hnodup
      rcases List.mem_cons.mp hp with rfl | hp
      · show p ∈ fields.foldl (fun known p => put p.1 p.2 known) (put p.1 p.2 known)
        exact mem_foldl_put_of_notMem mem_put_self hnodup.1
      · exact ih hnodup.2 hp

end Putting

/-! ## Adding what a node says itself -/

theorem visited_addOwn (h : g.addOwn n = .ok g') : g'.visited = g.visited := by
  obtain ⟨listed, fields, names, -, -, -, rfl⟩ := addOwn_eq_ok h
  rfl

/-- The names after a node are those before it and its own. -/
theorem mem_names_addOwn (h : g.addOwn n = .ok g') {name : String} :
    name ∈ g'.names ↔ name ∈ g.names ∨ ∃ p, OwnProperty n p ∧ p.1 = name := by
  obtain ⟨listed, fields, names, hlisted, hfields, -, rfl⟩ := addOwn_eq_ok h
  rw [Gathered.names, map_fst_foldl_put, mem_foldl_addNew]
  refine or_congr Iff.rfl ?_
  rw [List.mem_map]
  constructor
  · rintro ⟨p, hp, hname⟩
    exact ⟨p, ⟨listed, fields, hlisted, hfields, hp⟩, hname⟩
  · rintro ⟨p, ⟨listed', fields', hlisted', hfields', hp⟩, hname⟩
    cases hlisted.symm.trans hlisted'
    cases hfields.symm.trans hfields'
    exact ⟨p, hp, hname⟩

theorem mem_required_addOwn (h : g.addOwn n = .ok g') {name : String} :
    name ∈ g'.required ↔ name ∈ g.required ∨ OwnRequired n name := by
  obtain ⟨listed, fields, names, -, -, hnames, rfl⟩ := addOwn_eq_ok h
  rw [List.mem_append, hnames]

theorem nodup_names_addOwn (h : g.addOwn n = .ok g') (hg : g.names.Nodup) : g'.names.Nodup := by
  obtain ⟨listed, fields, names, -, -, -, rfl⟩ := addOwn_eq_ok h
  rw [Gathered.names, map_fst_foldl_put]
  exact nodup_foldl_addNew hg

/-- Where names are different, a node that says something last has the last word. -/
theorem mem_properties_addOwn {D : Set Document} (hD : Sources D) (hn : Stands D n)
    (h : g.addOwn n = .ok g') {p : String × Node} (hp : OwnProperty n p) : p ∈ g'.properties := by
  obtain ⟨listed, fields, names, hlisted, hfields, -, rfl⟩ := addOwn_eq_ok h
  obtain ⟨listed', fields', hlisted', hfields', hp⟩ := hp
  cases hlisted.symm.trans hlisted'
  cases hfields.symm.trans hfields'
  have hin : Stands D listed := hD.closed.get hn hlisted
  exact mem_foldl_put_of_mem (hin.nodup_fieldsIfAny hD hfields) hp

theorem concludes_addOwn (hn : n.Plain) (g : Gathered) : Concludes (g.addOwn n) := by
  refine (hn.concludes_get _).bind fun listed hlisted => ?_
  have hin : listed.Plain := Node.closed_plain.get hn hlisted
  refine hin.concludes_fieldsIfAny.bind fun fields _ => ?_
  refine (hn.concludes_get _).bind fun required hrequired => ?_
  have hplain : required.Plain := Node.closed_plain.get hn hrequired
  refine hplain.concludes_truthy.bind fun truthy _ => ?_
  exact .ite_bind (fun _ => hplain.concludes_members) (fun _ => concludes_pure _)
    fun names _ => concludes_pure _

/-! ## Finishing what is visited -/

/-- An object is finished: what it says itself is there, and the objects that its members lead to
were visited. -/
structure Finished (r : Resolver) (g : Gathered) (b : Node) : Prop where
  property : ∀ p, OwnProperty b p → p.1 ∈ g.names
  required : ∀ name, OwnRequired b name → name ∈ g.required
  member : ∀ m c, MemberOf b m → r.objectAt m = .ok (some c) → g.hasVisited c = true

/-- What a part of the gathering does: nothing is lost, and the objects it visits are finished. -/
structure Grows (r : Resolver) (g g' : Gathered) : Prop where
  names : g.names ⊆ g'.names
  required : g.required ⊆ g'.required
  visited : g.visited ⊆ g'.visited
  finished : ∀ b ∈ g'.visited, b ∈ g.visited ∨ Finished r g' b

theorem Grows.hasVisited (h : Grows r g g') (hb : g.hasVisited b = true) :
    g'.hasVisited b = true :=
  any_samePlace_mono h.visited hb

theorem Finished.mono (h : Finished r g b) (hgrows : Grows r g g') : Finished r g' b where
  property p hp := hgrows.names (h.property p hp)
  required name hname := hgrows.required (h.required name hname)
  member m c hm hc := hgrows.hasVisited (h.member m c hm hc)

theorem Grows.refl (g : Gathered) : Grows r g g :=
  ⟨List.Subset.refl _, List.Subset.refl _, List.Subset.refl _, fun _ hb => Or.inl hb⟩

theorem Grows.trans (h : Grows r g g') (h' : Grows r g' g'') : Grows r g g'' where
  names := List.Subset.trans h.names h'.names
  required := List.Subset.trans h.required h'.required
  visited := List.Subset.trans h.visited h'.visited
  finished b hb := by
    rcases h'.finished b hb with hb | hb
    · exact (h.finished b hb).imp_right fun hfinished => hfinished.mono h'
    · exact Or.inr hb

theorem grows_addOwn (h : g.addOwn n = .ok g') : Grows r g g' where
  names _ hname := (mem_names_addOwn h).mpr (Or.inl hname)
  required _ hname := (mem_required_addOwn h).mpr (Or.inl hname)
  visited := by
    rw [visited_addOwn h]
    exact List.Subset.refl _
  finished := by
    rw [visited_addOwn h]
    exact fun _ hb => Or.inl hb

/-- An object that is finished at some time after it was visited. -/
theorem Grows.of_visit (h : Grows r { g with visited := b :: g.visited } g')
    (hb : Finished r g' b) : Grows r g g' where
  names := h.names
  required := h.required
  visited _ hv := h.visited (List.mem_cons_of_mem _ hv)
  finished v hv := by
    rcases h.finished v hv with hv | hv
    · rcases List.mem_cons.mp hv with rfl | hv
      · exact Or.inr hb
      · exact Or.inl hv
    · exact Or.inr hv

/-- What gathering does for one schema, it does for several of them one after the other. -/
theorem foldlM_grows {members : List Node}
    (hstep : ∀ g g' m, addWithin r fuel g m = .ok g' →
      Grows r g g' ∧ ∀ c, r.objectAt m = .ok (some c) → g'.hasVisited c = true)
    (h : members.foldlM (addWithin r fuel) g = .ok g') :
    Grows r g g' ∧ ∀ m ∈ members, ∀ c, r.objectAt m = .ok (some c) → g'.hasVisited c = true := by
  constructor
  · exact foldlM_keeps (P := Grows r g)
      (fun _ _ m _ hgrows hm => hgrows.trans (hstep _ _ m hm).1) (.refl _) h
  · refine foldlM_each (Q := fun m (g : Gathered) =>
      ∀ c, r.objectAt m = .ok (some c) → g.hasVisited c = true) ?_ ?_ h
    · intro g g' m _ hm
      exact (hstep g g' m hm).2
    · intro m g g' other _ hseen hother c hc
      exact (hstep g g' other hother).1.hasVisited (hseen c hc)

/-- Gathering finishes the objects that were not visited before, and visits the one it starts at. -/
theorem addWithin_grows (h : addWithin r fuel g n = .ok g') :
    Grows r g g' ∧ ∀ b, r.objectAt n = .ok (some b) → g'.hasVisited b = true := by
  induction fuel generalizing g g' n with
  | zero => cases h
  | succ fuel ih =>
      cases addsWithin_of_eq_ok h with
      | nowhere hnone =>
          refine ⟨.refl _, fun b hb => ?_⟩
          cases hnone.symm.trans hb
      | again hb hseen =>
          refine ⟨.refl _, fun c hc => ?_⟩
          cases hb.symm.trans hc
          exact hseen
      | @enters b listed members inner _ hb hnew hlisted hmembers hinner hown =>
          obtain ⟨hbefore, hdone⟩ := foldlM_grows (fun _ _ _ hstep => ih hstep) hinner
          have hlast : Grows r inner g' := grows_addOwn hown
          have hgrows := hbefore.trans hlast
          have hfinished : Finished r g' b := by
            refine ⟨fun p hp => ?_, fun name hname => ?_, ?_⟩
            · exact (mem_names_addOwn hown).mpr (Or.inr ⟨p, hp, rfl⟩)
            · exact (mem_required_addOwn hown).mpr (Or.inr hname)
            · rintro m c ⟨listed', members', hlisted', hmembers', hm⟩ hc
              cases hlisted.symm.trans hlisted'
              cases hmembers.symm.trans hmembers'
              exact hlast.hasVisited (hdone m hm c hc)
          refine ⟨hgrows.of_visit hfinished, fun c hc => ?_⟩
          cases hb.symm.trans hc
          have hhere : b ∈ g'.visited := hgrows.visited List.mem_cons_self
          exact List.any_eq_true.mpr ⟨b, hhere, Registry.samePlace_self b⟩

/-! ## Depth -/

/-- With more depth than there are objects left to visit, more depth still changes nothing. -/
theorem addWithin_steady (hD : Sources (documentsInReach r schema)) {more : Nat}
    (hmore : fuel ≤ more) (hn : Stands (documentsInReach r schema) n)
    (hg : leftToVisit r schema g.visited < fuel) :
    Steady (PlainInReach r schema) (fun g => leftToVisit r schema g.visited < fuel)
      (addWithin r fuel g n) (addWithin r more g n) := by
  induction fuel generalizing more g n with
  | zero => exact absurd hg (Nat.not_lt_zero _)
  | succ fuel ih =>
      obtain ⟨more, rfl⟩ := Nat.exists_eq_add_one_of_ne_zero (show more ≠ 0 by omega)
      have htop := stands_topInReach r schema
      rw [addWithin, addWithin]
      refine steady_bind (fun hends => ?_) fun found hfound => ?_
      · exact Resolver.concludes_objectAt hends.1 (hends.plain hn)
      cases found with
      | none => exact steady_pure hg
      | some b =>
          have hb : Stands (documentsInReach r schema) b := hD.closed.objectAt htop hn hfound
          dsimp only
          by_cases hseen : g.hasVisited b = true
          · rw [if_pos hseen, if_pos hseen]
            exact steady_pure hg
          rw [if_neg hseen, if_neg hseen]
          refine steady_bind (fun hends => ?_) fun listed hlisted => ?_
          · exact (hends.plain hb).concludes_get _
          have hin := hD.closed.get hb hlisted
          refine steady_bind (fun hends => ?_) fun members hmembers => ?_
          · exact (hends.plain hin).concludes_entriesIfAny
          -- one object fewer is left for the members, who have one step less
          have hless : leftToVisit r schema (b :: g.visited) < leftToVisit r schema g.visited :=
            leftToVisit_cons_lt hb (objectAt_eq_some hfound).2 (Bool.eq_false_iff.mpr hseen)
          refine Steady.bind (Q := fun g => leftToVisit r schema g.visited < fuel)
            (steady_foldlM (fun g hg member hmember => ?_) ?_) fun inner hinner => ?_
          · exact ih (Nat.le_of_succ_le_succ hmore)
              (hD.closed.entriesIfAny hin hmembers member hmember) hg
          · show leftToVisit r schema (b :: g.visited) < fuel
            omega
          · refine ⟨rfl, fun g' hown => ?_, fun hends => concludes_addOwn (hends.plain hb) inner⟩
            rw [visited_addOwn hown]
            omega

/-! ## All that is said -/

/-- What was gathered is what the objects say that are reached along references and members. -/
structure Closure (r : Resolver) (schema : Node) (g : Gathered) : Prop where
  nodup : g.names.Nodup
  names : ∀ name, name ∈ g.names ↔
    ∃ b p, Reaches r MemberOf schema b ∧ OwnProperty b p ∧ p.1 = name
  required : ∀ name, name ∈ g.required ↔ ∃ b, Reaches r MemberOf schema b ∧ OwnRequired b name
  /-- Every property has the schema that one of the objects gives it. -/
  given : ∀ p ∈ g.properties, ∃ b, Reaches r MemberOf schema b ∧ OwnProperty b p
  /-- The properties of the object that the schema itself leads to have its schemas. -/
  own : ∀ pointers b p, Leads r schema pointers b → OwnProperty b p → p ∈ g.properties

/-- What gathering keeps to: names are there once, and nothing comes from elsewhere. -/
structure Sound (r : Resolver) (schema : Node) (g : Gathered) : Prop where
  nodup : g.names.Nodup
  required : ∀ name ∈ g.required, ∃ b, Member r schema b ∧ OwnRequired b name
  visited : ∀ b ∈ g.visited, Member r schema b

theorem ofSchema_sound (h : ofSchema r schema = .ok g) : Sound r schema g := by
  refine addWithin_keeps (P := Sound r schema) ?_ ?_ (fun _ hb => .self hb) ?_ h
  · rintro g b hb ⟨hnodup, hrequired, hvisited⟩
    exact ⟨hnodup, hrequired, List.forall_mem_cons.mpr ⟨hb, hvisited⟩⟩
  · rintro g g' b hb ⟨hnodup, hrequired, hvisited⟩ hown
    refine ⟨nodup_names_addOwn hown hnodup, ?_, visited_addOwn hown ▸ hvisited⟩
    intro name hname
    rcases (mem_required_addOwn hown).mp hname with hname | hname
    · exact hrequired name hname
    · exact ⟨b, hb, hname⟩
  · exact ⟨List.nodup_nil, nofun, nofun⟩

/-- All members have been visited in the end. -/
theorem ofSchema_visits (hD : Sources (documentsInReach r schema))
    (hschema : Stands (documentsInReach r schema) schema) (h : ofSchema r schema = .ok g)
    (hb : Member r schema b) : b ∈ g.visited := by
  have htop := stands_topInReach r schema
  have hstands : ∀ {b}, Member r schema b → Stands (documentsInReach r schema) b :=
    fun hb => hD.closed.memberOf htop hschema hb
  obtain ⟨hgrows, hfirst⟩ := addWithin_grows h
  have hmem : ∀ {b}, Member r schema b → g.hasVisited b = true → b ∈ g.visited := fun hb hseen =>
    (any_samePlace_iff hD (fun v hv => hstands ((ofSchema_sound h).visited v hv))
      (hstands hb)).mp hseen
  induction hb with
  | self hb => exact hmem (.self hb) (hfirst _ hb)
  | inner hn hlisted hmembers hmember hb ih =>
      have hfinished := (hgrows.finished _ ih).resolve_left List.not_mem_nil
      exact hmem (.inner hn hlisted hmembers hmember hb)
        (hfinished.member _ _ ⟨_, _, hlisted, hmembers, hmember⟩ hb)

/-- The object that the schema itself leads to has the last word. -/
theorem ofSchema_own (hD : Sources (documentsInReach r schema))
    (hschema : Stands (documentsInReach r schema) schema) (h : ofSchema r schema = .ok g)
    (hb : r.objectAt schema = .ok (some b)) {p : String × Node} (hp : OwnProperty b p) :
    p ∈ g.properties := by
  have hstands : Stands (documentsInReach r schema) b :=
    hD.closed.objectAt (stands_topInReach r schema) hschema hb
  cases addsWithin_of_eq_ok h with
  | nowhere hnone => cases hnone.symm.trans hb
  | again _ hseen => cases hseen
  | enters hc _ _ _ _ hown =>
      cases hb.symm.trans hc
      exact mem_properties_addOwn hD hstands hown hp

/-- Gathering comes to an end, however references and members go round, and gathers all that the
objects in reach say, and nothing else. How deep it may go does not matter once there is a step for
every value, and in documents that are not linked there is nothing else that could go on for
ever. -/
theorem ofSchema_closure (hD : Sources (documentsInReach r schema))
    (hr : r.document.WellLinked) (hschema : Stands (documentsInReach r schema) schema) :
    (∀ fuel, r.document.root.size + schema.document.root.size < fuel →
      addWithin r fuel {} schema = ofSchema r schema) ∧
    (r.document.linked = false → schema.Plain → Concludes (ofSchema r schema)) ∧
    ∀ g, ofSchema r schema = .ok g → Closure r schema g := by
  have hsteady : ∀ more, r.document.root.size + schema.document.root.size < more →
      Steady (PlainInReach r schema)
        (fun g => leftToVisit r schema g.visited <
          r.document.root.size + schema.document.root.size + 1)
        (addWithin r (r.document.root.size + schema.document.root.size + 1) {} schema)
        (addWithin r more {} schema) := by
    intro more hmore
    exact addWithin_steady hD hmore hschema (Nat.lt_succ_of_le (leftToVisit_le r schema []))
  have hown : ofSchema r schema =
      addWithin r (r.document.root.size + schema.document.root.size + 1) {} schema :=
    (hsteady _ (by omega)).same
  refine ⟨fun fuel hfuel => ?_, fun hlinked hplain => ?_, fun g h => ?_⟩
  · exact (hsteady fuel hfuel).same.trans hown.symm
  · rw [hown]
    exact (hsteady _ (Nat.lt_succ_self _)).concludes ⟨hlinked, hplain⟩
  have hmet : ∀ {b}, Member r schema b ↔ Reaches r MemberOf schema b :=
    member_iff_met.trans (Resolver.met_iff hr)
  have hgiven := ofSchema_members h
  have hfinished : ∀ {b}, Reaches r MemberOf schema b → Finished r g b := fun hb =>
    ((addWithin_grows h).1.finished _ (ofSchema_visits hD hschema h (hmet.mpr hb))).resolve_left
      List.not_mem_nil
  refine ⟨(ofSchema_sound h).nodup, fun name => ?_, fun name => ?_, fun p hp => ?_, ?_⟩
  · constructor
    · intro hname
      obtain ⟨p, hp, rfl⟩ := List.mem_map.mp hname
      obtain ⟨b, hb, hown⟩ := hgiven p hp
      exact ⟨b, p, hmet.mp hb, hown, rfl⟩
    · rintro ⟨b, p, hb, hown, rfl⟩
      exact (hfinished hb).property p hown
  · constructor
    · intro hname
      obtain ⟨b, hb, hown⟩ := (ofSchema_sound h).required name hname
      exact ⟨b, hmet.mp hb, hown⟩
    · rintro ⟨b, hb, hown⟩
      exact (hfinished hb).required name hown
  · obtain ⟨b, hb, hown⟩ := hgiven p hp
    exact ⟨b, hmet.mp hb, hown⟩
  · intro pointers b p hleads hp
    -- what has properties is an object
    have hobject : b.isObject = .ok true := by
      obtain ⟨listed, fields, hlisted, -⟩ := hp
      exact isObject_of_get hlisted
    exact ofSchema_own hD hschema h
      ((Resolver.objectAt_eq_some_iff hr).mpr ⟨⟨pointers, hleads⟩, hobject⟩) hp

/-- A document of pets, which are animals, which are pets; both have names. -/
def petDocument : Document where
  tag := 0
  root := .obj [("components", .obj [("schemas", .obj [
    ("Pet", .obj [
      ("allOf", .arr [.obj [("$ref", .str "#/components/schemas/Animal")],
        .obj [("$ref", .str "#/components/schemas/Named")]]),
      ("properties", .obj [("name", .obj [("type", .str "string"), ("maxLength", .int 8)]),
        ("owner", .obj [("type", .str "string")])]),
      ("required", .arr [.str "owner"])]),
    ("Animal", .obj [
      ("allOf", .arr [.obj [("$ref", .str "#/components/schemas/Named")],
        .obj [("$ref", .str "#/components/schemas/Pet")]]),
      ("properties", .obj [("legs", .obj [("type", .str "integer")])]),
      ("required", .arr [.str "legs"])]),
    ("Named", .obj [("properties", .obj [("name", .obj [("type", .str "string")])]),
      ("required", .arr [.str "name"])]),
    ("Guest", .obj [("$ref", .str "#/components/schemas/Pet")])])])]
  linked := false

/-- A node of `petDocument`, by its trail. -/
def petNode (trail : List Step) : Node :=
  ⟨petDocument, trail, (petDocument.valueAt? trail).getD .null⟩

/-- The schema of a guest, which refers to that of pets. -/
def guest : Node := petNode [.key "Guest", .key "schemas", .key "components"]

/-- What is said of a guest is said of pets, of animals and of what has a name; the name of a pet
is described as it is for pets. -/
theorem guest_closure :
    Sources (documentsInReach ⟨petDocument, none⟩ guest) ∧ petDocument.WellLinked ∧
      Stands (documentsInReach ⟨petDocument, none⟩ guest) guest ∧ guest.Plain ∧
      Concludes (ofSchema ⟨petDocument, none⟩ guest) ∧
      addWithin ⟨petDocument, none⟩ 1000 {} guest = ofSchema ⟨petDocument, none⟩ guest ∧
      ∃ g, ofSchema ⟨petDocument, none⟩ guest = .ok g ∧ Closure ⟨petDocument, none⟩ guest g ∧
        (g.properties.map fun p => (p.1, p.2.trail.drop 2)) =
          [("name", [.key "Pet", .key "schemas", .key "components"]),
            ("legs", [.key "Animal", .key "schemas", .key "components"]),
            ("owner", [.key "Pet", .key "schemas", .key "components"])] ∧
        g.required = ["name", "legs", "owner"] := by
  have hsources : Sources (documentsInReach ⟨petDocument, none⟩ guest) := by
    rw [show documentsInReach ⟨petDocument, none⟩ guest = {petDocument} from
      Set.pair_eq_singleton petDocument]
    exact sources_singleton (by decide)
  have hstands : Stands (documentsInReach ⟨petDocument, none⟩ guest) guest := ⟨Or.inl rfl, rfl⟩
  have hlinked : petDocument.WellLinked := Document.wellLinked_of_plain rfl
  obtain ⟨hdepth, hconcludes, hclosure⟩ :=
    @ofSchema_closure ⟨petDocument, none⟩ guest hsources hlinked hstands
  have hrun : (ofSchema ⟨petDocument, none⟩ guest).toOption.map (fun g =>
      (g.properties.map fun p => (p.1, p.2.trail.drop 2), g.required)) =
      some ([("name", [.key "Pet", .key "schemas", .key "components"]),
        ("legs", [.key "Animal", .key "schemas", .key "components"]),
        ("owner", [.key "Pet", .key "schemas", .key "components"])],
        ["name", "legs", "owner"]) := by
    decide
  obtain ⟨g, hg, hshown⟩ := Option.map_eq_some_iff.mp hrun
  obtain ⟨hproperties, hrequired⟩ := Prod.mk.inj hshown
  have hg := eq_ok_of_toOption hg
  exact ⟨hsources, hlinked, hstands, rfl, hconcludes rfl rfl, hdepth 1000 (by decide), g,
    hg, hclosure g hg, hproperties, hrequired⟩

end Gathered

end ApiScaffold
