import ApiScaffold.Proofs.Collecting
import ApiScaffold.Proofs.References
import ApiScaffold.Proofs.Visiting

set_option autoImplicit false

/-! # The tour of a walk for enumerations

A walk through a schema sees to one stop after the other (`Tour`). A schema is followed to the
object that it leads to; an object that was not visited puts its members and then its properties in
front of what is left to see to. A property that lists texts is noted. There is only one tour from a
schema (`Tour.unique`).

A tour notes the properties that list texts of all objects in reach (`LeadsOn`), and no others: in
the end nothing is left to see to, so where an object leads on has been visited too
(`Tour.covers`). The walk collects an enumeration for each name that was noted, with the values that
were listed when it was noted first (`Notes`). -/

namespace ApiScaffold.EnumCollection

open Mapper (ListsTexts)
open Resolver (Met Reaches)

variable {D : Set Document} {r : Resolver} {n b next schema : Node} {p q : String × Node}
variable {s t u : EnumCollection} {fuel : Nat}

/-! ## Where a walk goes -/

/-- Where a walk goes on from an object: to its members, and to what its properties show. -/
def LeadsOn (b next : Node) : Prop :=
  MemberOf b next ∨ ∃ p, OwnProperty b p ∧ Shows p.2 (.onward next)

/-- What a walk has to see to. -/
inductive Stop where
  | schema (n : Node)
  | property (p : String × Node)

/-- The stops of an object are its members, and then its properties. -/
inductive StopsOf (b : Node) : List Stop → Prop where
  | intro {allOf listed : Node} {members : List Node} {properties : List (String × Node)}
      (hallOf : b.get "allOf" = .ok allOf) (hmembers : allOf.entriesIfAny = .ok members)
      (hlisted : b.get "properties" = .ok listed)
      (hproperties : listed.fieldsIfAny = .ok properties) :
      StopsOf b (members.map .schema ++ properties.map .property)

variable {seen last : List Node} {stops rest others : List Stop} {met more : List (String × Node)}

theorem StopsOf.unique (h : StopsOf b stops) (h' : StopsOf b others) : stops = others := by
  obtain ⟨hallOf, hmembers, hlisted, hproperties⟩ := h
  obtain ⟨hallOf', hmembers', hlisted', hproperties'⟩ := h'
  cases hallOf.symm.trans hallOf'
  cases hmembers.symm.trans hmembers'
  cases hlisted.symm.trans hlisted'
  cases hproperties.symm.trans hproperties'
  rfl

/-- An object stops at its members and at its properties, and nowhere else. -/
theorem StopsOf.mem_iff (h : StopsOf b stops) {stop : Stop} :
    stop ∈ stops ↔
      match stop with
      | .schema n => MemberOf b n
      | .property p => OwnProperty b p := by
  obtain @⟨allOf, listed, members, properties, hallOf, hmembers, hlisted, hproperties⟩ := h
  cases stop with
  | schema n =>
      constructor
      · intro hmem
        exact ⟨allOf, members, hallOf, hmembers, by simpa using hmem⟩
      · rintro ⟨allOf', members', hallOf', hmembers', hn⟩
        cases hallOf.symm.trans hallOf'
        cases hmembers.symm.trans hmembers'
        simpa using hn
  | property p =>
      constructor
      · intro hmem
        exact ⟨listed, properties, hlisted, hproperties, by simpa using hmem⟩
      · rintro ⟨listed', properties', hlisted', hproperties', hp⟩
        cases hlisted.symm.trans hlisted'
        cases hproperties.symm.trans hproperties'
        simpa using hp

/-- Seeing to some stops one after the other, from the objects `seen` to the objects `last`. What
lists texts is noted, with the name of its property. -/
inductive Tour (r : Resolver) :
    List Node → List Stop → List (String × Node) → List Node → Prop where
  | done {seen : List Node} : Tour r seen [] [] seen
  | nowhere {seen last : List Node} {n : Node} {rest : List Stop} {met : List (String × Node)}
      (h : r.objectAt n = .ok none) (hrest : Tour r seen rest met last) :
      Tour r seen (.schema n :: rest) met last
  | again {seen last : List Node} {n b : Node} {rest : List Stop} {met : List (String × Node)}
      (h : r.objectAt n = .ok (some b)) (hseen : b ∈ seen) (hrest : Tour r seen rest met last) :
      Tour r seen (.schema n :: rest) met last
  | enter {seen last : List Node} {n b : Node} {stops rest : List Stop}
      {met : List (String × Node)} (h : r.objectAt n = .ok (some b)) (hnew : b ∉ seen)
      (hstops : StopsOf b stops) (hrest : Tour r (b :: seen) (stops ++ rest) met last) :
      Tour r seen (.schema n :: rest) met last
  | pass {seen last : List Node} {p : String × Node} {rest : List Stop}
      {met : List (String × Node)} (h : Shows p.2 .nothing) (hrest : Tour r seen rest met last) :
      Tour r seen (.property p :: rest) met last
  | note {seen last : List Node} {p : String × Node} {texts : Node} {rest : List Stop}
      {met : List (String × Node)} (h : Shows p.2 (.texts texts))
      (hrest : Tour r seen rest met last) :
      Tour r seen (.property p :: rest) ((p.1, texts) :: met) last
  | onward {seen last : List Node} {p : String × Node} {next : Node} {rest : List Stop}
      {met : List (String × Node)} (h : Shows p.2 (.onward next))
      (hrest : Tour r seen (.schema next :: rest) met last) :
      Tour r seen (.property p :: rest) met last

/-- There is only one way to see to some stops. -/
theorem Tour.unique {met' : List (String × Node)} {last' : List Node}
    (h : Tour r seen stops met last) (h' : Tour r seen stops met' last') :
    met = met' ∧ last = last' := by
  induction h generalizing met' last' with
  | done =>
      cases h'
      exact ⟨rfl, rfl⟩
  | nowhere h _ ih =>
      cases h' with
      | nowhere _ hrest => exact ih hrest
      | again h' _ _ => cases h.symm.trans h'
      | enter h' _ _ _ => cases h.symm.trans h'
  | again h hseen _ ih =>
      cases h' with
      | nowhere h' _ => cases h.symm.trans h'
      | again _ _ hrest => exact ih hrest
      | enter h' hnew _ _ =>
          cases h.symm.trans h'
          exact absurd hseen hnew
  | enter h hnew hstops _ ih =>
      cases h' with
      | nowhere h' _ => cases h.symm.trans h'
      | again h' hseen _ =>
          cases h.symm.trans h'
          exact absurd hseen hnew
      | enter h' _ hstops' hrest =>
          cases h.symm.trans h'
          cases hstops.unique hstops'
          exact ih hrest
  | pass h _ ih =>
      cases h' with
      | pass _ hrest => exact ih hrest
      | note h' _ => cases h.unique h'
      | onward h' _ => cases h.unique h'
  | note h _ ih =>
      cases h' with
      | pass h' _ => cases h.unique h'
      | note h' hrest =>
          cases h.unique h'
          obtain ⟨rfl, rfl⟩ := ih hrest
          exact ⟨rfl, rfl⟩
      | onward h' _ => cases h.unique h'
  | onward h _ ih =>
      cases h' with
      | pass h' _ => cases h.unique h'
      | note h' _ => cases h.unique h'
      | onward h' hrest =>
          cases h.unique h'
          exact ih hrest

/-! ## What a tour notes -/

/-- A stop of a walk through a schema: it leads to an object that the walk meets, or is a property
of one. -/
def OnWalk (r : Resolver) (schema : Node) : Stop → Prop
  | .schema n => ∀ b, r.objectAt n = .ok (some b) → Met r LeadsOn schema b
  | .property p => ∃ b, Met r LeadsOn schema b ∧ OwnProperty b p

theorem StopsOf.onWalk (h : StopsOf b stops) (hb : Met r LeadsOn schema b) :
    ∀ stop ∈ stops, OnWalk r schema stop := by
  intro stop hstop
  have hmem := h.mem_iff.mp hstop
  cases stop with
  | schema n => exact fun c hc => .onward hb (Or.inl hmem) hc
  | property p => exact ⟨b, hb, hmem⟩

/-- What a tour notes is listed by a property of an object that the walk meets. -/
theorem Tour.sound (h : Tour r seen stops met last)
    (hstops : ∀ stop ∈ stops, OnWalk r schema stop) :
    ∀ q ∈ met, ∃ b p, Met r LeadsOn schema b ∧ OwnProperty b p ∧ Shows p.2 (.texts q.2) ∧
      p.1 = q.1 := by
  induction h with
  | done => exact fun q hq => absurd hq List.not_mem_nil
  | nowhere _ _ ih => exact ih (List.forall_mem_cons.mp hstops).2
  | again _ _ _ ih => exact ih (List.forall_mem_cons.mp hstops).2
  | enter h _ hown _ ih =>
      obtain ⟨hfirst, hlater⟩ := List.forall_mem_cons.mp hstops
      exact ih (List.forall_mem_append.mpr ⟨hown.onWalk (hfirst _ h), hlater⟩)
  | pass _ _ ih => exact ih (List.forall_mem_cons.mp hstops).2
  | note h _ ih =>
      obtain ⟨⟨b, hb, hp⟩, hlater⟩ := List.forall_mem_cons.mp hstops
      exact List.forall_mem_cons.mpr ⟨⟨b, _, hb, hp, h, rfl⟩, ih hlater⟩
  | onward h _ ih =>
      obtain ⟨⟨b, hb, hp⟩, hlater⟩ := List.forall_mem_cons.mp hstops
      exact ih (List.forall_mem_cons.mpr
        ⟨fun c hc => .onward hb (Or.inr ⟨_, hp, h⟩) hc, hlater⟩)

/-- A stop was seen to: the object that a schema leads to was visited, and a property that lists
texts was noted. -/
def SeenTo (r : Resolver) (met : List (String × Node)) (last : List Node) : Stop → Prop
  | .schema n => ∀ b, r.objectAt n = .ok (some b) → b ∈ last
  | .property p => (∀ texts, Shows p.2 (.texts texts) → (p.1, texts) ∈ met) ∧
      ∀ next, Shows p.2 (.onward next) → ∀ b, r.objectAt next = .ok (some b) → b ∈ last

/-- All stops of an object were seen to. -/
def Done (r : Resolver) (met : List (String × Node)) (last : List Node) (b : Node) : Prop :=
  ∃ stops, StopsOf b stops ∧ ∀ stop ∈ stops, SeenTo r met last stop

theorem SeenTo.cons {stop : Stop} (h : SeenTo r met last stop) (q : String × Node) :
    SeenTo r (q :: met) last stop := by
  cases stop with
  | schema n => exact h
  | property p => exact ⟨fun texts htexts => List.mem_cons_of_mem _ (h.1 texts htexts), h.2⟩

theorem Done.cons (h : Done r met last b) (q : String × Node) : Done r (q :: met) last b := by
  obtain ⟨stops, hstops, hall⟩ := h
  exact ⟨stops, hstops, fun stop hstop => (hall stop hstop).cons q⟩

/-- A tour sees to its stops, and to those of the objects that it visits. -/
theorem Tour.covers (h : Tour r seen stops met last) :
    seen ⊆ last ∧ (∀ stop ∈ stops, SeenTo r met last stop) ∧
      ∀ b ∈ last, b ∈ seen ∨ Done r met last b := by
  induction h with
  | done => exact ⟨List.Subset.refl _, nofun, fun b hb => Or.inl hb⟩
  | nowhere h _ ih =>
      obtain ⟨hsub, hrest, hall⟩ := ih
      refine ⟨hsub, List.forall_mem_cons.mpr ⟨fun b hb => ?_, hrest⟩, hall⟩
      cases h.symm.trans hb
  | again h hseen _ ih =>
      obtain ⟨hsub, hrest, hall⟩ := ih
      refine ⟨hsub, List.forall_mem_cons.mpr ⟨fun b hb => ?_, hrest⟩, hall⟩
      cases h.symm.trans hb
      exact hsub hseen
  | enter h _ hstops _ ih =>
      obtain ⟨hsub, hrest, hall⟩ := ih
      obtain ⟨hhere, hsub⟩ := List.cons_subset.mp hsub
      obtain ⟨hown, hrest⟩ := List.forall_mem_append.mp hrest
      refine ⟨hsub, List.forall_mem_cons.mpr ⟨fun c hc => ?_, hrest⟩, fun c hc => ?_⟩
      · cases h.symm.trans hc
        exact hhere
      · rcases hall c hc with hc | hdone
        · rcases List.mem_cons.mp hc with rfl | hc
          · exact Or.inr ⟨_, hstops, hown⟩
          · exact Or.inl hc
        · exact Or.inr hdone
  | pass h _ ih =>
      obtain ⟨hsub, hrest, hall⟩ := ih
      refine ⟨hsub, List.forall_mem_cons.mpr ⟨⟨?_, ?_⟩, hrest⟩, hall⟩
      · intro texts htexts
        cases h.unique htexts
      · intro next hnext
        cases h.unique hnext
  | note h _ ih =>
      obtain ⟨hsub, hrest, hall⟩ := ih
      refine ⟨hsub, List.forall_mem_cons.mpr ⟨⟨?_, ?_⟩, ?_⟩, ?_⟩
      · intro texts htexts
        cases h.unique htexts
        exact List.mem_cons_self
      · intro next hnext
        cases h.unique hnext
      · intro stop hstop
        exact (hrest stop hstop).cons _
      · intro b hb
        exact (hall b hb).imp_right fun hdone => hdone.cons _
  | onward h _ ih =>
      obtain ⟨hsub, hrest, hall⟩ := ih
      obtain ⟨hnext, hrest⟩ := List.forall_mem_cons.mp hrest
      refine ⟨hsub, List.forall_mem_cons.mpr ⟨⟨?_, ?_⟩, hrest⟩, hall⟩
      · intro texts htexts
        cases h.unique htexts
      · intro next hnext'
        cases h.unique hnext'
        exact hnext

/-- A tour through a schema notes what is listed by properties of objects that the walk meets. -/
theorem Tour.mem_iff (h : Tour r [] [.schema schema] met last) :
    q ∈ met ↔ ∃ b p, Met r LeadsOn schema b ∧ OwnProperty b p ∧ Shows p.2 (.texts q.2) ∧
      p.1 = q.1 := by
  obtain ⟨-, hstart, hall⟩ := h.covers
  have hdone : ∀ b ∈ last, Done r met last b := fun b hb =>
    (hall b hb).resolve_left List.not_mem_nil
  -- where an object leads on has been visited, so all that is met has been
  have hvisited : ∀ b, Met r LeadsOn schema b → b ∈ last := by
    intro b hb
    induction hb with
    | self hb => exact hstart _ List.mem_cons_self _ hb
    | onward _ hleads hc ih =>
        obtain ⟨stops, hstops, hseen⟩ := hdone _ ih
        rcases hleads with hmember | ⟨p, hp, hshows⟩
        · exact hseen (.schema _) (hstops.mem_iff.mpr hmember) _ hc
        · exact (hseen (.property p) (hstops.mem_iff.mpr hp)).2 _ hshows _ hc
  constructor
  · intro hq
    refine h.sound (fun stop hstop => ?_) q hq
    rw [List.mem_singleton.mp hstop]
    exact fun b hb => .self hb
  · rintro ⟨b, p, hb, hp, hshows, hname⟩
    obtain ⟨stops, hstops, hseen⟩ := hdone b (hvisited b hb)
    have hmem := (hseen (.property p) (hstops.mem_iff.mpr hp)).1 _ hshows
    rwa [hname] at hmem

/-! ## What a walk collects -/

/-- Between two states there was an enumeration for each name of what was noted, unless it was there
before, with the values that were listed when the name was noted first. -/
structure Notes (met : List (String × Node)) (s t : EnumCollection) : Prop where
  names : t.names = (met.map fun q => Naming.enumName q.1).foldl addNew s.names
  enums : ∀ e ∈ t.enums, e ∈ s.enums ∨ e.name ∉ s.names ∧
    ∃ q values, met.find? (Naming.enumName ·.1 = e.name) = some q ∧ listed q.2 = .ok values ∧
      e = enumeration e.name values

theorem Notes.refl (s : EnumCollection) : Notes [] s s := ⟨rfl, fun _ he => Or.inl he⟩

theorem Notes.trans (h : Notes met s t) (h' : Notes more t u) : Notes (met ++ more) s u where
  names := by rw [h'.names, h.names, List.map_append, List.foldl_append]
  enums e he := by
    rcases h'.enums e he with he | ⟨hnew, q, values, hfind, hvalues, heq⟩
    · refine (h.enums e he).imp_right fun ⟨hnew, q, values, hfind, hlisted⟩ => ?_
      exact ⟨hnew, q, values, by rw [List.find?_append, hfind, Option.some_or], hlisted⟩
    · -- a name that is new in between was not noted before
      rw [h.names, mem_foldl_addNew, not_or] at hnew
      have hnone : met.find? (Naming.enumName ·.1 = e.name) = none := by
        rw [List.find?_eq_none]
        intro q hq hname
        exact hnew.2 (List.mem_map.mpr ⟨q, hq, by simpa using hname⟩)
      exact Or.inr ⟨hnew.1, q, values, by rw [List.find?_append, hnone, Option.none_or, hfind],
        hvalues, heq⟩

/-- One more enumeration. -/
theorem notes_add {name : String} {texts : Node} {values : List Excerpt}
    (hlists : ListsTexts texts) (hvalues : listed texts = .ok values) :
    Notes [(name, texts)] s (s.add (Naming.enumName name) values) where
  names := names_add (listed_ne_nil hlists.lists hvalues)
  enums e he := by
    rcases add_cases s (Naming.enumName name) values with ⟨-, hsame⟩ | ⟨hnew, -, hmore⟩
    · rw [hsame] at he
      exact Or.inl he
    · rw [hmore] at he
      refine (List.mem_append.mp he).imp_right fun he => ?_
      obtain rfl := List.mem_singleton.mp he
      exact ⟨hnew, (name, texts), values, by simp [enumeration], hvalues, rfl⟩

/-- A walk makes a tour of some stops, and notes what it meets. -/
def Tours (D : Set Document) (r : Resolver) (stops : List Stop) (s t : EnumCollection) : Prop :=
  (∀ v ∈ s.visited, Stands D v) → (∀ v ∈ t.visited, Stands D v) ∧
    ∃ met, Notes met s t ∧ ∀ rest more last, Tour r t.visited rest more last →
      Tour r s.visited (stops ++ rest) (met ++ more) last

theorem Tours.refl (s : EnumCollection) : Tours D r [] s s :=
  fun hs => ⟨hs, [], .refl s, fun _ _ _ htour => htour⟩

theorem Tours.trans (h : Tours D r stops s t) (h' : Tours D r others t u) :
    Tours D r (stops ++ others) s u := by
  intro hs
  obtain ⟨ht, met, hnotes, htour⟩ := h hs
  obtain ⟨hu, met', hnotes', htour'⟩ := h' ht
  refine ⟨hu, met ++ met', hnotes.trans hnotes', fun rest more last hrest => ?_⟩
  rw [List.append_assoc, List.append_assoc]
  exact htour _ _ _ (htour' _ _ _ hrest)

theorem tours_forM {α : Type} {f : α → EnumWalk Unit} {stop : α → Stop} {xs : List α} {v : Unit}
    (h : ∀ x ∈ xs, ∀ s t, Yields (f x) s () t → Tours D r [stop x] s t)
    (hrun : Yields (xs.forM f) s v t) : Tours D r (xs.map stop) s t := by
  induction xs generalizing s with
  | nil =>
      obtain ⟨-, rfl⟩ := yields_pure.mp hrun
      exact .refl _
  | cons x xs ih =>
      obtain ⟨⟨⟩, u, hx, hlater⟩ :=
        yields_bind.mp (show Yields (f x >>= fun _ => xs.forM f) s v t from hrun)
      exact (h x List.mem_cons_self s u hx).trans
        (ih (fun x hx => h x (List.mem_cons_of_mem _ hx)) hlater)

theorem walkProperty_tours {walk : Node → EnumWalk Unit}
    (hwalk : ∀ n, Stands D n → ∀ s t, Yields (walk n) s () t → Tours D r [.schema n] s t)
    (hD : Sources D) (hp : Stands D p.2) (h : Yields (walkProperty walk p.1 p.2) s () t) :
    Tours D r [.property p] s t := by
  rcases yields_walkProperty h with
    ⟨hshows, rfl⟩ | ⟨texts, values, hshows, hvalues, rfl⟩ | ⟨next, hshows, hnext⟩
  · exact fun hs => ⟨hs, [], .refl _, fun _ _ _ htour => .pass hshows htour⟩
  · intro hs
    rw [← (enums_add s (Naming.enumName p.1) values).2] at hs ⊢
    exact ⟨hs, [(p.1, texts)], notes_add hshows.listsTexts hvalues,
      fun _ _ _ htour => .note hshows htour⟩
  · intro hs
    obtain ⟨ht, met, hnotes, htour⟩ := hwalk next (hshows.closed hD.closed hp) s t hnext hs
    exact ⟨ht, met, hnotes, fun _ _ _ hrest => .onward hshows (htour _ _ _ hrest)⟩

/-- A walk makes a tour. -/
theorem walkWithin_tours (hD : Sources D) (hr : Stands D r.document.top) (hn : Stands D n)
    (h : Yields (walkWithin (some r) fuel n) s () t) : Tours D r [.schema n] s t := by
  induction fuel generalizing n s t with
  | zero => exact absurd h yields_throw
  | succ fuel ih =>
      obtain ⟨found, hfound, hrest⟩ := yields_lift_bind.mp h
      cases found with
      | none =>
          obtain ⟨-, rfl⟩ := yields_pure.mp hrest
          exact fun hs => ⟨hs, [], .refl _, fun _ _ _ htour => .nowhere hfound htour⟩
      | some b =>
          have hb : Stands D b := hD.closed.objectAt hr hn hfound
          intro hs
          rcases yields_walkWithin hfound h with ⟨hseen, rfl⟩ | ⟨hnew, henters⟩
          · have hmem : b ∈ t.visited := (any_samePlace_iff hD hs hb).mp hseen
            exact ⟨hs, [], .refl _, fun _ _ _ htour => .again hfound hmem htour⟩
          obtain @⟨allOf, listed, members, properties, middle, hallOf, hmembers, hfirst, hlisted,
            hproperties, hlast⟩ := henters
          have hin := hD.closed.entriesIfAny (hD.closed.get hb hallOf) hmembers
          have hwritten := hD.closed.fieldsIfAny (hD.closed.get hb hlisted) hproperties
          have hbefore : Tours D r (members.map .schema)
              { s with visited := b :: s.visited } middle :=
            tours_forM (fun member hmember s t h => ih (hin member hmember) h) hfirst
          have hafter : Tours D r (properties.map .property) middle t :=
            tours_forM (fun p hp s t h => walkProperty_tours (fun n hn s t h => ih hn h) hD
              (hwritten p hp) h) hlast
          obtain ⟨ht, met, hnotes, htour⟩ :=
            hbefore.trans hafter (List.forall_mem_cons.mpr ⟨hb, hs⟩)
          have hnot : b ∉ s.visited := by
            rw [← any_samePlace_iff hD hs hb, Bool.not_eq_true]
            exact hnew
          have hstops : StopsOf b (members.map .schema ++ properties.map .property) :=
            .intro hallOf hmembers hlisted hproperties
          exact ⟨ht, met, ⟨hnotes.names, hnotes.enums⟩, fun _ _ _ hrest =>
            .enter hfound hnot hstops (htour _ _ _ hrest)⟩

/-! ## Depth -/

theorem concludes_listed (hn : n.Plain) : Concludes (listed n) := by
  refine (hn.concludes_get _).bind fun values hvalues => ?_
  have hin : values.Plain := Node.closed_plain.get hn hvalues
  exact hin.concludes_entries.bind fun entries hentries => hin.concludes_excerpts hentries

theorem concludes_listsTexts (hn : n.Plain) :
    Concludes (do
      if ← n.isReference then return false
      if !(← n.isObject) then return false
      Schema.isStringEnum n) := by
  refine hn.concludes_isReference.bind fun isReference _ => ?_
  split
  · exact concludes_pure _
  refine hn.concludes_isObject.bind fun isObject _ => ?_
  split
  · exact concludes_pure _
  · exact Schema.concludes_isStringEnum hn

section Depth

variable {ends : Prop} {Q : EnumCollection → Prop} {walk deeper : Node → EnumWalk Unit}
variable {name : String}

theorem addFor_steady (hQ : ∀ s name values, Q s → Q (s.add name values)) (hs : Q s)
    (hplain : ends → n.Plain) : SteadyFrom ends Q (addFor name n) (addFor name n) s := by
  refine steadyFrom_lift_bind (fun hends => concludes_listed (hplain hends)) hs fun values _ => ?_
  exact ⟨rfl, hQ s _ values hs, fun _ => concludes_ok _⟩

/-- How deep a walk may go matters for a property only where it walks on. -/
theorem walkProperty_steady (hD : Sources D) (hends : ends → ∀ n, Stands D n → n.Plain)
    (hQ : ∀ s name values, Q s → Q (s.add name values))
    (hwalk : ∀ n, Stands D n → ∀ s, Q s → SteadyFrom ends Q (walk n) (deeper n) s)
    (hn : Stands D n) (hs : Q s) :
    SteadyFrom ends Q (walkProperty walk name n) (walkProperty deeper name n) s := by
  have hplain : ends → n.Plain := fun h => hends h n hn
  unfold walkProperty
  refine steadyFrom_lift_bind (fun h => (hplain h).concludes_isReference) hs fun isReference _ => ?_
  by_cases href : isReference = true
  · rw [if_pos href, if_pos href]
    exact hwalk n hn s hs
  rw [if_neg href, if_neg href]
  refine steadyFrom_lift_bind (fun h => (hplain h).concludes_isObject) hs fun isObject _ => ?_
  by_cases hobject : (!isObject) = true
  · rw [if_pos hobject, if_pos hobject]
    exact steadyFrom_pure hs _
  rw [if_neg hobject, if_neg hobject]
  refine steadyFrom_lift_bind (fun h => Schema.concludes_isStringEnum (hplain h)) hs
    fun isEnum _ => ?_
  by_cases henum : isEnum = true
  · rw [if_pos henum, if_pos henum]
    exact addFor_steady hQ hs hplain
  rw [if_neg henum, if_neg henum]
  refine steadyFrom_lift_bind (fun h => Schema.concludes_typeOf (hplain h)) hs fun type _ => ?_
  by_cases htype : type = .str "array"
  · rw [if_pos htype, if_pos htype]
    refine steadyFrom_lift_bind (fun h => (hplain h).concludes_get _) hs fun items hitems => ?_
    have hin : Stands D items := hD.closed.get hn hitems
    refine steadyFrom_lift_bind (fun h => concludes_listsTexts (hends h items hin)) hs
      fun listsTexts _ => ?_
    by_cases hlists : listsTexts = true
    · rw [if_pos hlists, if_pos hlists]
      exact addFor_steady hQ hs fun h => hends h items hin
    · rw [if_neg hlists, if_neg hlists]
      exact hwalk items hin s hs
  · rw [if_neg htype, if_neg htype]
    exact hwalk n hn s hs

theorem walkThrough_steady (hD : Sources D) (hends : ends → ∀ n, Stands D n → n.Plain)
    (hQ : ∀ s name values, Q s → Q (s.add name values))
    (hwalk : ∀ n, Stands D n → ∀ s, Q s → SteadyFrom ends Q (walk n) (deeper n) s)
    (hb : Stands D b) (hs : Q s) :
    SteadyFrom ends Q (walkThrough walk b) (walkThrough deeper b) s := by
  have hpart : ∀ {key : String} {listed : Node}, b.get key = .ok listed → Stands D listed :=
    fun hlisted => hD.closed.get hb hlisted
  have hread : ∀ key, ends → Concludes (b.get key) :=
    fun key h => (hends h b hb).concludes_get key
  refine steadyFrom_lift_bind (fun h => ?_) hs fun members hmembers => ?_
  · exact (hread _ h).bind fun allOf hallOf =>
      (hends h allOf (hpart hallOf)).concludes_entriesIfAny
  obtain ⟨allOf, hallOf, hmembers⟩ := bind_eq_ok.mp hmembers
  have hin := hD.closed.entriesIfAny (hpart hallOf) hmembers
  refine SteadyFrom.bind (steadyFrom_forM (fun member hmember =>
    hwalk member (hin member hmember)) hs) fun _ t ht => ?_
  refine steadyFrom_lift_bind (fun h => ?_) ht fun properties hproperties => ?_
  · exact (hread _ h).bind fun listed hlisted =>
      (hends h listed (hpart hlisted)).concludes_fieldsIfAny
  obtain ⟨listed, hlisted, hproperties⟩ := bind_eq_ok.mp hproperties
  have hwritten := hD.closed.fieldsIfAny (hpart hlisted) hproperties
  exact steadyFrom_forM (fun p hp c hc =>
    walkProperty_steady hD hends hQ hwalk (hwritten p hp) hc) ht

end Depth

/-- A walk may go deeper than there are nodes left to visit. -/
def HasDepth (r : Resolver) (schema : Node) (fuel : Nat) (c : EnumCollection) : Prop :=
  leftToVisit r schema c.visited < fuel

theorem HasDepth.add (h : HasDepth r schema fuel s) (name : String) (values : List Excerpt) :
    HasDepth r schema fuel (s.add name values) := by
  rw [HasDepth, (enums_add s name values).2]
  exact h

/-- With more depth than there are nodes left to visit, more depth still changes nothing. -/
theorem walkWithin_steady (hD : Sources (documentsInReach r schema)) {more : Nat}
    (hmore : fuel ≤ more) (hn : Stands (documentsInReach r schema) n)
    (hs : HasDepth r schema fuel s) :
    SteadyFrom (PlainInReach r schema) (HasDepth r schema fuel) (walkWithin (some r) fuel n)
      (walkWithin (some r) more n) s := by
  induction fuel generalizing more n s with
  | zero => exact absurd hs (Nat.not_lt_zero _)
  | succ fuel ih =>
      obtain ⟨more, rfl⟩ := Nat.exists_eq_add_one_of_ne_zero (show more ≠ 0 by omega)
      have htop := stands_topInReach r schema
      rw [walkWithin_succ, walkWithin_succ]
      refine steadyFrom_lift_bind (fun hends => ?_) hs fun found hfound => ?_
      · exact Resolver.concludes_objectAt hends.1 (hends.plain hn)
      cases found with
      | none => exact steadyFrom_pure hs _
      | some b =>
          have hb : Stands (documentsInReach r schema) b := hD.closed.objectAt htop hn hfound
          refine steadyFrom_get_bind ?_
          by_cases hseen : s.hasVisited b = true
          · rw [if_pos hseen, if_pos hseen]
            exact steadyFrom_pure hs _
          rw [if_neg hseen, if_neg hseen]
          -- one node fewer is left for what is inside the object, where there is one step less
          have hinside : HasDepth r schema fuel { s with visited := b :: s.visited } := by
            have hvisit := leftToVisit_cons_lt hb (objectAt_eq_some hfound).2
              (Bool.eq_false_iff.mpr hseen)
            exact Nat.lt_of_lt_of_le hvisit (Nat.le_of_lt_succ hs)
          have hthrough := walkThrough_steady hD (fun hends n hn => PlainInReach.plain hends hn)
            (fun c name values hc => hc.add name values)
            (fun n hn c hc => ih (Nat.le_of_succ_le_succ hmore) hn hc) hb hinside
          exact steadyFrom_modify_bind (hthrough.mono fun c hc => Nat.lt_succ_of_lt hc)

/-! ## Whole collections -/

/-- What a walk through a schema collected, from the objects in reach of the schema. -/
structure Collection (r : Resolver) (schema : Node) (c : EnumCollection) : Prop where
  names : ∀ name, name ∈ c.names ↔ ∃ b p texts, Reaches r LeadsOn schema b ∧ OwnProperty b p ∧
    Shows p.2 (.texts texts) ∧ Naming.enumName p.1 = name
  /-- There is a tour from the schema. -/
  toured : ∃ met last, Tour r [] [.schema schema] met last
  /-- It notes just what the objects in reach list, and each enumeration has the values that were
  listed when its name was noted first. -/
  first : ∀ met last, Tour r [] [.schema schema] met last →
    (∀ q, q ∈ met ↔ ∃ b p, Reaches r LeadsOn schema b ∧ OwnProperty b p ∧
      Shows p.2 (.texts q.2) ∧ p.1 = q.1) ∧
    c.names = firsts (met.map fun q => Naming.enumName q.1) ∧
    ∀ e ∈ c.enums, ∃ q values, met.find? (Naming.enumName ·.1 = e.name) = some q ∧
      listed q.2 = .ok values ∧ e = enumeration e.name values

/-- A walk for enumerations comes to an end, however references go round, and collects one for each
name that the objects in reach call for, and no others. How deep it may go does not matter once
there is a step for every value, and in documents that are not linked there is nothing else that
could go on for ever. -/
theorem collect_collection (hD : Sources (documentsInReach r schema)) (hr : r.document.WellLinked)
    (hschema : Stands (documentsInReach r schema) schema) :
    (∀ fuel, r.document.root.size + schema.document.root.size < fuel → ∀ s,
      (walkWithin (some r) fuel schema).run.run s = (collect (some r) schema).run.run s) ∧
    (r.document.linked = false → schema.Plain → ∀ s,
      Concludes ((collect (some r) schema).run.run s).1) ∧
    ∀ c, Yields (collect (some r) schema) {} () c → Collection r schema c := by
  have hsteady : ∀ s more, r.document.root.size + schema.document.root.size < more →
      SteadyFrom (PlainInReach r schema)
        (HasDepth r schema (r.document.root.size + schema.document.root.size + 1))
        (walkWithin (some r) (r.document.root.size + schema.document.root.size + 1) schema)
        (walkWithin (some r) more schema) s := by
    intro s more hmore
    exact walkWithin_steady hD hmore hschema (Nat.lt_succ_of_le (leftToVisit_le r schema _))
  have hown : ∀ s, (collect (some r) schema).run.run s =
      (walkWithin (some r) (r.document.root.size + schema.document.root.size + 1)
        schema).run.run s := by
    intro s
    refine (hsteady s _ ?_).same
    show _ < r.document.root.size + schema.document.root.size + schema.value.size + 2
    omega
  refine ⟨fun fuel hfuel s => ?_, fun hlinked hplain s => ?_, fun c hc => ?_⟩
  · exact (hsteady s fuel hfuel).same.trans (hown s).symm
  · rw [hown]
    exact (hsteady s _ (Nat.lt_succ_self _)).concludes ⟨hlinked, hplain⟩
  have htop := stands_topInReach r schema
  obtain ⟨-, met, hnotes, htour⟩ :=
    walkWithin_tours hD htop hschema hc fun v hv => absurd hv List.not_mem_nil
  have hwhole : Tour r [] [.schema schema] (met ++ []) c.visited := htour [] [] _ .done
  rw [List.append_nil] at hwhole
  have hmet : ∀ q, q ∈ met ↔ ∃ b p, Reaches r LeadsOn schema b ∧ OwnProperty b p ∧
      Shows p.2 (.texts q.2) ∧ p.1 = q.1 := by
    intro q
    rw [hwhole.mem_iff]
    simp only [Resolver.met_iff hr]
  have hnames : c.names = firsts (met.map fun q => Naming.enumName q.1) := hnotes.names
  refine ⟨fun name => ?_, ⟨met, _, hwhole⟩, fun met' last' hother => ?_⟩
  · rw [hnames, mem_firsts, List.mem_map]
    constructor
    · rintro ⟨q, hq, rfl⟩
      obtain ⟨b, p, hb, hp, hshows, hname⟩ := (hmet q).mp hq
      exact ⟨b, p, q.2, hb, hp, hshows, by rw [hname]⟩
    · rintro ⟨b, p, texts, hb, hp, hshows, rfl⟩
      exact ⟨(p.1, texts), (hmet _).mpr ⟨b, p, hb, hp, hshows, rfl⟩, rfl⟩
  · obtain ⟨rfl, -⟩ := hwhole.unique hother
    refine ⟨hmet, hnames, fun e he => ?_⟩
    obtain ⟨-, q, values, hq⟩ := (hnotes.enums e he).resolve_left List.not_mem_nil
    exact ⟨q, values, hq⟩

/-- A document of plants, which are living things that come from plants. -/
def plantDocument : Document where
  tag := 0
  root := .obj [("components", .obj [("schemas", .obj [
    ("Plant", .obj [
      ("allOf", .arr [.obj [("$ref", .str "#/components/schemas/Living")]]),
      ("properties", .obj [
        ("color", .obj [("type", .str "string"), ("enum", .arr [.str "green", .str "red"])]),
        ("parts", .obj [("type", .str "array"),
          ("items", .obj [("$ref", .str "#/components/schemas/Part")])]),
        ("soil", .obj [("properties", .obj [("kind", .obj [("type", .str "string"),
          ("enum", .arr [.str "clay", .str "sand"])])])])])]),
    ("Living", .obj [("properties", .obj [
      ("origin", .obj [("$ref", .str "#/components/schemas/Plant")]),
      ("color", .obj [("type", .str "string"), ("enum", .arr [.str "grey"])])])]),
    ("Part", .obj [("properties", .obj [
      ("sides", .obj [("type", .str "array"), ("items", .obj [("type", .str "string"),
        ("enum", .arr [.str "left", .str "right"])])]),
      ("whole", .obj [("$ref", .str "#/components/schemas/Plant")])])]),
    ("Stone", .obj [("properties", .obj [("grain", .obj [("type", .str "string"),
      ("enum", .arr [.str "fine"])])])])])])]
  linked := false

/-- The schema of plants. -/
def plant : Node :=
  let trail : List Step := [.key "Plant", .key "schemas", .key "components"]
  ⟨plantDocument, trail, (plantDocument.valueAt? trail).getD .null⟩

/-- From plants a walk gets to living things, parts and soil, and not to stones; what colors living
things have is listed before what colors plants have. -/
theorem plant_collection :
    Sources (documentsInReach ⟨plantDocument, none⟩ plant) ∧ plantDocument.WellLinked ∧
      Stands (documentsInReach ⟨plantDocument, none⟩ plant) plant ∧ plant.Plain ∧
      ∃ c, Yields (collect (some ⟨plantDocument, none⟩) plant) {} () c ∧
        Yields (walkWithin (some ⟨plantDocument, none⟩) 1000 plant) {} () c ∧
        Concludes ((collect (some ⟨plantDocument, none⟩) plant).run.run c).1 ∧
        Collection ⟨plantDocument, none⟩ plant c ∧
        (c.enums.map fun e => (e.name, e.members.map (·.value.value))) =
          [("ColorEnum", [.str "grey"]), ("SidesEnum", [.str "left", .str "right"]),
            ("KindEnum", [.str "clay", .str "sand"])] := by
  have hsources : Sources (documentsInReach ⟨plantDocument, none⟩ plant) := by
    rw [show documentsInReach ⟨plantDocument, none⟩ plant = {plantDocument} from
      Set.pair_eq_singleton plantDocument]
    exact sources_singleton (by decide)
  have hstands : Stands (documentsInReach ⟨plantDocument, none⟩ plant) plant := ⟨Or.inl rfl, rfl⟩
  have hlinked : plantDocument.WellLinked := Document.wellLinked_of_plain rfl
  obtain ⟨hdepth, hconcludes, hcollection⟩ :=
    @collect_collection ⟨plantDocument, none⟩ plant hsources hlinked hstands
  have hshown : ((fun run : Except Fault Unit × EnumCollection => (run.1.toOption,
      run.2.enums.map fun e => (e.name, e.members.map (·.value.value))))
        ((collect (some ⟨plantDocument, none⟩) plant).run.run {})) =
      (some (), [("ColorEnum", [.str "grey"]), ("SidesEnum", [.str "left", .str "right"]),
        ("KindEnum", [.str "clay", .str "sand"])]) := by
    decide +kernel
  rcases hrun : (collect (some ⟨plantDocument, none⟩) plant).run.run {} with ⟨outcome, c⟩
  rw [hrun] at hshown
  obtain ⟨houtcome, henums⟩ := Prod.mk.inj hshown
  obtain rfl : outcome = .ok () := eq_ok_of_toOption houtcome
  exact ⟨hsources, hlinked, hstands, rfl, c, hrun, (hdepth 1000 (by decide) {}).trans hrun,
    hconcludes rfl rfl c, hcollection c hrun, henums⟩

end ApiScaffold.EnumCollection
