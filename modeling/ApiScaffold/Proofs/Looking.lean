import ApiScaffold.Proofs.Compiling

set_option autoImplicit false

/-! # Looking into nodes

What holds of the nodes that a walk starts from, and of every part of a node that it holds of, holds
of every node that looking leads to (`Closed`): along links, references and pointers, into lists,
objects and texts. So it holds of the schemas that a mapping or a collection of properties meets. -/

namespace ApiScaffold

/-- Nodes that looking does not lead out of. -/
structure Closed (P : Node → Prop) : Prop where
  top : ∀ {n}, P n → P n.document.top
  field : ∀ {n fields} (key : String), P n → n.value = .obj fields →
    P (n.part (.key key) ((fields.lookup key).getD .null))
  listed : ∀ {n} {fields : Fields}, P n → n.value = .obj fields → ∀ f ∈ fields,
    P (n.part (.key f.1) f.2)
  item : ∀ {n items i u}, P n → n.value = .arr items → items[i]? = some u →
    P (n.part (.index i) u)
  char : ∀ {n s i c}, P n → n.value = .str s → s.toList[i]? = some c →
    P (n.part (.index i) (.str (String.singleton c)))
  name : ∀ {n} {fields : Fields} {i f}, P n → n.value = .obj fields → fields[i]? = some f →
    P (n.part (.index i) (.str f.1))

section Looking

variable {P : Node → Prop} {n b : Node}

/-! ## Links -/

theorem Closed.lookup (h : Closed P) (hn : P n) {fields : Fields} {key : String} {u : Json}
    (hfields : n.value = .obj fields) (hu : fields.lookup key = some u) :
    P (n.part (.key key) u) := by
  have hfield := h.field key hn hfields
  rwa [hu] at hfield

theorem Closed.linkPart? (h : Closed P) (hn : P n) {segment : String}
    (hb : n.linkPart? segment = some b) : P b := by
  unfold Node.linkPart? at hb
  split at hb
  · next fields hfields =>
      obtain ⟨u, hu, rfl⟩ := Option.map_eq_some_iff.mp hb
      exact h.lookup hn hfields hu
  · next items hitems =>
      obtain ⟨i, -, hb⟩ := Option.bind_eq_some_iff.mp hb
      obtain ⟨u, hu, hb⟩ := Option.bind_eq_some_iff.mp hb
      cases hb
      exact h.item hn hitems hu
  · next s hs =>
      obtain ⟨i, -, hb⟩ := Option.bind_eq_some_iff.mp hb
      obtain ⟨c, hc, hb⟩ := Option.bind_eq_some_iff.mp hb
      cases hb
      exact h.char hn hs hc
  · cases hb

theorem Closed.walkLink (h : Closed P) {settle : Node → Except Fault Node} {link : Node}
    {segments : List String} (hn : P n) (hsettle : ∀ a b, P a → settle a = .ok b → P b)
    (hb : Node.walkLink settle link n segments = .ok b) : P b := by
  induction segments generalizing n with
  | nil =>
      cases hb
      exact hn
  | cons segment segments ih =>
      rw [Node.walkLink] at hb
      obtain ⟨here, hhere, hb⟩ := ite_bind_eq_ok.mp hb
      have hin : P here := by
        split at hhere
        · exact pure_eq_ok.mp hhere ▸ hn
        · exact hsettle n here hn hhere
      dsimp only at hb
      split at hb
      · next next hpart => exact ih (h.linkPart? hin hpart) hb
      · exact absurd hb throw_ne_ok

theorem Closed.settleWithin (h : Closed P) {fuel : Nat} (hn : P n)
    (hb : Node.settleWithin fuel n = .ok b) : P b := by
  induction fuel generalizing n b with
  | zero => cases hb
  | succ fuel ih =>
      rw [Node.settleWithin] at hb
      split at hb
      · cases hb
        exact hn
      · split at hb
        · exact absurd hb throw_ne_ok
        · obtain ⟨target, htarget, hb⟩ := bind_eq_ok.mp hb
          have hlives := h.walkLink (h.top hn) (fun a b ha hab => ih ha hab) htarget
          split at hb
          · exact absurd hb throw_ne_ok
          · exact ih hlives hb

theorem Closed.settle (h : Closed P) (hn : P n) (hb : n.settle = .ok b) : P b := by
  unfold Node.settle at hb
  split at hb
  · exact h.settleWithin hn hb
  · cases hb
    exact hn

/-! ## Parts -/

theorem Closed.get (h : Closed P) (hn : P n) {key : String} (hb : n.get key = .ok b) : P b := by
  obtain ⟨here, hhere, hb⟩ := bind_eq_ok.mp hb
  split at hb
  · next fields hfields =>
      cases pure_eq_ok.mp hb
      exact h.field key (h.settle hn hhere) hfields
  · exact absurd hb throw_ne_ok

theorem Closed.itemNodes (h : Closed P) (hn : P n) {items : List Json}
    (hitems : n.value = .arr items) : ∀ b ∈ n.itemNodes items, P b := by
  intro b hb
  obtain ⟨i, hi, rfl⟩ := List.mem_mapIdx.mp hb
  exact h.item hn hitems (List.getElem?_eq_getElem hi)

theorem Closed.fieldNodes (h : Closed P) (hn : P n) {fields : Fields}
    (hfields : n.value = .obj fields) : ∀ f ∈ n.fieldNodes fields, P f.2 := by
  intro f hf
  obtain ⟨g, hg, rfl⟩ := List.mem_map.mp hf
  exact h.listed hn hfields g hg

theorem Closed.fields (h : Closed P) (hn : P n) {fields : List (String × Node)}
    (hb : n.fields = .ok fields) : ∀ f ∈ fields, P f.2 := by
  obtain ⟨here, hhere, hb⟩ := bind_eq_ok.mp hb
  split at hb
  · next found hfound =>
      cases pure_eq_ok.mp hb
      exact h.fieldNodes (h.settle hn hhere) hfound
  · exact absurd hb throw_ne_ok

theorem Closed.fieldsIfAny (h : Closed P) (hn : P n) {fields : List (String × Node)}
    (hb : n.fieldsIfAny = .ok fields) : ∀ f ∈ fields, P f.2 := by
  obtain ⟨truthy, -, hb⟩ := bind_eq_ok.mp hb
  split at hb
  · exact h.fields hn hb
  · cases pure_eq_ok.mp hb
    simp

theorem Closed.entries (h : Closed P) (hn : P n) {nodes : List Node}
    (hb : n.entries = .ok nodes) : ∀ b ∈ nodes, P b := by
  obtain ⟨here, hhere, hb⟩ := bind_eq_ok.mp hb
  have hlives := h.settle hn hhere
  split at hb
  · next items hitems =>
      cases pure_eq_ok.mp hb
      exact h.itemNodes hlives hitems
  · next s hs =>
      cases pure_eq_ok.mp hb
      intro b hb
      obtain ⟨i, hi, rfl⟩ := List.mem_mapIdx.mp hb
      rw [List.getElem_map]
      exact h.char hlives hs (List.getElem?_eq_getElem _)
  · next fields hfields =>
      cases pure_eq_ok.mp hb
      intro b hb
      obtain ⟨i, hi, rfl⟩ := List.mem_mapIdx.mp hb
      rw [List.getElem_map]
      exact h.name hlives hfields (List.getElem?_eq_getElem _)
  · exact absurd hb throw_ne_ok

theorem Closed.entriesIfAny (h : Closed P) (hn : P n) {nodes : List Node}
    (hb : n.entriesIfAny = .ok nodes) : ∀ b ∈ nodes, P b := by
  obtain ⟨truthy, -, hb⟩ := bind_eq_ok.mp hb
  split at hb
  · exact h.entries hn hb
  · cases pure_eq_ok.mp hb
    simp

/-! ## Pointers -/

theorem Closed.pointed (h : Closed P) (hn : P n) {segment : String}
    (hb : n.pointed segment = .ok (some b)) : P b := by
  unfold Node.pointed at hb
  split at hb
  · next items hitems =>
      split at hb
      · cases hb
      · split at hb
        · cases hb
        · obtain ⟨u, hu, rfl⟩ := Option.map_eq_some_iff.mp (Except.ok.inj hb)
          exact h.item hn hitems hu
  · next fields hfields =>
      obtain ⟨u, hu, rfl⟩ := Option.map_eq_some_iff.mp (Except.ok.inj hb)
      exact h.lookup hn hfields hu
  · cases hb

theorem Closed.descend (h : Closed P) (hn : P n) {segments : List String}
    (hb : n.descend segments = .ok (some b)) : P b := by
  induction segments generalizing n with
  | nil =>
      cases hb
      exact hn
  | cons segment segments ih =>
      obtain ⟨found, hfound, hb⟩ := bind_eq_ok.mp hb
      cases found with
      | none => cases pure_eq_ok.mp hb
      | some next => exact ih (h.pointed hn hfound) hb

theorem Closed.locate (h : Closed P) {r : Resolver} (hr : P r.document.top) {pointer : String}
    (hb : r.locate pointer = .ok (some b)) : P b := by
  unfold Resolver.locate at hb
  split at hb
  · exact h.descend hr hb
  · cases hb

theorem Closed.find (h : Closed P) {r : Resolver} (hr : P r.document.top) {pointer : String}
    (hb : r.find pointer = .ok (some b)) : P b :=
  h.locate hr (Mapper.find_eq_some hb).1

theorem Closed.chase (h : Closed P) {r : Resolver} (hr : P r.document.top) {fuel : Nat}
    {seen : List String} (hn : P n) (hb : r.chase fuel seen n = .ok (.node b)) : P b := by
  induction fuel generalizing seen n with
  | zero => cases hb
  | succ fuel ih =>
      obtain ⟨pointer?, hpointer, hb⟩ := bind_eq_ok.mp hb
      cases pointer? with
      | none =>
          cases pure_eq_ok.mp hb
          exact hn
      | some pointer =>
          dsimp only at hb
          split at hb
          · cases pure_eq_ok.mp hb
          · obtain ⟨found, hfound, hb⟩ := bind_eq_ok.mp hb
            cases found with
            | none => cases pure_eq_ok.mp hb
            | some next => exact ih (h.locate hr hfound) hb

/-- The object that references lead to is where their chain ends. -/
theorem objectAt_eq_some {r : Resolver} (h : r.objectAt n = .ok (some b)) :
    r.chainEnd n = .ok (.node b) ∧ b.isObject = .ok true := by
  obtain ⟨target?, htarget, h⟩ := bind_eq_ok.mp h
  obtain ⟨last, hlast, htarget⟩ := bind_eq_ok.mp htarget
  cases last with
  | lost pointer =>
      cases pure_eq_ok.mp htarget
      cases pure_eq_ok.mp h
  | node target =>
      cases pure_eq_ok.mp htarget
      obtain ⟨isObject, hobject, h⟩ := bind_eq_ok.mp h
      cases isObject with
      | false => cases pure_eq_ok.mp h
      | true =>
          cases pure_eq_ok.mp h
          exact ⟨hlast, hobject⟩

theorem Closed.objectAt (h : Closed P) {r : Resolver} (hr : P r.document.top) (hn : P n)
    (hb : r.objectAt n = .ok (some b)) : P b :=
  h.chase hr hn (objectAt_eq_some hb).1

end Looking

/-! ## Mapping -/

section Mapping

open Mapper

variable {m : Mapper} {P : Node → Prop} {n b : Node}

theorem Closed.onlyMember? (h : Closed P) (hn : P n)
    (hb : Mapper.onlyMember? n = .ok (some b)) : P b := by
  obtain ⟨listed, hlisted, hb⟩ := bind_eq_ok.mp hb
  obtain ⟨allOf, hallOf, hb⟩ := bind_eq_ok.mp hb
  have hlives := h.settle (h.get hn hlisted) hallOf
  split at hb
  · next member hmember =>
      cases pure_eq_ok.mp hb
      exact h.item hlives hmember rfl
  · cases pure_eq_ok.mp hb

theorem Closed.variants (h : Closed P) (hn : P n) {all : List Node}
    (hb : Mapper.variants n = .ok all) : ∀ b ∈ all, P b := by
  obtain ⟨oneOf, honeOf, hb⟩ := bind_eq_ok.mp hb
  obtain ⟨truthy, -, hb⟩ := bind_eq_ok.mp hb
  obtain ⟨listed, hlisted, hb⟩ := ite_bind_eq_ok.mp hb
  have hin : P listed := by
    split at hlisted
    · exact pure_eq_ok.mp hlisted ▸ h.get hn honeOf
    · exact h.get hn hlisted
  obtain ⟨here, hhere, hb⟩ := bind_eq_ok.mp hb
  split at hb
  · next items hitems =>
      cases pure_eq_ok.mp hb
      exact h.itemNodes (h.settle hin hhere) hitems
  · cases pure_eq_ok.mp hb
    simp

theorem Closed.partOf (h : Closed P) (hr : P m.resolver.document.top) (hn : P n)
    (hb : Part m n b) : P b := by
  cases hb with
  | items hb => exact h.get hn hb
  | values hb => exact h.get hn hb
  | member hb => exact h.onlyMember? hn hb
  | variant hall hb => exact h.variants hn hall b hb
  | target _ hb _ => exact h.find hr hb

theorem Closed.parts (h : Closed P) (hr : P m.resolver.document.top) (hn : P n)
    (hb : Relation.ReflTransGen (Part m) n b) : P b := by
  induction hb with
  | refl => exact hn
  | tail _ hpart ih => exact h.partOf hr ih hpart

end Mapping

/-! ## Properties -/

section Properties

variable {r : Resolver} {P : Node → Prop} {n : Node}

theorem mem_put {name : String} {schema : Node} {known : List (String × Node)}
    {p : String × Node} (hp : p ∈ Gathered.put name schema known) :
    p ∈ known ∨ p = (name, schema) := by
  induction known with
  | nil => exact Or.inr (List.mem_singleton.mp hp)
  | cons q known ih =>
      obtain ⟨name', schema'⟩ := q
      rw [Gathered.put] at hp
      split at hp
      · rcases List.mem_cons.mp hp with rfl | hp
        · exact Or.inr rfl
        · exact Or.inl (List.mem_cons_of_mem _ hp)
      · rcases List.mem_cons.mp hp with rfl | hp
        · exact Or.inl List.mem_cons_self
        · exact (ih hp).imp (List.mem_cons_of_mem _) id

theorem mem_foldl_put {fields known : List (String × Node)} {p : String × Node}
    (hp : p ∈ fields.foldl (fun known p => Gathered.put p.1 p.2 known) known) :
    p ∈ known ∨ p ∈ fields := by
  induction fields generalizing known with
  | nil => exact Or.inl hp
  | cons f fields ih =>
      rcases ih hp with hp | hp
      · rcases mem_put hp with hp | rfl
        · exact Or.inl hp
        · exact Or.inr List.mem_cons_self
      · exact Or.inr (List.mem_cons_of_mem _ hp)

theorem mem_textsOf {values : List Json} {text : String} :
    text ∈ Gathered.textsOf values ↔ .str text ∈ values := by
  rw [Gathered.textsOf, List.mem_filterMap]
  constructor
  · rintro ⟨v, hv, htext⟩
    split at htext
    · exact Option.some.inj htext ▸ hv
    · cases htext
  · intro hmem
    exact ⟨.str text, hmem, rfl⟩

/-- The object that a schema, or a member of a schema that was reached, leads to. -/
inductive Member (r : Resolver) (schema : Node) : Node → Prop where
  | self {n : Node} (h : r.objectAt schema = .ok (some n)) : Member r schema n
  | inner {n listed member b : Node} {members : List Node} (hn : Member r schema n)
      (hlisted : n.get "allOf" = .ok listed) (hmembers : listed.entriesIfAny = .ok members)
      (hmember : member ∈ members) (hb : r.objectAt member = .ok (some b)) : Member r schema b

/-- A schema is a member of another one. -/
def MemberOf (n member : Node) : Prop :=
  ∃ listed members, n.get "allOf" = .ok listed ∧ listed.entriesIfAny = .ok members ∧
    member ∈ members

/-- A property that a node has itself. -/
def OwnProperty (n : Node) (p : String × Node) : Prop :=
  ∃ listed fields, n.get "properties" = .ok listed ∧ listed.fieldsIfAny = .ok fields ∧ p ∈ fields

/-- A name that a node lists as required itself; only texts are names. -/
def OwnRequired (n : Node) (name : String) : Prop :=
  ∃ listed values, n.get "required" = .ok listed ∧ listed.truthy = .ok true ∧
    listed.members = .ok values ∧ .str name ∈ values

/-- What a node says itself is added to what is known. -/
theorem addOwn_eq_ok {g g' : Gathered} (hrun : g.addOwn n = .ok g') :
    ∃ listed fields names, n.get "properties" = .ok listed ∧ listed.fieldsIfAny = .ok fields ∧
      (∀ name, name ∈ names ↔ OwnRequired n name) ∧
      g' = { g with
        properties := fields.foldl (fun known p => Gathered.put p.1 p.2 known) g.properties
        required := g.required ++ names } := by
  obtain ⟨listed, hlisted, hrun⟩ := bind_eq_ok.mp hrun
  obtain ⟨fields, hfields, hrun⟩ := bind_eq_ok.mp hrun
  obtain ⟨required, hrequired, hrun⟩ := bind_eq_ok.mp hrun
  obtain ⟨truthy, htruthy, hrun⟩ := bind_eq_ok.mp hrun
  obtain ⟨values, hvalues, hrun⟩ := ite_bind_eq_ok.mp hrun
  refine ⟨listed, fields, Gathered.textsOf values, hlisted, hfields, ?_,
    (pure_eq_ok.mp hrun).symm⟩
  intro name
  rw [mem_textsOf]
  cases truthy with
  | true =>
      constructor
      · intro hname
        exact ⟨required, values, hrequired, htruthy, hvalues, hname⟩
      · rintro ⟨required', values', hrequired', -, hvalues', hname⟩
        cases hrequired.symm.trans hrequired'
        cases hvalues.symm.trans hvalues'
        exact hname
  | false =>
      obtain rfl := pure_eq_ok.mp hvalues
      constructor
      · intro hname
        cases hname
      · rintro ⟨required', values', hrequired', htruthy', -, -⟩
        cases hrequired.symm.trans hrequired'
        cases htruthy.symm.trans htruthy'

/-- Adding what a schema says: it leads nowhere, or to an object that was visited, or into one,
whose members come first. -/
inductive AddsWithin (r : Resolver) (fuel : Nat) (g : Gathered) (n : Node) : Gathered → Prop where
  | nowhere (h : r.objectAt n = .ok none) : AddsWithin r fuel g n g
  | again {b : Node} (h : r.objectAt n = .ok (some b)) (hseen : g.hasVisited b = true) :
      AddsWithin r fuel g n g
  | enters {b listed : Node} {members : List Node} {inner g' : Gathered}
      (h : r.objectAt n = .ok (some b)) (hnew : g.hasVisited b = false)
      (hlisted : b.get "allOf" = .ok listed) (hmembers : listed.entriesIfAny = .ok members)
      (hinner : members.foldlM (Gathered.addWithin r fuel) { g with visited := b :: g.visited } =
        .ok inner)
      (hown : inner.addOwn b = .ok g') : AddsWithin r fuel g n g'

theorem addsWithin_of_eq_ok {fuel : Nat} {g g' : Gathered}
    (hrun : Gathered.addWithin r (fuel + 1) g n = .ok g') : AddsWithin r fuel g n g' := by
  obtain ⟨found, hfound, hrun⟩ := bind_eq_ok.mp hrun
  cases found with
  | none =>
      obtain rfl := pure_eq_ok.mp hrun
      exact .nowhere hfound
  | some b =>
      dsimp only at hrun
      split at hrun
      · next hseen =>
          obtain rfl := pure_eq_ok.mp hrun
          exact .again hfound hseen
      · next hnew =>
          obtain ⟨listed, hlisted, hrun⟩ := bind_eq_ok.mp hrun
          obtain ⟨members, hmembers, hrun⟩ := bind_eq_ok.mp hrun
          obtain ⟨inner, hinner, hown⟩ := bind_eq_ok.mp hrun
          exact .enters hfound (by simpa using hnew) hlisted hmembers hinner hown

/-- What holds when an object is visited, and when what it says itself is added, holds when all is
added. -/
theorem addWithin_keeps {schema : Node} {P : Gathered → Prop}
    (hvisit : ∀ g b, Member r schema b → P g → P { g with visited := b :: g.visited })
    (hown : ∀ g g' b, Member r schema b → P g → g.addOwn b = .ok g' → P g') {fuel : Nat}
    {g g' : Gathered} (hn : ∀ b, r.objectAt n = .ok (some b) → Member r schema b) (hg : P g)
    (hrun : Gathered.addWithin r fuel g n = .ok g') : P g' := by
  induction fuel generalizing g g' n with
  | zero => cases hrun
  | succ fuel ih =>
      cases addsWithin_of_eq_ok hrun with
      | nowhere _ => exact hg
      | again _ _ => exact hg
      | enters hb _ hlisted hmembers hinner hadd =>
          have hin := hn _ hb
          refine hown _ _ _ hin (foldlM_keeps (P := P) ?_ (hvisit _ _ hin hg) hinner) hadd
          intro g g' member hmember hg hstep
          exact ih (fun c hc => .inner hin hlisted hmembers hmember hc) hg hstep

theorem addWithin_members {schema : Node} {fuel : Nat} {g g' : Gathered}
    (hn : ∀ b, r.objectAt n = .ok (some b) → Member r schema b)
    (hg : ∀ p ∈ g.properties, ∃ b, Member r schema b ∧ OwnProperty b p)
    (hrun : Gathered.addWithin r fuel g n = .ok g') :
    ∀ p ∈ g'.properties, ∃ b, Member r schema b ∧ OwnProperty b p := by
  refine addWithin_keeps (P := fun g : Gathered =>
    ∀ p ∈ g.properties, ∃ b, Member r schema b ∧ OwnProperty b p) ?_ ?_ hn hg hrun
  · intro g b _ hg
    exact hg
  · intro g g' b hb hg hadd p hp
    obtain ⟨listed, fields, names, hlisted, hfields, -, rfl⟩ := addOwn_eq_ok hadd
    rcases mem_foldl_put hp with hp | hp
    · exact hg p hp
    · exact ⟨b, hb, listed, fields, hlisted, hfields, hp⟩

/-- The properties gathered are those of the schema and its members. -/
theorem ofSchema_members {schema : Node} {gathered : Gathered}
    (h : Gathered.ofSchema r schema = .ok gathered) :
    ∀ p ∈ gathered.properties, ∃ b, Member r schema b ∧ OwnProperty b p :=
  addWithin_members (fun _ hb => .self hb) (fun _ hp => absurd hp List.not_mem_nil) h

theorem Closed.memberOf (h : Closed P) (hr : P r.document.top) {schema b : Node}
    (hschema : P schema) (hb : Member r schema b) : P b := by
  induction hb with
  | self hb => exact h.objectAt hr hschema hb
  | inner _ hlisted hmembers hmember hb ih =>
      exact h.objectAt hr (h.entriesIfAny (h.get ih hlisted) hmembers _ hmember) hb

theorem Closed.ownProperty (h : Closed P) (hn : P n) {p : String × Node}
    (hp : OwnProperty n p) : P p.2 := by
  obtain ⟨listed, fields, hlisted, hfields, hp⟩ := hp
  exact h.fieldsIfAny (h.get hn hlisted) hfields p hp

theorem Closed.gathered (h : Closed P) (hr : P r.document.top) {schema : Node} (hschema : P schema)
    {gathered : Gathered} (hgathered : Gathered.ofSchema r schema = .ok gathered) :
    ∀ p ∈ gathered.properties, P p.2 := by
  intro p hp
  obtain ⟨b, hb, hown⟩ := ofSchema_members hgathered p hp
  exact h.ownProperty (h.memberOf hr hschema hb) hown

end Properties

/-- The schemas that make up the properties of a schema. -/
theorem Closed.inside {m : Mapper} {P : Node → Prop} {schema n : Node} (h : Closed P)
    (hr : P m.resolver.document.top) (hschema : P schema)
    (hn : ModelCompiler.Inside m schema n) : P n := by
  obtain ⟨gathered, p, hgathered, hp, hsteps⟩ := hn
  exact h.parts hr (h.gathered hr hschema hgathered p hp) hsteps

end ApiScaffold
