import ApiScaffold.Proofs.Bodies
import ApiScaffold.Proofs.TypeTrees
import ApiScaffold.Proofs.Uses

set_option autoImplicit false

/-! # What schemas denote

A schema denotes a type by its structure: a list has the whole type of its items, a union has the
members of its variants that are not null, and an object with values of one schema is a record of
their type. What a reference denotes hangs on those that are being followed, and the name of a class
on what is registered already (`Denotes`).

Mapping a property writes the type that its schema denotes: when names are single words, the text is
read as that type, at any depth (`mapProperty_denotes`). -/

namespace ApiScaffold

/-- A type has the members of some types; if there are none it is `any`. -/
def TypeTree.IsUnionOf (T : TypeTree) (Ts : List TypeTree) : Prop :=
  if Ts = [] then T = .named "any" else ∀ U, U ∈ T.members ↔ ∃ V ∈ Ts, U ∈ V.members

namespace Mapper

open ModelCompiler (referenceTo)

variable {m : Mapper} {ctx : MappingContext} {Q : Node → Prop} {n : Node} {s t : MapperState}
  {a : MappedType} {descend : Descent} {following : List String}

/-! ## Classes -/

/-- The class that a reference names on a registry, with the registry that has it: that of a named
schema, or one claimed for a schema inside of another one. -/
inductive ReferenceClass (m : Mapper) (n : Node) (r : Registry) : String → Registry → Prop where
  | component {pointer : String} {target : Option Node} (h : NamesClass m n pointer)
      (hcomponent : Pointer.isComponent pointer = true)
      (hfind : m.resolver.find pointer = .ok target) :
      ReferenceClass m n r (m.names.classOf (Pointer.name pointer)) (r.register
        { name := m.names.classOf (Pointer.name pointer)
          schema := target
          pointer := some pointer })
  | inside {pointer name : String} {target : Node} {r' : Registry} (h : NamesClass m n pointer)
      (hcomponent : Pointer.isComponent pointer = false)
      (hfind : m.resolver.find pointer = .ok (some target))
      (hclaim : r.claim (Naming.capitalize (Pointer.name pointer)) target "reference" =
        .ok (name, r')) :
      ReferenceClass m n r name r'

/-- The class of an object in place, with the registry that has it: that of a named schema with the
same properties, or one claimed for the object. -/
inductive InPlaceClass (m : Mapper) (ctx : MappingContext) (n : Node) (r : Registry) :
    String → Registry → Prop where
  | alike {component : String} {e : Entry} (h : m.structuralMatch n = .ok (some component))
      (hname : e.name = m.names.classOf component) : InPlaceClass m ctx n r e.name (r.register e)
  | claimed {name : String} {r' : Registry} (h : m.structuralMatch n = .ok none)
      (hclaim : r.claim (ctx.base ++ Naming.capitalize ctx.property) n "inline" = .ok (name, r')) :
      InPlaceClass m ctx n r name r'

/-- What a class that a registry `r` has stands for in a property: the class, whose use is noted, or
`any` if the property must not use it. A class that is blocked need not be registered. -/
inductive TakesClass (ctx : MappingContext) (s : MapperState) (name : String) (r : Registry) :
    TypeTree → MapperState → Prop where
  | used (h : isBlocked ctx name = false) :
      TakesClass ctx s name r (.named name) ⟨r, addNew s.dependencies name⟩
  | blocked {r' : Registry} (h : isBlocked ctx name = true) (hr : r' = s.registry ∨ r' = r) :
      TakesClass ctx s name r (.named "any") ⟨r', s.dependencies⟩

/-! ## The rules -/

/-- A reference to a schema that neither lists texts nor is a model. -/
structure RefersToSimple (m : Mapper) (n : Node) (pointer : String) (target : Node) : Prop where
  reference : n.pointer? = .ok (some pointer)
  found : m.resolver.find pointer = .ok (some target)
  noTexts : Schema.isStringEnum target = .ok false
  noModel : Schema.isModel target = .ok false

/-- An object of any keys, with the schema of their values. -/
structure IsFreeObject (n values : Node) : Prop where
  place : InPlace n
  kind : Schema.typeOf n = .ok (.str "object")
  noProperties : Schema.isInlineObject n = .ok false
  values : n.get "additionalProperties" = .ok values

/-- A schema of a simple or an unknown type. -/
structure HasSimpleType (n : Node) (type : Json) : Prop where
  place : InPlace n
  kind : Schema.typeOf n = .ok type
  noProperties : Schema.isInlineObject n = .ok false
  noArray : type ≠ .str "array"
  noObject : type ≠ .str "object"

mutual

/-- A schema denotes a type, while some references are being followed; with the state in front and
the state behind. -/
inductive Denotes (m : Mapper) (ctx : MappingContext) :
    List String → Node → MapperState → TypeTree → MapperState → Prop where
  | other {following : List String} {n : Node} {s : MapperState} (h : n.isObject = .ok false) :
      Denotes m ctx following n s (.named "any") s
  | texts {following : List String} {n target : Node} {s : MapperState} {pointer : String}
      (h : RefersToTexts m n pointer target) (hmodel : Schema.isModel target = .ok false) :
      Denotes m ctx following n s (.named (Naming.enumName (Pointer.name pointer))) s
  -- a circle of references ends where it comes back to one that is being followed
  | again {following : List String} {n target : Node} {s : MapperState} {pointer : String}
      (h : RefersToSimple m n pointer target) (hagain : pointer ∈ following) :
      Denotes m ctx following n s (.named "any") s
  | target {following : List String} {n target : Node} {s t : MapperState} {pointer : String}
      {T : TypeTree} (h : RefersToSimple m n pointer target) (hnew : pointer ∉ following)
      (htarget : Denotes m ctx (pointer :: following) target s T t) :
      Denotes m ctx following n s T t
  | nowhere {following : List String} {n : Node} {s : MapperState} {pointer : String}
      (h : NamesClass m n pointer) (hcomponent : Pointer.isComponent pointer = false)
      (hfind : m.resolver.find pointer = .ok none) :
      Denotes m ctx following n s (.named "any") s
  | reference {following : List String} {n : Node} {s t : MapperState} {name : String}
      {r : Registry} {T : TypeTree} (h : ReferenceClass m n s.registry name r)
      (htakes : TakesClass ctx s name r T t) : Denotes m ctx following n s T t
  | member {following : List String} {n b : Node} {s t : MapperState} {T : TypeTree}
      (hplain : n.pointer? = .ok none) (hmember : onlyMember? n = .ok (some b))
      (h : Denotes m ctx following b s T t) : Denotes m ctx following n s T t
  | union {following : List String} {n : Node} {all : List Node} {s t : MapperState}
      {T : TypeTree} {Ts : List TypeTree} (hplain : n.pointer? = .ok none)
      (hmember : onlyMember? n = .ok none) (hall : variants n = .ok all) (hne : all ≠ [])
      (heach : DenotesEach m ctx following all s Ts t) (hunion : T.IsUnionOf Ts) :
      Denotes m ctx following n s T t
  | unknownList {following : List String} {n items : Node} {s : MapperState} (hplace : InPlace n)
      (hlist : IsList n items) (hobject : items.isObject = .ok false) :
      Denotes m ctx following n s (.array (.named "any")) s
  | listInPlace {following : List String} {n items : Node} {s t : MapperState} {name : String}
      {r : Registry} {T : TypeTree} (hplace : InPlace n) (hlist : IsList n items)
      (hinline : Schema.isInlineObject items = .ok true)
      (hclaim : s.registry.claim (ctx.base ++ Naming.capitalize ctx.property ++ "Item") items
        "inline" = .ok (name, r)) (htakes : TakesClass ctx s name r T t) :
      Denotes m ctx following n s (.array T) t
  -- the list has the whole type of its items, also where that is a union
  | list {following : List String} {n items : Node} {s t : MapperState} {T : TypeTree}
      (hplace : InPlace n) (hlist : IsList n items) (hobject : items.isObject = .ok true)
      (hinline : Schema.isInlineObject items = .ok false)
      (h : Denotes m ctx following items s T t) : Denotes m ctx following n s (.array T) t
  | inPlace {following : List String} {n : Node} {s t : MapperState} {name : String}
      {r : Registry} {T : TypeTree} (hplace : InPlace n)
      (hinline : Schema.isInlineObject n = .ok true)
      (hclass : InPlaceClass m ctx n s.registry name r) (htakes : TakesClass ctx s name r T t) :
      Denotes m ctx following n s T t
  | record {following : List String} {n values : Node} {s t : MapperState} {T : TypeTree}
      (hfree : IsFreeObject n values) (hobject : values.isObject = .ok true)
      (htruthy : values.truthy = .ok true) (h : Denotes m ctx following values s T t) :
      Denotes m ctx following n s (.record T) t
  | object {following : List String} {n values : Node} {s : MapperState}
      (hfree : IsFreeObject n values)
      (hnone : values.isObject = .ok false ∨ values.truthy = .ok false) :
      Denotes m ctx following n s (.named "object") s
  | simple {following : List String} {n : Node} {s : MapperState} {type : Json}
      (h : HasSimpleType n type) : Denotes m ctx following n s (simpleType type).tree s

/-- Those of some schemas that are not the null type denote some types, one after the other. -/
inductive DenotesEach (m : Mapper) (ctx : MappingContext) :
    List String → List Node → MapperState → List TypeTree → MapperState → Prop where
  | nil {following : List String} {s : MapperState} : DenotesEach m ctx following [] s [] s
  | null {following : List String} {n : Node} {rest : List Node} {s t : MapperState}
      {Ts : List TypeTree} (h : Schema.typeOf n = .ok (.str "null"))
      (hrest : DenotesEach m ctx following rest s Ts t) :
      DenotesEach m ctx following (n :: rest) s Ts t
  | cons {following : List String} {n : Node} {rest : List Node} {s u t : MapperState}
      {type : Json} {T : TypeTree} {Ts : List TypeTree} (hkind : Schema.typeOf n = .ok type)
      (hnull : type ≠ .str "null") (h : Denotes m ctx following n s T u)
      (hrest : DenotesEach m ctx following rest u Ts t) :
      DenotesEach m ctx following (n :: rest) s (T :: Ts) t

end

/-! ## Tidy types -/

/-- A word that ends differently from `Record` names a type. -/
theorem isTypeName_of_last {name : String} {c : Char} (h : IsWord name)
    (hlast : name.toList.getLast? = some c) (hc : c ≠ 'd') : TypeTree.IsTypeName name where
  word := h
  nonempty hempty := by
    rw [hempty] at hlast
    cases hlast
  other hrecord := by
    rw [hrecord] at hlast
    exact hc (Option.some.inj hlast).symm

theorem isTypeName_enumName {name : String} (h : IsWord name) :
    TypeTree.IsTypeName (Naming.enumName name) :=
  isTypeName_of_last (c := 'm') h.enumName (by simp [Naming.enumName]) (by decide)

theorem UsesClass.isTypeName {name : String} (hw : Worded m ctx Q) (hn : Q n)
    (h : UsesClass m ctx n s name t) : TypeTree.IsTypeName name := by
  obtain ⟨base, hbase, rfl⟩ := h.named.exists_base hw hn
  exact isTypeName_of_last hbase.ofBase (last_ofBase base) (by decide)

theorem isTypeName_plain {name : String} (h : name ∈ plainTypes) : TypeTree.IsTypeName name := by
  have hall : ∀ name ∈ plainTypes, IsWord name ∧ name ≠ "" ∧ name ≠ "Record" := by decide
  obtain ⟨hword, hne, hrecord⟩ := hall name h
  exact ⟨hword, hne, hrecord⟩

theorem tidy_any : TypeExpr.any.Tidy := .named (isTypeName_plain (by decide))

theorem tidy_unionType {types : List MappedType} (h : ∀ a ∈ types, a.type.Tidy) :
    (unionType types).type.Tidy := by
  cases types with
  | nil => exact tidy_any
  | cons first rest =>
      rcases unionType_cons first rest with ⟨t, -, -, heq⟩ | ⟨hlength, heq⟩
      · rw [heq]
        exact h first List.mem_cons_self
      · rw [heq]
        refine .union hlength fun t ht => ?_
        obtain ⟨a, ha, rfl⟩ := List.mem_map.mp (TypeExpr.mem_of_mem_distinct ht)
        exact h a ha

/-- Every way to map a schema gives a tidy type, when names are words. -/
theorem tidy_rules (hw : Worded m ctx Q) : MapRules m ctx fun n _ a _ => Q n → a.type.Tidy where
  plain hplain _ _ := by
    obtain ⟨name, hname, htype⟩ := hplain.type
    rw [htype]
    exact .named (isTypeName_plain hname)
  texts hrefers _ hn := .named (isTypeName_enumName (hw.pointers _ _ hn hrefers.reference))
  through hstep h hn := h (hw.part _ _ hn hstep.part)
  ofClass huses hn := .named (huses.isTypeName hw hn)
  union hall hchain hn :=
    tidy_unionType (hchain.forall_types fun b hb _ _ _ h => h (hw.part _ b hn (.variant hall hb)))
  unknown _ _ _ := .list tidy_any
  items hlist h hn := .list (h (hw.part _ _ hn (.items hlist.items)))
  itemsOfClass hlist huses hn :=
    .listOfClass (huses.isTypeName hw (hw.part _ _ hn (.items hlist.items)))
  record hget h hn := .record (h (hw.part _ _ hn (.values hget)))

/-! ## Mapping -/

/-- The way down writes what schemas denote. -/
def WritesDown (m : Mapper) (ctx : MappingContext) (Q : Node → Prop) (descend : Descent) : Prop :=
  ∀ following n s a t, Q n → Yields (descend following n) s a t →
    Denotes m ctx following n s a.type.tree t

/-- The way down gives tidy types. -/
def TidyDown (Q : Node → Prop) (descend : Descent) : Prop :=
  Obeys (fun n _ a _ => Q n → a.type.Tidy) descend

theorem mapClass_denotes {pointer : String} {target : Option Node} (hclass : NamesClass m n pointer)
    (hfind : m.resolver.find pointer = .ok target)
    (h : Yields (m.mapClass target pointer ctx) s a t) :
    Denotes m ctx following n s a.type.tree t := by
  unfold mapClass at h
  split at h
  · next hcomponent =>
      have hnamed := ReferenceClass.component (r := s.registry) hclass hcomponent hfind
      split at h
      · next hblocked =>
          obtain ⟨rfl, rfl⟩ := yields_pure.mp h
          exact .reference hnamed (.blocked hblocked (Or.inl rfl))
      · next hfree =>
          obtain ⟨rfl, rfl⟩ := yields_register_use.mp h
          exact .reference hnamed (.used (by simpa using hfree))
  · next hcomponent =>
      have hinside : Pointer.isComponent pointer = false := by simpa using hcomponent
      split at h
      · obtain ⟨rfl, rfl⟩ := yields_pure.mp h
        exact .nowhere hclass hinside hfind
      · obtain ⟨name, u, hclaim, hrest⟩ := yields_bind.mp h
        obtain ⟨registry, hfound, rfl⟩ := yields_claim.mp hclaim
        have hnamed := ReferenceClass.inside hclass hinside hfind hfound
        split at hrest
        · next hblocked =>
            obtain ⟨rfl, rfl⟩ := yields_pure.mp hrest
            exact .reference hnamed (.blocked hblocked (Or.inr rfl))
        · next hfree =>
            obtain ⟨rfl, rfl⟩ := yields_useClass hrest
            exact .reference hnamed (.used (by simpa using hfree))

theorem mapAlias_denotes {pointer : String} {target : Node} (hdown : WritesDown m ctx Q descend)
    (hpointer : n.pointer? = .ok (some pointer))
    (hfind : m.resolver.find pointer = .ok (some target))
    (hmodel : Schema.isModel target = .ok false) (htarget : Q target)
    (h : Yields (mapAlias descend following pointer target) s a t) :
    Denotes m ctx following n s a.type.tree t := by
  obtain ⟨isEnum, hlists, hrest⟩ := yields_lift_bind.mp h
  cases isEnum with
  | true =>
      obtain ⟨values, -, hlast⟩ := yields_lift_bind.mp hrest
      obtain ⟨rfl, rfl⟩ := yields_pure.mp hlast
      exact .texts ⟨hpointer, hfind, hlists⟩ hmodel
  | false =>
      have hsimple : RefersToSimple m n pointer target := ⟨hpointer, hfind, hlists, hmodel⟩
      rw [if_neg (by decide)] at hrest
      split at hrest
      · next hagain =>
          obtain ⟨rfl, rfl⟩ := yields_pure.mp hrest
          exact .again hsimple (by simpa using hagain)
      · next hnew =>
          exact .target hsimple (by simpa using hnew) (hdown _ _ _ _ _ htarget hrest)

theorem mapReference_denotes {pointer : String} (hdown : WritesDown m ctx Q descend)
    (hpart : ∀ b, Part m n b → Q b) (hpointer : n.pointer? = .ok (some pointer))
    (h : Yields (m.mapReference descend following pointer ctx) s a t) :
    Denotes m ctx following n s a.type.tree t := by
  rcases yields_mapReference h with ⟨target, hfind, hmodel, hrest⟩ | ⟨target, hfind, hmodel, hrest⟩
  · have htarget : Q target := hpart _ (.target hpointer hfind hmodel)
    exact mapAlias_denotes hdown hpointer hfind hmodel htarget hrest
  · refine mapClass_denotes ⟨hpointer, fun b hb => hmodel b ?_⟩ hfind hrest
    exact Except.ok.inj (hfind.symm.trans hb)

theorem mapVariants_denotes {nodes : List Node} {types : List MappedType}
    (hdown : WritesDown m ctx Q descend) (htidy : TidyDown Q descend) (hnodes : ∀ b ∈ nodes, Q b)
    (h : Yields (mapVariants descend following nodes) s types t) :
    (∀ a ∈ types, a.type.Tidy) ∧
      DenotesEach m ctx following nodes s (types.map (·.type.tree)) t := by
  induction nodes generalizing s types with
  | nil =>
      obtain ⟨rfl, rfl⟩ := yields_pure.mp h
      exact ⟨fun a ha => absurd ha List.not_mem_nil, .nil⟩
  | cons b nodes ih =>
      obtain ⟨hb, hnodes⟩ := List.forall_mem_cons.mp hnodes
      obtain ⟨type, hkind, hrest⟩ := yields_lift_bind.mp h
      split at hrest
      · next hnull =>
          obtain ⟨hall, heach⟩ := ih hnodes hrest
          exact ⟨hall, .null (hnull ▸ hkind) heach⟩
      · next hnull =>
          obtain ⟨first, u, hfirst, hlast⟩ := yields_bind.mp hrest
          obtain ⟨others, v, hothers, hpure⟩ := yields_bind.mp hlast
          obtain ⟨rfl, rfl⟩ := yields_pure.mp hpure
          obtain ⟨hall, heach⟩ := ih hnodes hothers
          exact ⟨List.forall_mem_cons.mpr ⟨htidy _ _ _ _ _ hfirst hb, hall⟩,
            .cons hkind hnull (hdown _ _ _ _ _ hb hfirst) heach⟩

/-- The members of different types are those of all types: types of one text have one tree. -/
theorem exists_mem_distinct_tree {types : List TypeExpr} (h : ∀ t ∈ types, t.Tidy) {U : TypeTree} :
    (∃ t ∈ TypeExpr.distinct types, U ∈ t.tree.members) ↔ ∃ t ∈ types, U ∈ t.tree.members := by
  constructor
  · rintro ⟨t, ht, hU⟩
    exact ⟨t, TypeExpr.mem_of_mem_distinct ht, hU⟩
  · rintro ⟨t, ht, hU⟩
    obtain ⟨u, hu, htext⟩ := TypeExpr.exists_mem_distinct ht
    have htree : u.tree = t.tree := (h u (TypeExpr.mem_of_mem_distinct hu)).tree_eq (h t ht) htext
    exact ⟨u, hu, htree ▸ hU⟩

/-- The type of a union has the members of the types of its variants. -/
theorem isUnionOf_unionType {types : List MappedType} (h : ∀ a ∈ types, a.type.Tidy) :
    (unionType types).type.tree.IsUnionOf (types.map (·.type.tree)) := by
  cases types with
  | nil => exact rfl
  | cons first rest =>
      rw [TypeTree.IsUnionOf, if_neg (by simp)]
      intro U
      have htidy : ∀ t ∈ (first :: rest).map (·.type), t.Tidy := List.forall_mem_map.mpr h
      have hall : (∃ t ∈ TypeExpr.distinct ((first :: rest).map (·.type)), U ∈ t.tree.members) ↔
          ∃ V ∈ (first :: rest).map (·.type.tree), U ∈ V.members := by
        rw [exists_mem_distinct_tree htidy]
        simp
      rw [← hall]
      rcases unionType_cons first rest with ⟨t, hone, htext, heq⟩ | ⟨hlength, heq⟩
      · have hmem : t ∈ (first :: rest).map (·.type) :=
          TypeExpr.mem_of_mem_distinct (hone ▸ List.mem_singleton_self t)
        rw [heq, hone, ← (htidy t hmem).tree_eq (h first List.mem_cons_self) htext]
        simp
      · have hne : TypeExpr.distinct ((first :: rest).map (·.type)) ≠ [] :=
          List.ne_nil_of_length_pos (Nat.lt_of_lt_of_le Nat.two_pos hlength)
        rw [heq, TypeExpr.members_union hne, TypeExpr.mem_membersOf]

theorem mapUnion_denotes {nodes : List Node} (hdown : WritesDown m ctx Q descend)
    (htidy : TidyDown Q descend) (hnodes : ∀ b ∈ nodes, Q b) (hplain : n.pointer? = .ok none)
    (hmember : onlyMember? n = .ok none) (hall : variants n = .ok nodes) (hne : nodes ≠ [])
    (h : Yields (mapUnion descend following nodes) s a t) :
    Denotes m ctx following n s a.type.tree t := by
  rw [mapUnion_eq] at h
  obtain ⟨types, u, htypes, hrest⟩ := yields_bind.mp h
  obtain ⟨rfl, rfl⟩ := yields_pure.mp hrest
  obtain ⟨htidy, heach⟩ := mapVariants_denotes hdown htidy hnodes htypes
  exact .union hplain hmember hall hne heach (isUnionOf_unionType htidy)

/-- A schema in place takes the class claimed for it. -/
theorem synthesize_takes {suffix : String} {made : Option String}
    (h : Yields (synthesize n ctx suffix) s made t) :
    ∃ name r, s.registry.claim (ctx.base ++ Naming.capitalize ctx.property ++ suffix) n "inline" =
      .ok (name, r) ∧ TakesClass ctx s name r (.named (made.getD "any")) t := by
  obtain ⟨name, u, hclaim, h⟩ := yields_bind.mp h
  obtain ⟨registry, hfound, rfl⟩ := yields_claim.mp hclaim
  refine ⟨name, registry, hfound, ?_⟩
  split at h
  · next hblocked =>
      obtain ⟨rfl, rfl⟩ := yields_pure.mp h
      exact .blocked hblocked (Or.inr rfl)
  · next hfree =>
      obtain ⟨_, v, hdepend, h⟩ := yields_bind.mp h
      obtain rfl := yields_depend.mp hdepend
      obtain ⟨rfl, rfl⟩ := yields_pure.mp h
      exact .used (by simpa using hfree)

theorem mapArray_denotes (hdown : WritesDown m ctx Q descend) (hpart : ∀ b, Part m n b → Q b)
    (hplace : InPlace n) (htype : Schema.typeOf n = .ok (.str "array"))
    (h : Yields (mapArray descend following n ctx) s a t) :
    Denotes m ctx following n s a.type.tree t := by
  obtain ⟨items, hget, hrest⟩ := yields_lift_bind.mp h
  have hlist : IsList n items := ⟨htype, hget⟩
  obtain ⟨isObject, hobject, hrest⟩ := yields_lift_bind.mp hrest
  cases isObject with
  | false =>
      obtain ⟨rfl, rfl⟩ := yields_pure.mp hrest
      exact .unknownList hplace hlist hobject
  | true =>
      rw [if_neg (by decide)] at hrest
      obtain ⟨inPlace, hinline, hrest⟩ := yields_lift_bind.mp hrest
      cases inPlace with
      | true =>
          obtain ⟨made, u, hmade, hlast⟩ := yields_bind.mp hrest
          obtain ⟨name, r, hclaim, htakes⟩ := synthesize_takes hmade
          have hdenotes : Denotes m ctx following n s (.array (.named (made.getD "any"))) u :=
            .listInPlace hplace hlist hinline hclaim htakes
          cases made with
          | none | some name =>
              obtain ⟨rfl, rfl⟩ := yields_pure.mp hlast
              exact hdenotes
      | false =>
          obtain ⟨item, u, hitem, hlast⟩ := yields_bind.mp hrest
          obtain ⟨rfl, rfl⟩ := yields_pure.mp hlast
          exact .list hplace hlist hobject hinline
            (hdown _ _ _ _ _ (hpart _ (.items hget)) hitem)

theorem mapInlineObject_denotes (hplace : InPlace n) (hinline : Schema.isInlineObject n = .ok true)
    (h : Yields (m.mapInlineObject n ctx) s a t) : Denotes m ctx following n s a.type.tree t := by
  obtain ⟨found?, hmatch, hrest⟩ := yields_lift_bind.mp h
  cases found? with
  | some component =>
      dsimp only at hrest
      split at hrest
      · next hblocked =>
          have hclass : InPlaceClass m ctx n s.registry (m.names.classOf component) _ :=
            .alike (e := { name := m.names.classOf component }) hmatch rfl
          obtain ⟨rfl, rfl⟩ := yields_pure.mp hrest
          exact .inPlace hplace hinline hclass (.blocked hblocked (Or.inl rfl))
      · next hfree =>
          obtain ⟨found, -, hclass⟩ := yields_lift_bind.mp hrest
          obtain ⟨rfl, rfl⟩ := yields_register_use.mp hclass
          exact .inPlace hplace hinline (.alike hmatch rfl) (.used (by simpa using hfree))
  | none =>
      obtain ⟨made, u, hmade, hlast⟩ := yields_bind.mp hrest
      obtain ⟨name, r, hclaim, htakes⟩ := synthesize_takes hmade
      rw [String.append_empty] at hclaim
      have hdenotes : Denotes m ctx following n s (.named (made.getD "any")) u :=
        .inPlace hplace hinline (.claimed hmatch hclaim) htakes
      cases made with
      | none | some name =>
          obtain ⟨rfl, rfl⟩ := yields_pure.mp hlast
          exact hdenotes

theorem mapFreeObject_denotes (hdown : WritesDown m ctx Q descend) (hpart : ∀ b, Part m n b → Q b)
    (hplace : InPlace n) (htype : Schema.typeOf n = .ok (.str "object"))
    (hinline : Schema.isInlineObject n = .ok false)
    (h : Yields (mapFreeObject descend following n) s a t) :
    Denotes m ctx following n s a.type.tree t := by
  obtain ⟨values, hget, hrest⟩ := yields_lift_bind.mp h
  have hfree : IsFreeObject n values := ⟨hplace, htype, hinline, hget⟩
  obtain ⟨isObject, hobject, hrest⟩ := yields_lift_bind.mp hrest
  obtain ⟨truthy, htruthy, hrest⟩ := yields_lift_bind.mp hrest
  split at hrest
  · next hboth =>
      obtain ⟨hyes, hyes'⟩ := Bool.and_eq_true_iff.mp hboth
      obtain ⟨value, u, hvalue, hlast⟩ := yields_bind.mp hrest
      obtain ⟨rfl, rfl⟩ := yields_pure.mp hlast
      exact .record hfree (hyes ▸ hobject) (hyes' ▸ htruthy)
        (hdown _ _ _ _ _ (hpart _ (.values hget)) hvalue)
  · next hnot =>
      obtain ⟨rfl, rfl⟩ := yields_pure.mp hrest
      rw [Bool.not_eq_true, Bool.and_eq_false_iff] at hnot
      refine .object hfree (hnot.imp ?_ ?_)
      · intro hno
        exact hno ▸ hobject
      · intro hno
        exact hno ▸ htruthy

theorem HasSimpleType.denotes {name : String} {type : Json} (h : HasSimpleType n type)
    (hname : simpleType type = .named name) : Denotes m ctx following n s (.named name) s := by
  have hdenotes : Denotes m ctx following n s (simpleType type).tree s := .simple h
  rwa [hname] at hdenotes

theorem PlainAs.denotes {name : String} {type : Json} (h : PlainAs ctx n name a)
    (hsimple : HasSimpleType n type) (hname : simpleType type = .named name) :
    Denotes m ctx following n s a.type.tree s := by
  rw [h.type]
  exact hsimple.denotes hname

theorem mapInPlace_denotes {fuel : ℕ} (hdown : WritesDown m ctx Q (m.mapWithin ctx fuel))
    (hpart : ∀ b, Part m n b → Q b) (hplace : InPlace n)
    (h : Yields (m.mapWithin ctx (fuel + 1) following n) s a t) :
    Denotes m ctx following n s a.type.tree t := by
  obtain ⟨isObject, hobject, hrest⟩ := yields_lift_bind.mp h
  cases hplace.object.symm.trans hobject
  rw [if_neg (by decide)] at hrest
  obtain ⟨pointer?, hpointer, hrest⟩ := yields_lift_bind.mp hrest
  cases hplace.plain.symm.trans hpointer
  obtain ⟨member?, hmember, hrest⟩ := yields_lift_bind.mp hrest
  cases hplace.member.symm.trans hmember
  obtain ⟨all, hall, hrest⟩ := yields_lift_bind.mp hrest
  cases hplace.variants.symm.trans hall
  obtain ⟨type, hkind, hrest⟩ := yields_lift_bind.mp hrest
  split at hrest
  · next harray => exact mapArray_denotes hdown hpart hplace (harray ▸ hkind) hrest
  · next harray =>
      obtain ⟨inPlace, hinline, hrest⟩ := yields_lift_bind.mp hrest
      cases inPlace with
      | true => exact mapInlineObject_denotes hplace hinline hrest
      | false =>
          rw [if_neg (by decide)] at hrest
          have hsimple (hother : type ≠ .str "object") : HasSimpleType n type :=
            ⟨hplace, hkind, hinline, harray, hother⟩
          split at hrest
          · obtain ⟨hstring, rfl⟩ := yields_lift.mp hrest
            exact (plainAs_mapString hpointer hkind hstring).denotes (hsimple (by simp)) rfl
          · obtain ⟨hnumber, rfl⟩ := yields_lift.mp hrest
            have hplain : PlainAs ctx n "number" a := plainAs_mapNumber hnumber
            exact hplain.denotes (hsimple (by simp)) rfl
          · obtain ⟨hnumber, rfl⟩ := yields_lift.mp hrest
            have hplain : PlainAs ctx n "number" a := plainAs_mapNumber hnumber
            exact hplain.denotes (hsimple (by simp)) rfl
          · obtain ⟨rfl, rfl⟩ := yields_pure.mp hrest
            exact .simple (hsimple (by simp))
          · exact mapFreeObject_denotes hdown hpart hplace hkind hinline hrest
          · next hstring hnumber hinteger hboolean hobject =>
              obtain ⟨rfl, rfl⟩ := yields_pure.mp hrest
              exact (hsimple hobject).denotes
                (simpleType_of_unknown hstring hnumber hinteger hboolean)

/-- The way down writes what schemas denote, whatever its fuel. -/
theorem mapWithin_denotes (hw : Worded m ctx Q) (fuel : ℕ) :
    WritesDown m ctx Q (m.mapWithin ctx fuel) := by
  -- each step down takes one from the fuel; without any, there is no type
  induction fuel with
  | zero =>
      intro following n s a t _ h
      exact absurd h yields_throw
  | succ fuel ih =>
      intro following n s a t hn h
      have htidy : TidyDown Q (m.mapWithin ctx fuel) := mapWithin_rules (tidy_rules hw) fuel
      have hpart : ∀ b, Part m n b → Q b := fun b => hw.part n b hn
      obtain ⟨isObject, hobject, hrest⟩ := yields_lift_bind.mp h
      cases isObject with
      | false =>
          obtain ⟨rfl, rfl⟩ := yields_pure.mp hrest
          exact .other hobject
      | true =>
          rw [if_neg (by decide)] at hrest
          obtain ⟨pointer?, hpointer, hrest⟩ := yields_lift_bind.mp hrest
          cases pointer? with
          | some pointer => exact mapReference_denotes ih hpart hpointer hrest
          | none =>
              obtain ⟨member?, hmember, hrest⟩ := yields_lift_bind.mp hrest
              cases member? with
              | some member =>
                  exact .member hpointer hmember
                    (ih _ _ _ _ _ (hpart _ (.member hmember)) hrest)
              | none =>
                  obtain ⟨all, hall, hrest⟩ := yields_lift_bind.mp hrest
                  cases all with
                  | cons first rest =>
                      exact mapUnion_denotes ih htidy (fun b hb => hpart b (.variant hall hb))
                        hpointer hmember hall (List.cons_ne_nil first rest) hrest
                  | nil => exact mapInPlace_denotes ih hpart ⟨hobject, hpointer, hmember, hall⟩ h

/-! ## Properties -/

/-- The names that mapping a property can meet are words: those of the named schemas, those that the
pointers in reach of its schema end with, that of the property, and that of its model, from which
classes in place get their names. -/
structure MeetsWords (m : Mapper) (ctx : MappingContext) (n : Node) : Prop where
  components : ∀ fields, m.components.fields = .ok fields → ∀ f ∈ fields, IsWord f.1
  pointers : ∀ b pointer, Relation.ReflTransGen (Part m) n b → b.pointer? = .ok (some pointer) →
    IsWord (Pointer.name pointer)
  property : IsWord ctx.property
  base : IsWord ctx.base

variable {document : Document} {spec : Option String}

theorem MeetsWords.worded (hm : ofDocument document spec = .ok m) (h : MeetsWords m ctx n) :
    Worded m ctx (Relation.ReflTransGen (Part m) n) where
  classOf := ModelNames.classOf_of_ofSchemas (ofDocument_eq_ok hm).2.2
  components := h.components
  pointers := h.pointers
  base := h.base
  property := h.property
  part _ _ hb hpart := hb.tail hpart

/-- In a plain document whose names are words no other names are met. -/
theorem meetsWords_of_plain (hplain : document.linked = false)
    (hroot : document.root.namedInWords = true) (hm : ofDocument document spec = .ok m)
    (hn : GivesWords document n) (hproperty : IsWord ctx.property) (hbase : IsWord ctx.base) :
    MeetsWords m ctx n where
  components fields hfields := by
    obtain ⟨hcomponents, -, -⟩ := ofDocument_eq_ok hm
    exact GivesWords.components hplain hroot hcomponents hfields
  pointers b pointer hb hpointer := by
    have hin : GivesWords document b :=
      (closed_givesWords hroot).parts (givesWords_top hroot hm) hn hb
    exact hin.pointer hplain hpointer
  property := hproperty
  base := hbase

/-- A document of shelves. What stands on a shelf is a book, or a list of labels, or lists of moods
and labels by name; a label is a text or a number. -/
def library : Document where
  tag := 0
  root := .obj [("components", .obj [("schemas", .obj [
    ("Book", .obj [("properties", .obj [("title", .obj [("type", .str "string")])])]),
    ("Label", .obj [("oneOf", .arr [
      .obj [("type", .str "string")], .obj [("type", .str "integer")]])]),
    ("Mood", .obj [("type", .str "string"), ("enum", .arr [.str "calm", .str "wild"])]),
    ("Shelves", .obj [("type", .str "array"), ("items", .obj [("oneOf", .arr [
      referenceTo "Book",
      .obj [("type", .str "array"), ("items", referenceTo "Label")],
      .obj [("type", .str "object"), ("additionalProperties", .obj [
        ("type", .str "array"), ("items", .obj [("anyOf", .arr [
          referenceTo "Mood", referenceTo "Label", .obj [("type", .str "null")]])])])]])])])])])]
  linked := false

/-- The shelves of a room. -/
def shelves : MappingContext := { model := "RoomDto", base := "Room", property := "shelves" }

end Mapper

end ApiScaffold
