import ApiScaffold.Endpoint.Signature
import ApiScaffold.Proofs.Looking

set_option autoImplicit false

/-! # The rules of mapping

A schema is mapped in one of few ways: it has a plain type, refers to texts, stands for another
schema that is passed through, gets a class, or is made of the types of what lies inside it. A
relation between a schema, the state in front, the type and the state behind that keeps to these
rules (`MapRules`) holds of every mapping (`mapProperty_rules`), whatever models are blocked. -/

namespace ApiScaffold

/-! ## Unions -/

namespace TypeExpr

theorem mem_keepNew {kept : List TypeExpr} {t u : TypeExpr} (h : t ∈ keepNew kept u) :
    t ∈ kept ∨ t = u := by
  unfold keepNew at h
  split at h
  · exact Or.inl h
  · simpa using h

theorem mem_of_mem_distinct {t : TypeExpr} {types : List TypeExpr} (h : t ∈ distinct types) :
    t ∈ types := by
  have hfold : ∀ kept, t ∈ types.foldl keepNew kept → t ∈ kept ∨ t ∈ types := by
    clear h
    induction types with
    | nil => exact fun kept h => Or.inl h
    | cons u types ih =>
        intro kept h
        rcases ih _ h with h | h
        · rcases mem_keepNew h with h | rfl
          · exact Or.inl h
          · exact Or.inr List.mem_cons_self
        · exact Or.inr (List.mem_cons_of_mem _ h)
  exact (hfold [] h).resolve_left List.not_mem_nil

end TypeExpr

namespace Mapper

variable {m : Mapper} {ctx : MappingContext} {n b : Node} {s t : MapperState} {a : MappedType}

/-- A union is the type of one of its variants, or made of their types. -/
theorem unionType_cases (types : List MappedType) :
    unionType types = .any ∨ unionType types ∈ types ∨
      ∃ members ⊆ types.map (·.type), unionType types = { type := .union members } := by
  cases types with
  | nil => exact Or.inl rfl
  | cons first rest =>
      right
      rcases unionType_cons first rest with ⟨t, -, -, heq⟩ | ⟨-, heq⟩
      · rw [heq]
        exact Or.inl List.mem_cons_self
      · exact Or.inr ⟨_, fun t ht => TypeExpr.mem_of_mem_distinct ht, heq⟩

/-! ## Schemas on the way -/

/-- A schema that mapping passes through on the way to another one, which it takes everything
from. -/
inductive Through (m : Mapper) : Node → Node → Prop where
  | member {a b : Node} (h : onlyMember? a = .ok (some b)) : Through m a b
  | variant {a b : Node} {all : List Node} (h : variants a = .ok all) (hb : b ∈ all) :
      Through m a b
  | target {a b : Node} {pointer : String} (h : a.pointer? = .ok (some pointer))
      (hb : m.resolver.find pointer = .ok (some b)) (halias : Schema.isModel b = .ok false) :
      Through m a b

theorem Through.part {a b : Node} (h : Through m a b) : Part m a b := by
  cases h with
  | member h => exact .member h
  | variant h hb => exact .variant h hb
  | target h hb halias => exact .target h hb halias

/-- A schema that lists texts, in its place. -/
structure ListsTexts (n : Node) : Prop where
  plain : n.pointer? = .ok none
  lists : Schema.isStringEnum n = .ok true

/-- A reference to a schema that lists texts. -/
structure RefersToTexts (m : Mapper) (n : Node) (pointer : String) (target : Node) : Prop where
  reference : n.pointer? = .ok (some pointer)
  found : m.resolver.find pointer = .ok (some target)
  lists : Schema.isStringEnum target = .ok true

/-! ## Plain types -/

/-- An excerpt of what a schema has under some name, or of an entry of it. -/
inductive TakenFrom (n : Node) (e : Excerpt) : Prop where
  | value {key : String} {b : Node} (hb : n.get key = .ok b) (h : b.excerpt = .ok e)
  | entry {key : String} {b entry : Node} {entries : List Node} (hb : n.get key = .ok b)
      (hentries : b.entries = .ok entries) (hentry : entry ∈ entries) (h : entry.excerpt = .ok e)

/-- The excerpts of all entries are taken from the schema. -/
theorem takenFrom_of_mapM {key : String} {entries : List Node} {excerpts : List Excerpt}
    (hb : n.get key = .ok b) (hentries : b.entries = .ok entries)
    (h : entries.mapM Node.excerpt = .ok excerpts) : ∀ e ∈ excerpts, TakenFrom n e := by
  intro e he
  obtain ⟨entry, hentry, h⟩ := mem_of_mapM h e he
  exact .entry hb hentries hentry h

/-- A check by a decorator of its own that names no class. One against an enumeration names that of
the property, and the schema lists its texts. What a check compares with is known without the schema
or taken from it. -/
structure PlainCheck (ctx : MappingContext) (n : Node) (con : Constraint) : Prop where
  decorated : con.kind.decorator?.isSome
  nested : con.kind ≠ .nested
  type : con.kind ≠ .type
  enum : con.kind = .enum → con.value = .text (Naming.enumName ctx.property) ∧ ListsTexts n
  value : con.value = .plain con.value.value ∨ TakenFrom n con.value

/-- A type that names no class, with plain checks. -/
structure PlainType (ctx : MappingContext) (n : Node) (a : MappedType) : Prop where
  type : ∃ name ∈ plainTypes, a.type = .named name
  item : a.itemType = none
  checks : ∀ con ∈ a.constraints, PlainCheck ctx n con
  values : ∀ e ∈ a.enumValues, TakenFrom n e

theorem PlainType.noClass (h : PlainType ctx n a) :
    ∀ con ∈ a.constraints, con.kind ≠ .nested ∧ con.kind ≠ .type :=
  fun con hcon => ⟨(h.checks con hcon).nested, (h.checks con hcon).type⟩

/-- A plain type of a given name. -/
structure PlainAs (ctx : MappingContext) (n : Node) (name : String) (a : MappedType) : Prop where
  type : a.type = .named name
  item : a.itemType = none
  checks : ∀ con ∈ a.constraints, PlainCheck ctx n con
  values : ∀ e ∈ a.enumValues, TakenFrom n e

theorem PlainAs.plainType {name : String} (h : PlainAs ctx n name a) (hname : name ∈ plainTypes) :
    PlainType ctx n a :=
  ⟨⟨name, hname, h.type⟩, h.item, h.checks, h.values⟩

/-- The kinds that have a decorator of their own and no class or enumeration as their value. -/
def HasPlainDecorator (kind : ConstraintKind) : Prop :=
  kind ∉ [.nested, .type, .enum] ∧ kind.decorator?.isSome

instance (kind : ConstraintKind) : Decidable (HasPlainDecorator kind) :=
  inferInstanceAs (Decidable (_ ∧ _))

theorem plainCheck_of_kind {con : Constraint} (h : HasPlainDecorator con.kind)
    (hvalue : con.value = .plain con.value.value ∨ TakenFrom n con.value) :
    PlainCheck ctx n con := by
  obtain ⟨hkind, hdecorated⟩ := h
  simp only [List.mem_cons, List.not_mem_nil, or_false, not_or] at hkind
  exact ⟨hdecorated, hkind.1, hkind.2.1, fun henum => absurd henum hkind.2.2, hvalue⟩

/-- A bound checks as its kind says. -/
theorem bound_checks {field : String} {kind : ConstraintKind} {cons : List Constraint}
    (h : bound n field kind = .ok cons) (hkind : HasPlainDecorator kind) :
    ∀ con ∈ cons, PlainCheck ctx n con := by
  obtain ⟨value, hvalue, h⟩ := bind_eq_ok.mp h
  split at h
  · cases pure_eq_ok.mp h
    simp
  · obtain ⟨excerpt, hexcerpt, h⟩ := bind_eq_ok.mp h
    cases pure_eq_ok.mp h
    intro con hcon
    obtain rfl := List.mem_singleton.mp hcon
    exact plainCheck_of_kind hkind (Or.inr (.value hvalue hexcerpt))

theorem plainType_any : PlainType ctx n .any :=
  ⟨⟨"any", by decide, rfl⟩, rfl, fun _ h => absurd h List.not_mem_nil,
    fun _ h => absurd h List.not_mem_nil⟩

theorem plainAs_mapNumber {isInteger : Bool} (h : mapNumber n isInteger = .ok a) :
    PlainAs ctx n "number" a := by
  obtain ⟨minimum, hminimum, h⟩ := bind_eq_ok.mp h
  obtain ⟨maximum, hmaximum, h⟩ := bind_eq_ok.mp h
  cases pure_eq_ok.mp h
  refine ⟨rfl, rfl, fun con hcon => ?_, fun _ h => absurd h List.not_mem_nil⟩
  simp only [List.mem_append, List.mem_singleton] at hcon
  rcases hcon with (rfl | hcon) | hcon
  · exact plainCheck_of_kind (by cases isInteger <;> decide) (Or.inl rfl)
  · exact bound_checks hminimum (by decide) con hcon
  · exact bound_checks hmaximum (by decide) con hcon

/-- The type of a text whose form and values are checked plainly, with the bounds on its length and
the pattern that it may have. -/
theorem plainAs_text {email enum : List Constraint} {enumValues : List Excerpt}
    (hemail : ∀ con ∈ email, PlainCheck ctx n con) (henum : ∀ con ∈ enum, PlainCheck ctx n con)
    (hvalues : ∀ e ∈ enumValues, TakenFrom n e)
    (h : (do
      let minLength ← bound n "minLength" .minLength
      let maxLength ← bound n "maxLength" .maxLength
      let pattern ← n.get "pattern"
      let patterns ← if ← pattern.truthy then bound n "pattern" .pattern else pure []
      return { type := .named "string"
               constraints := [{ kind := .string }] ++ email ++ enum ++ minLength ++ maxLength ++
                 patterns
               enumValues }) = Except.ok a) :
    PlainAs ctx n "string" a := by
  obtain ⟨minLength, hmin, h⟩ := bind_eq_ok.mp h
  obtain ⟨maxLength, hmax, h⟩ := bind_eq_ok.mp h
  obtain ⟨pattern, -, h⟩ := bind_eq_ok.mp h
  obtain ⟨present, -, h⟩ := bind_eq_ok.mp h
  obtain ⟨patterns, hpatterns, h⟩ := ite_bind_eq_ok.mp h
  cases pure_eq_ok.mp h
  refine ⟨rfl, rfl, fun con hcon => ?_, hvalues⟩
  simp only [List.mem_append, List.mem_singleton] at hcon
  rcases hcon with ((((rfl | hcon) | hcon) | hcon) | hcon) | hcon
  · exact plainCheck_of_kind (by decide) (Or.inl rfl)
  · exact hemail con hcon
  · exact henum con hcon
  · exact bound_checks hmin (by decide) con hcon
  · exact bound_checks hmax (by decide) con hcon
  · split at hpatterns
    · exact bound_checks hpatterns (by decide) con hcon
    · cases pure_eq_ok.mp hpatterns
      exact absurd hcon List.not_mem_nil

theorem plainAs_mapString (hplain : n.pointer? = .ok none)
    (htype : Schema.typeOf n = .ok (.str "string")) (h : mapString n ctx = .ok a) :
    PlainAs ctx n "string" a := by
  obtain ⟨format, -, h⟩ := bind_eq_ok.mp h
  obtain ⟨value, -, h⟩ := bind_eq_ok.mp h
  obtain ⟨email, hemail, h⟩ := ite_bind_eq_ok.mp h
  obtain ⟨values, hvalues, h⟩ := bind_eq_ok.mp h
  obtain ⟨truthy, htruthy, h⟩ := bind_eq_ok.mp h
  have hemail : ∀ con ∈ email, PlainCheck ctx n con := by
    split at hemail
    · cases pure_eq_ok.mp hemail
      intro con hcon
      obtain rfl := List.mem_singleton.mp hcon
      exact plainCheck_of_kind (by decide) (Or.inl rfl)
    · cases pure_eq_ok.mp hemail
      simp
  dsimp only at h
  split at h
  · next hyes =>
      subst hyes
      have hlists : ListsTexts n := by
        refine ⟨hplain, bind_eq_ok.mpr ⟨_, htype, ?_⟩⟩
        simpa using bind_eq_ok.mpr ⟨values, hvalues, htruthy⟩
      obtain ⟨entries, hentries, h⟩ := bind_eq_ok.mp h
      obtain ⟨excerpts, hexcerpts, h⟩ := bind_eq_ok.mp h
      have htaken := takenFrom_of_mapM hvalues hentries hexcerpts
      refine plainAs_text hemail (fun con hcon => ?_) htaken h
      obtain rfl := List.mem_singleton.mp hcon
      exact ⟨rfl, by simp, by simp, fun _ => ⟨rfl, hlists⟩, Or.inl rfl⟩
  · exact plainAs_text hemail (by simp) (by simp) h

/-! ## Classes -/

/-- A reference that stands for a class: it leads nowhere, or to a model. -/
structure NamesClass (m : Mapper) (n : Node) (pointer : String) : Prop where
  reference : n.pointer? = .ok (some pointer)
  model : ∀ target, m.resolver.find pointer = .ok (some target) → Schema.isModel target = .ok true

/-- The class that a schema gets on a registry, with the registry that has it: that of the schema
that a pointer names, one claimed for what a pointer leads to, that of a named schema with the same
properties, or one claimed for an object in place. -/
inductive ClassFor (m : Mapper) (ctx : MappingContext) (n : Node) (r : Registry) :
    String → Registry → Prop where
  | component {pointer : String} {e : Entry} (h : NamesClass m n pointer)
      (hname : e.name = m.names.classOf (Pointer.name pointer)) :
      ClassFor m ctx n r e.name (r.register e)
  | target {pointer name : String} {target : Node} {r' : Registry}
      (h : NamesClass m n pointer) (hfind : m.resolver.find pointer = .ok (some target))
      (hclaim : r.claim (Naming.capitalize (Pointer.name pointer)) target "reference" =
        .ok (name, r')) :
      ClassFor m ctx n r name r'
  | alike {component : String} {e : Entry} (h : m.structuralMatch n = .ok (some component))
      (hname : e.name = m.names.classOf component) : ClassFor m ctx n r e.name (r.register e)
  | inPlace {suffix name : String} {r' : Registry} (hsuffix : suffix ∈ ["", "Item"])
      (hclaim : r.claim (ctx.base ++ Naming.capitalize ctx.property ++ suffix) n "inline" =
        .ok (name, r')) :
      ClassFor m ctx n r name r'

theorem ClassFor.extends {r r' : Registry} {name : String} (h : ClassFor m ctx n r name r') :
    Registry.Extends r r' := by
  cases h with
  | component | alike => exact Registry.extends_register
  | target _ _ hclaim => exact Registry.extends_claim hclaim
  | inPlace _ hclaim => exact Registry.extends_claim hclaim

theorem ClassFor.registered {r r' : Registry} {name : String} (h : ClassFor m ctx n r name r') :
    name ∈ r'.names := by
  cases h with
  | component | alike => exact Registry.mem_names_register.mpr (Or.inr rfl)
  | target _ _ hclaim => exact Registry.mem_of_claim hclaim
  | inPlace _ hclaim => exact Registry.mem_of_claim hclaim

/-- A registry stays as it is, or gains a class for a schema. -/
def Gains (m : Mapper) (ctx : MappingContext) (n : Node) (r r' : Registry) : Prop :=
  r' = r ∨ ∃ name, ClassFor m ctx n r name r'

theorem Gains.refl {r : Registry} : Gains m ctx n r r := Or.inl rfl

theorem Gains.extends {r r' : Registry} (h : Gains m ctx n r r') : Registry.Extends r r' := by
  rcases h with rfl | ⟨name, h⟩
  · exact Registry.Extends.refl _
  · exact h.extends

/-- A schema gets a class that is not blocked, and its use is noted. -/
structure UsesClass (m : Mapper) (ctx : MappingContext) (n : Node) (s : MapperState) (name : String)
    (t : MapperState) : Prop where
  named : ClassFor m ctx n s.registry name t.registry
  free : isBlocked ctx name = false
  noted : t.dependencies = addNew s.dependencies name

theorem subset_addNew (names : List String) (name : String) : names ⊆ addNew names name :=
  fun _ h => mem_addNew.mpr (Or.inl h)

theorem UsesClass.subset {name : String} (h : UsesClass m ctx n s name t) : s.dependencies ⊆ t.dependencies := by
  rw [h.noted]
  exact subset_addNew _ _

theorem UsesClass.mem {name : String} (h : UsesClass m ctx n s name t) : name ∈ t.dependencies := by
  rw [h.noted]
  exact mem_addNew.mpr (Or.inr rfl)

/-! ## Rules -/

/-- A schema of a list, with the schema of its items. -/
structure IsList (n items : Node) : Prop where
  type : Schema.typeOf n = .ok (.str "array")
  items : n.get "items" = .ok items

/-- The type that a reference to texts stands for. -/
def textsType (pointer : String) (values : List Excerpt) : MappedType :=
  { type := .named (Naming.enumName (Pointer.name pointer))
    constraints :=
      [{ kind := .string }, { kind := .enum, value := .text (Naming.enumName (Pointer.name pointer)) }]
    enumValues := values }

/-- The type of a list whose items are unknown. -/
def unknownList : MappedType :=
  { type := .list .any, constraints := [{ kind := .array }], itemType := some .any }

/-- The type of a list with items of some type. -/
def listType (item : MappedType) : MappedType :=
  { type := .list item.type
    constraints := { kind := .array } ::
      if item.constraints.any (·.kind = .nested) then Constraint.ofClass item.type.text true else []
    itemType := some item.type }

/-- The type of a list whose items have a class made for them. -/
def listOfClassType (name : String) : MappedType :=
  { type := .listOfClass name
    constraints := { kind := .array } :: Constraint.ofClass name true
    itemType := some (.named name) }

/-- Schemas mapped one after the other, some of them left out. -/
inductive Chain (Φ : Node → MapperState → MappedType → MapperState → Prop) :
    List Node → MapperState → List MappedType → MapperState → Prop where
  | nil {s : MapperState} : Chain Φ [] s [] s
  | skip {n : Node} {rest : List Node} {s t : MapperState} {types : List MappedType}
      (h : Chain Φ rest s types t) : Chain Φ (n :: rest) s types t
  | cons {n : Node} {rest : List Node} {s u t : MapperState} {a : MappedType}
      {types : List MappedType} (h : Φ n s a u) (hrest : Chain Φ rest u types t) :
      Chain Φ (n :: rest) s (a :: types) t

/-- The types of a chain are what its steps give. -/
theorem Chain.forall_types {Φ : Node → MapperState → MappedType → MapperState → Prop}
    {P : MappedType → Prop} {nodes : List Node} {types : List MappedType}
    (h : Chain Φ nodes s types t) (hΦ : ∀ n ∈ nodes, ∀ s a t, Φ n s a t → P a) :
    ∀ a ∈ types, P a := by
  induction h with
  | nil => exact fun a ha => absurd ha List.not_mem_nil
  | skip _ ih => exact ih fun n hn => hΦ n (List.mem_cons_of_mem _ hn)
  | cons hfirst _ ih =>
      exact List.forall_mem_cons.mpr ⟨hΦ _ List.mem_cons_self _ _ _ hfirst,
        ih fun n hn => hΦ n (List.mem_cons_of_mem _ hn)⟩

/-- A relation between a schema, the state in front, the type and the state behind that holds of
every way to map a schema. A class that is blocked is registered too. -/
structure MapRules (m : Mapper) (ctx : MappingContext)
    (Φ : Node → MapperState → MappedType → MapperState → Prop) : Prop where
  plain : ∀ {n s a r}, PlainType ctx n a → Gains m ctx n s.registry r → Φ n s a ⟨r, s.dependencies⟩
  texts : ∀ {n s pointer target values}, RefersToTexts m n pointer target →
    (∀ e ∈ values, TakenFrom target e) → Φ n s (textsType pointer values) s
  through : ∀ {n b s a t}, Through m n b → Φ b s a t → Φ n s a t
  ofClass : ∀ {n s name t}, UsesClass m ctx n s name t → Φ n s (.ofClass name) t
  union : ∀ {n all s types t}, variants n = .ok all → Chain Φ all s types t →
    Φ n s (unionType types) t
  unknown : ∀ {n b s r}, IsList n b → Gains m ctx b s.registry r →
    Φ n s unknownList ⟨r, s.dependencies⟩
  items : ∀ {n b s a t}, IsList n b → Φ b s a t → Φ n s (listType a) t
  itemsOfClass : ∀ {n b s name t}, IsList n b → UsesClass m ctx b s name t →
    Φ n s (listOfClassType name) t
  record : ∀ {n b s a t}, n.get "additionalProperties" = .ok b → Φ b s a t →
    Φ n s { type := .record a.type } t

/-- What lies inside a schema is mapped as a relation says. -/
def Obeys (Φ : Node → MapperState → MappedType → MapperState → Prop) (descend : Descent) : Prop :=
  ∀ following n s a t, Yields (descend following n) s a t → Φ n s a t

section Rules

variable {Φ : Node → MapperState → MappedType → MapperState → Prop} {descend : Descent}
  {following : List String}

theorem MapRules.any (h : MapRules m ctx Φ) {r : Registry}
    (hgains : Gains m ctx n s.registry r) : Φ n s .any ⟨r, s.dependencies⟩ :=
  h.plain plainType_any hgains

theorem MapRules.any_self (h : MapRules m ctx Φ) : Φ n s .any s :=
  h.any .refl

theorem yields_useClass {name : String} (h : Yields (useClass name) s a t) :
    a = .ofClass name ∧ t = { s with dependencies := addNew s.dependencies name } := by
  obtain ⟨_, u, hdepend, h⟩ := yields_bind.mp h
  obtain rfl := yields_depend.mp hdepend
  exact yields_pure.mp h

/-- A class for a schema in place is used, unless it is blocked. -/
theorem synthesize_uses {suffix : String} {made : Option String} (hsuffix : suffix ∈ ["", "Item"])
    (h : Yields (synthesize n ctx suffix) s made t) :
    (∃ name, made = some name ∧ UsesClass m ctx n s name t) ∨
      made = none ∧ ∃ r, Gains m ctx n s.registry r ∧ t = ⟨r, s.dependencies⟩ := by
  obtain ⟨name, u, hclaim, h⟩ := yields_bind.mp h
  obtain ⟨registry, hfound, rfl⟩ := yields_claim.mp hclaim
  split at h
  · obtain ⟨rfl, rfl⟩ := yields_pure.mp h
    exact Or.inr ⟨rfl, registry, Or.inr ⟨name, .inPlace hsuffix hfound⟩, rfl⟩
  · next hfree =>
      obtain ⟨_, v, hdepend, h⟩ := yields_bind.mp h
      obtain rfl := yields_depend.mp hdepend
      obtain ⟨rfl, rfl⟩ := yields_pure.mp h
      exact Or.inl ⟨name, rfl, .inPlace hsuffix hfound, by simpa using hfree, rfl⟩

theorem mapInlineObject_rules (hΦ : MapRules m ctx Φ)
    (h : Yields (m.mapInlineObject n ctx) s a t) : Φ n s a t := by
  obtain ⟨found, hfound, hrest⟩ := yields_lift_bind.mp h
  cases found with
  | some component =>
      dsimp only at hrest
      split at hrest
      · obtain ⟨rfl, rfl⟩ := yields_pure.mp hrest
        exact hΦ.any_self
      · next hfree =>
          obtain ⟨node, -, hclass⟩ := yields_lift_bind.mp hrest
          obtain ⟨rfl, rfl⟩ := yields_register_use.mp hclass
          exact hΦ.ofClass ⟨.alike hfound rfl, by simpa using hfree, rfl⟩
  | none =>
      obtain ⟨made, u, hmade, hlast⟩ := yields_bind.mp hrest
      rcases synthesize_uses (m := m) (by simp) hmade with ⟨name, rfl, huses⟩ | ⟨rfl, r, hgains, rfl⟩
      · obtain ⟨rfl, rfl⟩ := yields_pure.mp hlast
        exact hΦ.ofClass huses
      · obtain ⟨rfl, rfl⟩ := yields_pure.mp hlast
        exact hΦ.any hgains

theorem mapAlias_rules {pointer : String} {target : Node} (hΦ : MapRules m ctx Φ)
    (hdown : Obeys Φ descend) (hpointer : n.pointer? = .ok (some pointer))
    (hfind : m.resolver.find pointer = .ok (some target))
    (halias : Schema.isModel target = .ok false)
    (h : Yields (mapAlias descend following pointer target) s a t) : Φ n s a t := by
  obtain ⟨isEnum, hlists, hrest⟩ := yields_lift_bind.mp h
  split at hrest
  · next hyes =>
      obtain ⟨values, hvalues, hlast⟩ := yields_lift_bind.mp hrest
      obtain ⟨rfl, rfl⟩ := yields_pure.mp hlast
      obtain ⟨listed, hlisted, hvalues⟩ := bind_eq_ok.mp hvalues
      obtain ⟨entries, hentries, hvalues⟩ := bind_eq_ok.mp hvalues
      exact hΦ.texts ⟨hpointer, hfind, hyes ▸ hlists⟩
        (takenFrom_of_mapM hlisted hentries hvalues)
  · split at hrest
    · obtain ⟨rfl, rfl⟩ := yields_pure.mp hrest
      exact hΦ.any_self
    · exact hΦ.through (.target hpointer hfind halias) (hdown _ _ _ _ _ hrest)

theorem mapClass_rules {pointer : String} {target : Option Node} (hΦ : MapRules m ctx Φ)
    (hclass : NamesClass m n pointer) (hfind : m.resolver.find pointer = .ok target)
    (h : Yields (m.mapClass target pointer ctx) s a t) : Φ n s a t := by
  unfold mapClass at h
  split at h
  · split at h
    · obtain ⟨rfl, rfl⟩ := yields_pure.mp h
      exact hΦ.any_self
    · next hfree =>
        obtain ⟨rfl, rfl⟩ := yields_register_use.mp h
        exact hΦ.ofClass ⟨.component hclass rfl, by simpa using hfree, rfl⟩
  · split at h
    · obtain ⟨rfl, rfl⟩ := yields_pure.mp h
      exact hΦ.any_self
    · obtain ⟨name, u, hclaim, hrest⟩ := yields_bind.mp h
      obtain ⟨registry, hfound, rfl⟩ := yields_claim.mp hclaim
      split at hrest
      · obtain ⟨rfl, rfl⟩ := yields_pure.mp hrest
        exact hΦ.any (Or.inr ⟨name, .target hclass hfind hfound⟩)
      · next hfree =>
          obtain ⟨rfl, rfl⟩ := yields_useClass hrest
          exact hΦ.ofClass ⟨.target hclass hfind hfound, by simpa using hfree, rfl⟩

/-- A reference stands for a class, unless it leads to a schema that is no model. -/
theorem yields_mapReference {pointer : String}
    (h : Yields (m.mapReference descend following pointer ctx) s a t) :
    (∃ target, m.resolver.find pointer = .ok (some target) ∧
      Schema.isModel target = .ok false ∧
      Yields (mapAlias descend following pointer target) s a t) ∨
    ∃ target, m.resolver.find pointer = .ok target ∧
      (∀ n, target = some n → Schema.isModel n = .ok true) ∧
      Yields (m.mapClass target pointer ctx) s a t := by
  obtain ⟨target, hfound, hrest⟩ := yields_lift_bind.mp h
  cases target with
  | none => exact Or.inr ⟨none, hfound, by simp, hrest⟩
  | some n =>
      obtain ⟨isModel, hmodel, hlast⟩ := yields_lift_bind.mp hrest
      cases isModel with
      | false => exact Or.inl ⟨n, hfound, hmodel, hlast⟩
      | true =>
          refine Or.inr ⟨some n, hfound, ?_, hlast⟩
          rintro n' ⟨⟩
          exact hmodel

theorem mapReference_rules {pointer : String} (hΦ : MapRules m ctx Φ) (hdown : Obeys Φ descend)
    (hpointer : n.pointer? = .ok (some pointer))
    (h : Yields (m.mapReference descend following pointer ctx) s a t) : Φ n s a t := by
  rcases yields_mapReference h with ⟨target, hfind, halias, hrest⟩ | ⟨target, hfind, hmodel, hrest⟩
  · exact mapAlias_rules hΦ hdown hpointer hfind halias hrest
  · refine mapClass_rules hΦ ⟨hpointer, fun t ht => hmodel t ?_⟩ hfind hrest
    exact Except.ok.inj (hfind.symm.trans ht)

theorem mapVariants_chain {nodes : List Node} {types : List MappedType} (hdown : Obeys Φ descend)
    (h : Yields (mapVariants descend following nodes) s types t) : Chain Φ nodes s types t := by
  induction nodes generalizing s types with
  | nil =>
      obtain ⟨rfl, rfl⟩ := yields_pure.mp h
      exact .nil
  | cons n nodes ih =>
      obtain ⟨type, -, hrest⟩ := yields_lift_bind.mp h
      split at hrest
      · exact .skip (ih hrest)
      · obtain ⟨first, u, hfirst, hlast⟩ := yields_bind.mp hrest
        obtain ⟨others, v, hothers, hpure⟩ := yields_bind.mp hlast
        obtain ⟨rfl, rfl⟩ := yields_pure.mp hpure
        exact .cons (hdown _ _ _ _ _ hfirst) (ih hothers)

theorem mapUnion_rules {nodes : List Node} (hΦ : MapRules m ctx Φ) (hdown : Obeys Φ descend)
    (hall : variants n = .ok nodes) (h : Yields (mapUnion descend following nodes) s a t) :
    Φ n s a t := by
  rw [mapUnion_eq] at h
  obtain ⟨types, u, htypes, hrest⟩ := yields_bind.mp h
  obtain ⟨rfl, rfl⟩ := yields_pure.mp hrest
  exact hΦ.union hall (mapVariants_chain hdown htypes)

theorem mapArray_rules (hΦ : MapRules m ctx Φ) (hdown : Obeys Φ descend)
    (htype : Schema.typeOf n = .ok (.str "array"))
    (h : Yields (mapArray descend following n ctx) s a t) : Φ n s a t := by
  obtain ⟨items, hget, hrest⟩ := yields_lift_bind.mp h
  have hlist : IsList n items := ⟨htype, hget⟩
  obtain ⟨isObject, -, hrest⟩ := yields_lift_bind.mp hrest
  split at hrest
  · obtain ⟨rfl, rfl⟩ := yields_pure.mp hrest
    exact hΦ.unknown hlist .refl
  · obtain ⟨inPlace, -, hrest⟩ := yields_lift_bind.mp hrest
    split at hrest
    · obtain ⟨made, u, hmade, hlast⟩ := yields_bind.mp hrest
      rcases synthesize_uses (m := m) (by simp) hmade with ⟨name, rfl, huses⟩ | ⟨rfl, r, hgains, rfl⟩
      · obtain ⟨rfl, rfl⟩ := yields_pure.mp hlast
        exact hΦ.itemsOfClass hlist huses
      · obtain ⟨rfl, rfl⟩ := yields_pure.mp hlast
        exact hΦ.unknown hlist hgains
    · obtain ⟨item, u, hitem, hlast⟩ := yields_bind.mp hrest
      obtain ⟨rfl, rfl⟩ := yields_pure.mp hlast
      exact hΦ.items hlist (hdown _ _ _ _ _ hitem)

theorem mapFreeObject_rules (hΦ : MapRules m ctx Φ) (hdown : Obeys Φ descend)
    (h : Yields (mapFreeObject descend following n) s a t) : Φ n s a t := by
  obtain ⟨values, hget, hrest⟩ := yields_lift_bind.mp h
  obtain ⟨isObject, -, hrest⟩ := yields_lift_bind.mp hrest
  obtain ⟨truthy, -, hrest⟩ := yields_lift_bind.mp hrest
  split at hrest
  · obtain ⟨value, u, hvalue, hlast⟩ := yields_bind.mp hrest
    obtain ⟨rfl, rfl⟩ := yields_pure.mp hlast
    exact hΦ.record hget (hdown _ _ _ _ _ hvalue)
  · obtain ⟨rfl, rfl⟩ := yields_pure.mp hrest
    exact hΦ.plain ⟨⟨"object", by decide, rfl⟩, rfl, by simp, by simp⟩ .refl

/-- A type that is found without a step. -/
theorem MapRules.simple (hΦ : MapRules m ctx Φ) (h : PlainType ctx n a) : Φ n s a s :=
  hΦ.plain h .refl

/-- The way down obeys a relation that keeps to the rules, whatever its fuel. -/
theorem mapWithin_rules (hΦ : MapRules m ctx Φ) (fuel : Nat) : Obeys Φ (m.mapWithin ctx fuel) := by
  -- each step down takes one from the fuel; without any, there is no type that could break a rule
  induction fuel with
  | zero =>
      intro following n s a t h
      exact absurd h yields_throw
  | succ fuel ih =>
      intro following n s a t h
      obtain ⟨isObject, -, hrest⟩ := yields_lift_bind.mp h
      split at hrest
      · obtain ⟨rfl, rfl⟩ := yields_pure.mp hrest
        exact hΦ.any_self
      · obtain ⟨pointer?, hpointer, hrest⟩ := yields_lift_bind.mp hrest
        cases pointer? with
        | some pointer => exact mapReference_rules hΦ ih hpointer hrest
        | none =>
            obtain ⟨member?, hmember, hrest⟩ := yields_lift_bind.mp hrest
            cases member? with
            | some member => exact hΦ.through (.member hmember) (ih _ _ _ _ _ hrest)
            | none =>
                obtain ⟨all, hall, hrest⟩ := yields_lift_bind.mp hrest
                cases all with
                | cons first rest => exact mapUnion_rules hΦ ih hall hrest
                | nil =>
                    obtain ⟨type, htype, hrest⟩ := yields_lift_bind.mp hrest
                    split at hrest
                    · next harray => exact mapArray_rules hΦ ih (harray ▸ htype) hrest
                    · obtain ⟨inPlace, -, hrest⟩ := yields_lift_bind.mp hrest
                      split at hrest
                      · exact mapInlineObject_rules hΦ hrest
                      · split at hrest
                        · obtain ⟨hsimple, rfl⟩ := yields_lift.mp hrest
                          have htext := plainAs_mapString hpointer htype hsimple
                          exact hΦ.simple (htext.plainType (by decide))
                        · obtain ⟨hsimple, rfl⟩ := yields_lift.mp hrest
                          exact hΦ.simple ((plainAs_mapNumber hsimple).plainType (by decide))
                        · obtain ⟨hsimple, rfl⟩ := yields_lift.mp hrest
                          exact hΦ.simple ((plainAs_mapNumber hsimple).plainType (by decide))
                        · obtain ⟨rfl, rfl⟩ := yields_pure.mp hrest
                          refine hΦ.simple
                            ⟨⟨"boolean", by decide, rfl⟩, rfl, fun con hcon => ?_, by simp⟩
                          obtain rfl := List.mem_singleton.mp hcon
                          exact plainCheck_of_kind (by decide) (Or.inl rfl)
                        · exact mapFreeObject_rules hΦ ih hrest
                        · obtain ⟨rfl, rfl⟩ := yields_pure.mp hrest
                          exact hΦ.any_self

/-- A relation that keeps to the rules holds of the mapping of every property. -/
theorem mapProperty_rules (hΦ : MapRules m ctx Φ) (h : Yields (m.mapProperty n ctx) s a t) :
    Φ n s a t :=
  mapWithin_rules hΦ _ _ _ _ _ _ h

end Rules

end Mapper

end ApiScaffold
