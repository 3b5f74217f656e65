import ApiScaffold.Proofs.Batch
import ApiScaffold.Proofs.Members
import ApiScaffold.Proofs.Places
import ApiScaffold.Proofs.Rules

set_option autoImplicit false

/-! # The types of bodies

The type of a body is a plain type, a name that a reference gives, or that of lists of them. It is
the type that a property of the same schema has (`mapBody_eq_mapProperty`) where all schemas on the
way are of kinds that bodies know (`Shared`). They do not know a single member that a schema stands
for, variants, and objects without properties (`stalls_differ`). -/

namespace ApiScaffold

namespace Mapper

variable {m : Mapper} {schema n b : Node} {name : String}

/-- A reference to a schema that becomes a class. -/
structure RefersToModel (m : Mapper) (n : Node) (pointer : String) (target : Node) : Prop where
  reference : n.pointer? = .ok (some pointer)
  found : m.resolver.find pointer = .ok (some target)
  other : Schema.isStringEnum target = .ok false
  model : Schema.isModel target = .ok true

/-- What a name in the type of a body is: that of a plain type, or one that a reference gives to
texts or to a class. -/
inductive BodyName (m : Mapper) (schema : Node) (name : String) : Prop where
  | plain (h : name ∈ plainTypes)
  | texts {n target : Node} {pointer : String} (hn : Relation.ReflTransGen (Part m) schema n)
      (h : RefersToTexts m n pointer target) (hname : name = Naming.enumName (Pointer.name pointer))
  | model {n target : Node} {pointer : String} (hn : Relation.ReflTransGen (Part m) schema n)
      (h : RefersToModel m n pointer target) (hpointer : Pointer.isComponent pointer = true)
      (hname : name = m.names.classOf (Pointer.name pointer))

theorem BodyName.head (hpart : Part m schema b) (h : BodyName m b name) :
    BodyName m schema name := by
  cases h with
  | plain h => exact .plain h
  | texts hn h hname => exact .texts (.head hpart hn) h hname
  | model hn h hpointer hname => exact .model (.head hpart hn) h hpointer hname

/-- The type of a body is that of a name, or of lists of it. -/
def BodyType (m : Mapper) (schema : Node) (type : TypeExpr) : Prop :=
  ∃ name, ListsOf name type ∧ BodyName m schema name

theorem bodyType_any : BodyType m schema .any := ⟨"any", .named, .plain (by decide)⟩

theorem simpleType_mem (name : String) : (simpleTypes.lookup name).getD "any" ∈ plainTypes := by
  cases h : simpleTypes.lookup name with
  | none => decide
  | some type =>
      have hmem := List.lookup_eq_some_iff.mp h
      obtain ⟨before, after, heq, -⟩ := hmem
      have hall : ∀ p ∈ simpleTypes, p.2 ∈ plainTypes := by decide
      exact hall (name, type) (by simp [heq])

theorem isObject_of_isStringEnum (h : Schema.isStringEnum n = .ok true) :
    n.isObject = .ok true := by
  obtain ⟨type, htype, h⟩ := bind_eq_ok.mp h
  obtain ⟨isObject, hobject, htype⟩ := bind_eq_ok.mp htype
  cases isObject with
  | true => exact hobject
  | false =>
      cases pure_eq_ok.mp htype
      cases pure_eq_ok.mp h

theorem bodyWithin_of_isAbsent {fuel : Nat} {following : List String} {type : TypeExpr}
    (habsent : schema.isAbsent = true) (h : m.bodyWithin fuel following schema = .ok type) :
    type = .any := by
  cases fuel with
  | zero => cases h
  | succ fuel =>
      obtain ⟨isObject, hobject, h⟩ := bind_eq_ok.mp h
      cases hobject.symm.trans (isObject_of_isAbsent habsent)
      exact (pure_eq_ok.mp h).symm

/-- What the type of a body is: `any`, a plain type, a name that a reference gives, or the type of
what the schema leads to or lists. -/
inductive BodyStep (m : Mapper) (descend : List String → Node → Except Fault TypeExpr)
    (schema : Node) (type : TypeExpr) : Prop where
  | any (h : type = .any)
  | anyList (h : type = .list .any)
  | simple {name : String} (h : type = .named ((simpleTypes.lookup name).getD "any"))
  | texts {target : Node} {pointer : String} (hrefers : RefersToTexts m schema pointer target)
      (h : type = .named (Naming.enumName (Pointer.name pointer)))
  | model {target : Node} {pointer : String} (hrefers : RefersToModel m schema pointer target)
      (hpointer : Pointer.isComponent pointer = true)
      (h : type = .named (m.names.classOf (Pointer.name pointer)))
  | target {target : Node} {following : List String} (hpart : Part m schema target)
      (h : descend following target = .ok type)
  | items {items : Node} {item : TypeExpr} {following : List String} (hpart : Part m schema items)
      (hitem : descend following items = .ok item) (h : type = .list item)

section Step

variable {fuel : Nat} {following : List String} {type : TypeExpr}

/-- What a body that refers to something has for its type. -/
theorem bodyWithin_reference {pointer : String} (hobject : schema.isObject = .ok true)
    (hpointer : schema.pointer? = .ok (some pointer))
    (h : m.bodyWithin (fuel + 1) following schema = .ok type) :
    BodyStep m (m.bodyWithin fuel) schema type := by
  obtain ⟨isObject, hobject', h⟩ := bind_eq_ok.mp h
  cases hobject.symm.trans hobject'
  obtain ⟨pointer?, hpointer', h⟩ := bind_eq_ok.mp h
  cases hpointer.symm.trans hpointer'
  obtain ⟨target?, htarget, h⟩ := bind_eq_ok.mp h
  cases target? with
  | none => exact .any (pure_eq_ok.mp h).symm
  | some target =>
      obtain ⟨isEnum, henum, h⟩ := bind_eq_ok.mp h
      cases isEnum with
      | true =>
          have hfind := find_of_locate htarget
            (isAbsent_of_isObject (isObject_of_isStringEnum henum))
          exact .texts ⟨hpointer, hfind, henum⟩ (pure_eq_ok.mp h).symm
      | false =>
          obtain ⟨isModel, hmodel, h⟩ := bind_eq_ok.mp h
          cases isModel with
          | true =>
              have hfind := find_of_locate htarget
                (isAbsent_of_isObject (isObject_of_isModel hmodel))
              rw [if_neg (by decide)] at h
              split at h
              · next hcomponent =>
                  exact .model ⟨hpointer, hfind, henum, hmodel⟩ hcomponent (pure_eq_ok.mp h).symm
              · exact .any (pure_eq_ok.mp h).symm
          | false =>
              rw [if_pos (by decide)] at h
              split at h
              · exact .any (pure_eq_ok.mp h).symm
              · cases habsent : target.isAbsent with
                -- `find` takes a null for nothing, so it is no part; its type is `any` all the same
                | true => exact .any (bodyWithin_of_isAbsent habsent h)
                | false =>
                    exact .target (.target hpointer (find_of_locate htarget habsent) hmodel) h

theorem bodyWithin_step (h : m.bodyWithin (fuel + 1) following schema = .ok type) :
    BodyStep m (m.bodyWithin fuel) schema type := by
  have hwhole := h
  obtain ⟨isObject, hobject, h⟩ := bind_eq_ok.mp h
  cases isObject with
  | false => exact .any (pure_eq_ok.mp h).symm
  | true =>
      obtain ⟨pointer?, hpointer, h⟩ := bind_eq_ok.mp h
      cases pointer? with
      | some pointer => exact bodyWithin_reference hobject hpointer hwhole
      | none =>
          obtain ⟨kind, hkind, h⟩ := bind_eq_ok.mp h
          split at h
          · obtain ⟨items, hitems, h⟩ := bind_eq_ok.mp h
            obtain ⟨isObject, hobject, h⟩ := bind_eq_ok.mp h
            cases isObject with
            | false => exact .anyList (pure_eq_ok.mp h).symm
            | true =>
                obtain ⟨isInline, hinline, h⟩ := bind_eq_ok.mp h
                cases isInline with
                | true => exact .anyList (pure_eq_ok.mp h).symm
                | false =>
                    obtain ⟨item, hitem, h⟩ := bind_eq_ok.mp h
                    exact .items (.items hitems) hitem (pure_eq_ok.mp h).symm
          · split at h
            · exact .simple (pure_eq_ok.mp h).symm
            · exact absurd h throw_ne_ok
            · exact absurd h throw_ne_ok
            · exact .any (pure_eq_ok.mp h).symm

theorem bodyWithin_type (h : m.bodyWithin fuel following schema = .ok type) :
    BodyType m schema type := by
  induction fuel generalizing following schema type with
  | zero => cases h
  | succ fuel ih =>
      cases bodyWithin_step h with
      | any htype => exact htype ▸ bodyType_any
      | anyList htype => exact htype ▸ ⟨"any", .list .named, .plain (by decide)⟩
      | simple htype => exact htype ▸ ⟨_, .named, .plain (simpleType_mem _)⟩
      | texts hrefers htype => exact htype ▸ ⟨_, .named, .texts .refl hrefers rfl⟩
      | model hrefers hpointer htype =>
          exact htype ▸ ⟨_, .named, .model .refl hrefers hpointer rfl⟩
      | target hpart htype =>
          obtain ⟨name, hlists, hname⟩ := ih htype
          exact ⟨name, hlists, hname.head hpart⟩
      | items hpart hitem htype =>
          obtain ⟨name, hlists, hname⟩ := ih hitem
          exact htype ▸ ⟨name, .list hlists, hname.head hpart⟩

end Step

/-! ## The same type as a property -/

section Agreement

variable {ctx : MappingContext} {s : MapperState} {fuel : Nat} {following : List String}

/-- The type that a step of mapping gives in a state, or its fault. -/
def typeOn (s : MapperState) (x : Mapping MappedType) : Except Fault TypeExpr :=
  (x.run.run s).1.map (·.type)

theorem typeOn_lift {e : Except Fault MappedType} {a : MappedType} (h : e = .ok a) :
    typeOn s (liftM e) = .ok a.type := by
  rw [h]
  rfl

theorem typeOn_lift_bind {α : Type} {e : Except Fault α} {f : α → Mapping MappedType} {a : α}
    (h : e = .ok a) : typeOn s (liftM e >>= f) = typeOn s (f a) := by
  rw [h]
  rfl

theorem typeOn_bind_pure {x : Mapping MappedType} {f : MappedType → MappedType}
    {g : TypeExpr → TypeExpr} (h : ∀ a, (f a).type = g a.type) :
    typeOn s (x >>= fun a => pure (f a)) = (typeOn s x).map g := by
  unfold typeOn
  rw [ExceptT.run_bind, StateT.run_bind]
  rcases x.run.run s with ⟨result, t⟩
  cases result with
  | error fault => rfl
  | ok a => exact congrArg Except.ok (h a)

/-- The schema that the type of a body hangs on besides the schema itself: that of the items of a
list, or what a reference leads to if it is neither texts nor a model. -/
inductive Reads (m : Mapper) : Node → Node → Prop where
  | items {a b : Node} (hplain : a.pointer? = .ok none) (hlist : IsList a b) : Reads m a b
  | target {a b : Node} {pointer : String} (hpointer : a.pointer? = .ok (some pointer))
      (hfind : m.resolver.find pointer = .ok (some b))
      (htexts : Schema.isStringEnum b = .ok false) (hmodel : Schema.isModel b = .ok false) :
      Reads m a b

/-- A schema in place that neither has a single member it stands for nor variants. -/
structure InPlace (n : Node) : Prop where
  object : n.isObject = .ok true
  plain : n.pointer? = .ok none
  member : onlyMember? n = .ok none
  variants : Mapper.variants n = .ok []

/-- A schema of a simple or an unknown type, whose checks can be read. -/
structure IsSimple (ctx : MappingContext) (n : Node) (type : Json) : Prop where
  kind : Schema.typeOf n = .ok type
  noProperties : Schema.isInlineObject n = .ok false
  noArray : type ≠ .str "array"
  noObject : type ≠ .str "object"
  noItems : ∀ items, type ≠ .arr items
  noFields : ∀ fields, type ≠ .obj fields
  text : type = .str "string" → ∃ a, mapString n ctx = .ok a
  number : type ∈ [Json.str "number", .str "integer"] →
    ∀ isInteger, ∃ a, mapNumber n isInteger = .ok a

/-- A schema of a kind that bodies know as properties do: a reference to texts, to a named model that
the property may use, or to something else that is no model; a list whose items are no object in
place; or a simple schema. -/
inductive Shared (m : Mapper) (ctx : MappingContext) (n : Node) : Prop where
  | other (h : n.isObject = .ok false)
  | texts {pointer : String} {target : Node} {values : List Excerpt}
      (hrefers : RefersToTexts m n pointer target) (hmodel : Schema.isModel target = .ok false)
      (hvalues : EnumCollection.listed target = .ok values)
  | model {pointer : String} {target : Node} (hrefers : RefersToModel m n pointer target)
      (hcomponent : Pointer.isComponent pointer = true)
      (hfree : isBlocked ctx (m.names.classOf (Pointer.name pointer)) = false)
  | target {pointer : String} {target : Node} (hpointer : n.pointer? = .ok (some pointer))
      (hfind : m.resolver.find pointer = .ok (some target))
      (htexts : Schema.isStringEnum target = .ok false)
      (hmodel : Schema.isModel target = .ok false)
  | list {items : Node} {isObject : Bool} (hplace : InPlace n) (hlist : IsList n items)
      (hobject : items.isObject = .ok isObject) (hinline : Schema.isInlineObject items = .ok false)
  | simple {type : Json} (hplace : InPlace n) (hsimple : IsSimple ctx n type)

/-- What a body that refers to a schema has for its type. -/
theorem bodyWithin_found {pointer : String} {target : Node} {isEnum isModel : Bool}
    (h : n.pointer? = .ok (some pointer)) (hfind : m.resolver.find pointer = .ok (some target))
    (henum : Schema.isStringEnum target = .ok isEnum)
    (hmodel : Schema.isModel target = .ok isModel) :
    m.bodyWithin (fuel + 1) following n =
      if isEnum then .ok (.named (Naming.enumName (Pointer.name pointer)))
      else if isModel then
        if Pointer.isComponent pointer then .ok (.named (m.names.classOf (Pointer.name pointer)))
        else .ok .any
      else if following.contains pointer then .ok .any
      else m.bodyWithin fuel (pointer :: following) target := by
  simp only [bodyWithin, ok_bind (isObject_of_pointer? h), ok_bind h,
    ok_bind (find_eq_some hfind).1, ok_bind henum, ok_bind hmodel, Bool.not_true,
    Bool.false_eq_true, if_false]
  cases isEnum
  · cases isModel
    · rfl
    · rfl
  · rfl

theorem typeOn_reference {pointer : String} (h : n.pointer? = .ok (some pointer)) :
    typeOn s (m.mapWithin ctx (fuel + 1) following n) =
      typeOn s (m.mapReference (m.mapWithin ctx fuel) following pointer ctx) := by
  simp only [mapWithin, typeOn_lift_bind (isObject_of_pointer? h), typeOn_lift_bind h,
    Bool.not_true, Bool.false_eq_true, if_false]

/-- A property that refers to no model has the type of what the reference stands for. -/
theorem typeOn_alias {pointer : String} {target : Node} (h : n.pointer? = .ok (some pointer))
    (hfind : m.resolver.find pointer = .ok (some target))
    (hmodel : Schema.isModel target = .ok false) :
    typeOn s (m.mapWithin ctx (fuel + 1) following n) =
      typeOn s (mapAlias (m.mapWithin ctx fuel) following pointer target) := by
  rw [typeOn_reference h, mapReference, typeOn_lift_bind hfind]
  simp only [typeOn_lift_bind hmodel, Bool.not_false, if_true]

theorem typeOn_model {pointer : String} {target : Node} (hrefers : RefersToModel m n pointer target)
    (hcomponent : Pointer.isComponent pointer = true)
    (hfree : isBlocked ctx (m.names.classOf (Pointer.name pointer)) = false) :
    typeOn s (m.mapWithin ctx (fuel + 1) following n) =
      .ok (.named (m.names.classOf (Pointer.name pointer))) := by
  rw [typeOn_reference hrefers.reference, mapReference, typeOn_lift_bind hrefers.found]
  simp only [typeOn_lift_bind hrefers.model, Bool.not_true, Bool.false_eq_true, if_false,
    hcomponent, hfree, if_true]
  rfl

theorem typeOn_list {items : Node} {isObject : Bool} (h : InPlace n) (hlist : IsList n items)
    (hobject : items.isObject = .ok isObject) (hinline : Schema.isInlineObject items = .ok false) :
    typeOn s (m.mapWithin ctx (fuel + 1) following n) =
      if isObject then (typeOn s (m.mapWithin ctx fuel following items)).map .list
      else .ok (.list .any) := by
  simp only [mapWithin, mapArray, typeOn_lift_bind h.object, typeOn_lift_bind h.plain,
    typeOn_lift_bind h.member, typeOn_lift_bind h.variants, typeOn_lift_bind hlist.type,
    typeOn_lift_bind hlist.items, typeOn_lift_bind hobject, Bool.not_true, Bool.false_eq_true,
    if_false, if_true]
  cases isObject with
  | false => rfl
  | true =>
      simp only [Bool.not_true, Bool.false_eq_true, if_false, if_true, typeOn_lift_bind hinline]
      exact typeOn_bind_pure fun _ => rfl

/-- The type that bodies give to a simple schema. -/
def simpleType : Json → TypeExpr
  | .str name => .named ((simpleTypes.lookup name).getD "any")
  | _ => .any

theorem simpleType_of_unknown {type : Json} (hstring : type ≠ .str "string")
    (hnumber : type ≠ .str "number") (hinteger : type ≠ .str "integer")
    (hboolean : type ≠ .str "boolean") : simpleType type = .any := by
  cases type with
  | str name =>
      have hnone : simpleTypes.lookup name = none := by
        simp only [ne_eq, Json.str.injEq] at hstring hnumber hinteger hboolean
        simp [List.lookup_eq_none_iff, simpleTypes, hstring, hnumber, hinteger, hboolean]
      simp only [simpleType, hnone]
      rfl
  | _ => rfl

theorem typeOn_simple {type : Json} (h : InPlace n) (hsimple : IsSimple ctx n type) :
    typeOn s (m.mapWithin ctx (fuel + 1) following n) = .ok (simpleType type) := by
  simp only [mapWithin, typeOn_lift_bind h.object, typeOn_lift_bind h.plain,
    typeOn_lift_bind h.member, typeOn_lift_bind h.variants, typeOn_lift_bind hsimple.kind,
    typeOn_lift_bind hsimple.noProperties, if_neg hsimple.noArray, Bool.not_true,
    Bool.false_eq_true, if_false]
  split
  · obtain ⟨a, ha⟩ := hsimple.text rfl
    rw [typeOn_lift ha, (plainAs_mapString h.plain hsimple.kind ha).type]
    rfl
  · obtain ⟨a, ha⟩ := hsimple.number (by simp) false
    rw [typeOn_lift ha, (plainAs_mapNumber ha : PlainAs ctx n "number" a).type]
    rfl
  · obtain ⟨a, ha⟩ := hsimple.number (by simp) true
    rw [typeOn_lift ha, (plainAs_mapNumber ha : PlainAs ctx n "number" a).type]
    rfl
  · rfl
  · exact absurd rfl hsimple.noObject
  · next hstring hnumber hinteger hboolean _ =>
      rw [simpleType_of_unknown hstring hnumber hinteger hboolean]
      rfl

/-- A schema that bodies know has the same type in a body and in a property, if what lies behind it
has. -/
theorem bodyWithin_eq_typeOn (h : Shared m ctx n)
    (hdown : ∀ b, Reads m n b → ∀ following s,
      m.bodyWithin fuel following b = typeOn s (m.mapWithin ctx fuel following b)) :
    m.bodyWithin (fuel + 1) following n =
      typeOn s (m.mapWithin ctx (fuel + 1) following n) := by
  cases h with
  | other h =>
      simp only [bodyWithin, mapWithin, ok_bind h, typeOn_lift_bind h, Bool.not_false, if_true]
      rfl
  | @texts pointer target values hrefers hmodel hvalues =>
      have hlisted : (do (← (← target.get "enum").entries).mapM Node.excerpt) = .ok values := hvalues
      rw [bodyWithin_found hrefers.reference hrefers.found hrefers.lists hmodel,
        typeOn_alias hrefers.reference hrefers.found hmodel, mapAlias,
        typeOn_lift_bind hrefers.lists]
      simp only [if_true, typeOn_lift_bind hlisted]
      rfl
  | @model pointer target hrefers hcomponent hfree =>
      rw [bodyWithin_found hrefers.reference hrefers.found hrefers.other hrefers.model,
        typeOn_model hrefers hcomponent hfree]
      simp only [Bool.false_eq_true, if_false, if_true, hcomponent]
  | @target pointer target hpointer hfind htexts hmodel =>
      rw [bodyWithin_found hpointer hfind htexts hmodel, typeOn_alias hpointer hfind hmodel,
        mapAlias, typeOn_lift_bind htexts]
      simp only [Bool.false_eq_true, if_false]
      split
      · rfl
      · exact hdown target (.target hpointer hfind htexts hmodel) _ _
  | @list items isObject hplace hlist hobject hinline =>
      rw [typeOn_list hplace hlist hobject hinline]
      simp only [bodyWithin, ok_bind hplace.object, ok_bind hplace.plain, ok_bind hlist.type,
        ok_bind hlist.items, ok_bind hobject, ok_bind hinline, Bool.not_true, Bool.false_eq_true,
        if_false, if_true]
      cases isObject with
      | false => rfl
      | true =>
          simp only [Bool.not_true, Bool.false_eq_true, if_false, if_true]
          rw [hdown items (.items hplace.plain hlist) following s]
          cases typeOn s (m.mapWithin ctx fuel following items) with
          | error fault => rfl
          | ok item => rfl
  | @simple type hplace hsimple =>
      rw [typeOn_simple hplace hsimple]
      simp only [bodyWithin, ok_bind hplace.object, ok_bind hplace.plain, ok_bind hsimple.kind,
        if_neg hsimple.noArray, Bool.not_true, Bool.false_eq_true, if_false]
      cases type with
      | arr items => exact absurd rfl (hsimple.noItems items)
      | obj fields => exact absurd rfl (hsimple.noFields fields)
      | _ => rfl

/-- A schema has the same type in a body and in a property, whatever was registered before, if all
schemas that the type of the body hangs on are of kinds that bodies know. -/
theorem mapBody_eq_mapProperty
    (h : ∀ b, Relation.ReflTransGen (Reads m) schema b → Shared m ctx b) :
    m.mapBody schema = typeOn s (m.mapProperty schema ctx) := by
  have hdown : ∀ fuel n, Relation.ReflTransGen (Reads m) schema n → ∀ following s,
      m.bodyWithin fuel following n = typeOn s (m.mapWithin ctx fuel following n) := by
    intro fuel
    induction fuel with
    | zero => exact fun _ _ _ _ => rfl
    | succ fuel ih =>
        intro n hn following s
        exact bodyWithin_eq_typeOn (h n hn) fun b hb => ih b (hn.tail hb)
  exact hdown _ schema .refl [] s

/-- The type of a body hangs on one schema at most besides the schema itself. -/
theorem Reads.unique {c : Node} (hb : Reads m n b) (hc : Reads m n c) : b = c := by
  cases hb with
  | items hplain hlist =>
      cases hc with
      | items _ hlist' => exact Except.ok.inj (hlist.items.symm.trans hlist'.items)
      | target hpointer => cases hplain.symm.trans hpointer
  | target hpointer hfind =>
      cases hc with
      | items hplain => cases hplain.symm.trans hpointer
      | target hpointer' hfind' =>
          cases hpointer.symm.trans hpointer'
          exact Option.some.inj (Except.ok.inj (hfind.symm.trans hfind'))

/-- Schemas on the way are of kinds that bodies know if the first one is and those behind it are. -/
theorem shared_head (h : Shared m ctx n) (hb : Reads m n b)
    (hrest : ∀ c, Relation.ReflTransGen (Reads m) b c → Shared m ctx c) :
    ∀ c, Relation.ReflTransGen (Reads m) n c → Shared m ctx c := by
  intro c hc
  rcases hc.cases_head with rfl | ⟨b', hb', hc⟩
  · exact h
  · obtain rfl := hb.unique hb'
    exact hrest c hc

/-- Behind a reference to a model there are no schemas on the way. -/
theorem shared_model {pointer : String} {target : Node} (hrefers : RefersToModel m n pointer target)
    (hcomponent : Pointer.isComponent pointer = true)
    (hfree : isBlocked ctx (m.names.classOf (Pointer.name pointer)) = false) :
    ∀ c, Relation.ReflTransGen (Reads m) n c → Shared m ctx c := by
  intro c hc
  rcases hc.cases_head with rfl | ⟨b, hb, -⟩
  · exact .model hrefers hcomponent hfree
  · cases hb with
    | items hplain => cases hplain.symm.trans hrefers.reference
    | target hpointer hfind _ hmodel =>
        cases hrefers.reference.symm.trans hpointer
        cases hrefers.found.symm.trans hfind
        cases hrefers.model.symm.trans hmodel

end Agreement

open ModelCompiler (referenceTo)

/-- A document of a model and of schemas that lead to it: through a list, a single member, variants
and the values of an object. -/
def stalls : Document where
  tag := 0
  root := .obj [("components", .obj [("schemas", .obj [
    ("Stall", .obj [("properties", .obj [("row", .obj [("type", .str "integer")])])]),
    ("Row", .obj [("type", .str "array"), ("items", referenceTo "Stall")]),
    ("Hall", .obj [("type", .str "array"), ("items", referenceTo "Row")]),
    ("Only", .obj [("allOf", .arr [referenceTo "Stall"])]),
    ("Either", .obj [("oneOf", .arr [referenceTo "Stall", .obj [("type", .str "string")]])]),
    ("Named", .obj [("type", .str "object"), ("additionalProperties", referenceTo "Stall")])])])]
  linked := false

/-- The nodes of `stalls`, by their trails. -/
def stallsNode (trail : List Step) : Node :=
  ⟨stalls, trail, (stalls.valueAt? trail).getD .null⟩

/-- Named schemas of `stalls`. -/
def stallsSchema (name : String) : Node :=
  stallsNode [.key name, .key "schemas", .key "components"]

/-- The mapper of `stalls`. -/
def stallsMapper : Mapper where
  components := stallsNode [.key "schemas", .key "components"]
  resolver := ⟨stalls, none⟩
  names := ⟨["Stall", "Row", "Hall", "Only", "Either", "Named"].map fun s => (s, s ++ "Dto")⟩

theorem ofDocument_stalls : Mapper.ofDocument stalls none = .ok stallsMapper :=
  eq_ok_of_toOption (by decide)

/-- A property of orders. -/
def orderValue : MappingContext := { model := "OrderDto", base := "Order", property := "value" }

/-- The items of a list among the named schemas of `stalls`. -/
def stallsItems (name : String) : Node :=
  stallsNode [.key "items", .key name, .key "schemas", .key "components"]

theorem stalls_list (name : String) (h : name ∈ ["Hall", "Row"]) :
    InPlace (stallsSchema name) ∧ IsList (stallsSchema name) (stallsItems name) ∧
      (stallsItems name).isObject = .ok true ∧
      Schema.isInlineObject (stallsItems name) = .ok false := by
  refine ⟨⟨eq_ok_of_toOption ?_, eq_ok_of_toOption ?_, eq_ok_of_toOption ?_, eq_ok_of_toOption ?_⟩,
    ⟨eq_ok_of_toOption ?_, eq_ok_of_toOption ?_⟩, eq_ok_of_toOption ?_, eq_ok_of_toOption ?_⟩
  all_goals
    revert name
    decide

/-- Lists of references to `Stall` and to lists of them have one type in bodies and in properties. -/
theorem stalls_agree :
    Mapper.ofDocument stalls none = .ok stallsMapper ∧
      (∀ b, Relation.ReflTransGen (Reads stallsMapper) (stallsSchema "Hall") b →
        Shared stallsMapper orderValue b) ∧
      stallsMapper.mapBody (stallsSchema "Hall") =
        typeOn {} (stallsMapper.mapProperty (stallsSchema "Hall") orderValue) ∧
      (stallsMapper.mapBody (stallsSchema "Hall")).map TypeExpr.text = .ok "StallDto[][]" := by
  obtain ⟨hhall, hhallItems, hhallObject, hhallInline⟩ := stalls_list "Hall" (by simp)
  obtain ⟨hrow, hrowItems, hrowObject, hrowInline⟩ := stalls_list "Row" (by simp)
  have hpointer : (stallsItems "Hall").pointer? = .ok (some (Pointer.toSchema "Row")) :=
    eq_ok_of_toOption (by decide)
  have hfind : stallsMapper.resolver.find (Pointer.toSchema "Row") =
      .ok (some (stallsSchema "Row")) := eq_ok_of_toOption (by decide)
  have htexts : Schema.isStringEnum (stallsSchema "Row") = .ok false :=
    eq_ok_of_toOption (by decide)
  have hmodel : Schema.isModel (stallsSchema "Row") = .ok false :=
    eq_ok_of_toOption (by decide)
  have hrefers : RefersToModel stallsMapper (stallsItems "Row") (Pointer.toSchema "Stall")
      (stallsSchema "Stall") :=
    ⟨eq_ok_of_toOption (by decide), eq_ok_of_toOption (by decide),
      eq_ok_of_toOption (by decide), eq_ok_of_toOption (by decide)⟩
  have hshared : ∀ b, Relation.ReflTransGen (Reads stallsMapper) (stallsSchema "Hall") b →
      Shared stallsMapper orderValue b := by
    refine shared_head (.list hhall hhallItems hhallObject hhallInline) (.items hhall.plain hhallItems) ?_
    refine shared_head (.target hpointer hfind htexts hmodel)
      (.target hpointer hfind htexts hmodel) ?_
    refine shared_head (.list hrow hrowItems hrowObject hrowInline) (.items hrow.plain hrowItems) ?_
    exact shared_model hrefers (by decide) (by decide)
  exact ⟨ofDocument_stalls, hshared, mapBody_eq_mapProperty hshared,
    eq_ok_of_toOption (by decide +kernel)⟩

/-- In `stalls` single members, variants and the values of objects have types in properties, and none
in bodies. -/
theorem stalls_differ :
    Mapper.ofDocument stalls none = .ok stallsMapper ∧
      (["Only", "Either", "Named"].map fun name =>
        (typeOn {} (stallsMapper.mapProperty (stallsSchema name) orderValue)).map
          TypeExpr.text) =
        [.ok "StallDto", .ok "StallDto | string", .ok "Record<string, StallDto>"] ∧
      (["Only", "Either", "Named"].map fun name =>
        (stallsMapper.mapBody (stallsSchema name)).map TypeExpr.text) =
        [.ok "any", .ok "any", .ok "any"] := by
  refine ⟨ofDocument_stalls, ?_, ?_⟩
  · simp only [List.map_cons, List.map_nil, List.cons.injEq, and_true]
    exact ⟨eq_ok_of_toOption (by decide +kernel), eq_ok_of_toOption (by decide +kernel),
      eq_ok_of_toOption (by decide +kernel)⟩
  · simp only [List.map_cons, List.map_nil, List.cons.injEq, and_true]
    exact ⟨eq_ok_of_toOption (by decide), eq_ok_of_toOption (by decide),
      eq_ok_of_toOption (by decide)⟩

end Mapper

end ApiScaffold
