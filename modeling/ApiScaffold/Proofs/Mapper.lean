import ApiScaffold.Proofs.Mapping
import ApiScaffold.Proofs.Outcome

set_option autoImplicit false

/-! # The steps of mapping a property

Each part of mapping takes only steps, and takes them again with some models blocked. The type of a
property stays the same then, unless it mentions a blocked model: a blocked class becomes `any`, and
what is made of types is made of them in the same way both times. -/

namespace ApiScaffold.Mapper

variable {m : Mapper} {ctx : MappingContext} {Q : Node → Prop} {blocked : List String}

/-! ## Blocked models -/

theorem isBlocked_free {name : String} (hfree : ctx.blocked = []) :
    isBlocked ctx name = true ↔ name = ctx.model := by
  simp [isBlocked, hfree]

theorem isBlocked_with {name : String} :
    isBlocked { ctx with blocked } name = true ↔ name = ctx.model ∨ name ∈ blocked := by
  simp [isBlocked]

/-- A type that mentions no blocked name is the same both times. -/
def SameType (blocked : List String) (a b : MappedType) : Prop :=
  (∀ name ∈ blocked, ¬ Mentions a.type.text name) → b = a

theorem SameType.refl (a : MappedType) : SameType blocked a a := fun _ => rfl

/-- Mapping a schema replays with some models blocked. -/
abbrev ReplaysType (m : Mapper) (model : String) (Q : Node → Prop) (blocked : List String)
    (x y : Mapping MappedType) : Prop :=
  Replays m model Q blocked x y (SameType blocked)

/-! ## Using a class -/

/-- Claiming a name and using it, unless it is blocked. -/
theorem replays_claim_use {α : Type} {R : α → α → Prop} {base source : String} {schema : Node}
    {no : α} {yes : String → α} (hfree : ctx.blocked = []) (hthere : schema.isAbsent = false)
    (hstep : ∀ s name registry, s.registry.claim base schema source = .ok (name, registry) →
      MapStep m ctx.model Q s { s with registry })
    (hno : R no no) (hyes : ∀ name, R (yes name) (yes name))
    (hblocked : ∀ name ∈ blocked, R (yes name) no) :
    Replays m ctx.model Q blocked
      (do
        let name ← claim base schema source
        if isBlocked ctx name then return no
        depend name
        return yes name)
      (do
        let name ← claim base schema source
        if isBlocked { ctx with blocked } name then return no
        depend name
        return yes name) R := by
  intro s a t hrun
  obtain ⟨name, u, hclaim, hrest⟩ := yields_bind.mp hrun
  obtain ⟨found, hfound, rfl⟩ := yields_claim.mp hclaim
  have hclaimed : MapSteps m ctx.model Q s { s with registry := found } :=
    .single (hstep s name found hfound)
  have hagain : ∀ registry, Registry.Extends found registry →
      Yields (claim base schema source) ⟨registry, without blocked s.dependencies⟩ name
        ⟨registry, without blocked s.dependencies⟩ := by
    intro registry hlater
    exact yields_claim.mpr ⟨registry, Registry.claim_again hthere hfound hlater, rfl⟩
  by_cases hself : isBlocked ctx name = true
  · rw [if_pos hself] at hrest
    obtain ⟨rfl, rfl⟩ := yields_pure.mp hrest
    refine ⟨hclaimed, fun registry hlater => ⟨_, ?_, hno⟩⟩
    refine yields_bind.mpr ⟨name, _, hagain registry hlater, ?_⟩
    rw [if_pos (isBlocked_with.mpr (Or.inl ((isBlocked_free hfree).mp hself)))]
    exact yields_pure.mpr ⟨rfl, rfl⟩
  · rw [if_neg hself] at hrest
    obtain ⟨_, v, hdepend, hrest⟩ := yields_bind.mp hrest
    obtain rfl := yields_depend.mp hdepend
    obtain ⟨rfl, rfl⟩ := yields_pure.mp hrest
    have hother : name ≠ ctx.model := fun h => hself ((isBlocked_free hfree).mpr h)
    refine ⟨hclaimed.tail (.use _ (Registry.mem_of_claim hfound) hother), ?_⟩
    intro registry hlater
    by_cases hname : name ∈ blocked
    · refine ⟨no, ?_, hblocked name hname⟩
      refine yields_bind.mpr ⟨name, _, hagain registry hlater, ?_⟩
      rw [if_pos (isBlocked_with.mpr (Or.inr hname))]
      exact yields_pure.mpr ⟨rfl, by rw [without_addNew_of_mem hname]⟩
    · refine ⟨yes name, ?_, hyes name⟩
      refine yields_bind.mpr ⟨name, _, hagain registry hlater, ?_⟩
      rw [if_neg fun h => (isBlocked_with.mp h).elim hother hname]
      refine yields_bind.mpr ⟨(), _, yields_depend.mpr rfl, yields_pure.mpr ⟨rfl, ?_⟩⟩
      rw [without_addNew_of_notMem hname]

theorem sameType_ofClass {name : String} (h : name ∈ blocked) :
    SameType blocked (.ofClass name) .any := by
  intro hnone
  exact absurd (mentions_self name) (hnone name h)

/-- A class that the second run may not use is `any` there. -/
theorem replays_unless {name : String} {x y : Mapping MappedType} (hfree : ctx.blocked = [])
    (hopen : name ≠ ctx.model → name ∉ blocked → ReplaysType m ctx.model Q blocked x y)
    (hclosed : name ≠ ctx.model → name ∈ blocked →
      ReplaysType m ctx.model Q blocked x (pure .any)) :
    ReplaysType m ctx.model Q blocked (if isBlocked ctx name then pure .any else x)
      (if isBlocked { ctx with blocked } name then pure .any else y) := by
  by_cases hself : name = ctx.model
  · rw [if_pos ((isBlocked_free hfree).mpr hself), if_pos (isBlocked_with.mpr (Or.inl hself))]
    exact Replays.pure (SameType.refl _)
  · rw [if_neg fun h => hself ((isBlocked_free hfree).mp h)]
    by_cases hmem : name ∈ blocked
    · rw [if_pos (isBlocked_with.mpr (Or.inr hmem))]
      exact hclosed hself hmem
    · rw [if_neg fun h => (isBlocked_with.mp h).elim hself hmem]
      exact hopen hself hmem

/-- What registering a named model and using it does. -/
theorem yields_register_use {e : Entry} {a : MappedType} {s t : MapperState} :
    Yields (do register e; useClass e.name) s a t ↔ a = .ofClass e.name ∧
      t = ⟨s.registry.register e, addNew s.dependencies e.name⟩ := by
  simp only [useClass, yields_bind, yields_register, yields_depend, yields_pure]
  constructor
  · rintro ⟨-, u, rfl, -, v, rfl, rfl, rfl⟩
    exact ⟨rfl, rfl⟩
  · rintro ⟨rfl, rfl⟩
    exact ⟨(), _, rfl, (), _, rfl, rfl, rfl⟩

/-- The steps of registering a named model and using it. -/
theorem steps_register_use {e : Entry} (he : NamedEntry m Q e) (hother : e.name ≠ ctx.model)
    (s : MapperState) :
    MapSteps m ctx.model Q s ⟨s.registry.register e, addNew s.dependencies e.name⟩ := by
  have hregistered : e.name ∈ (s.registry.register e).names :=
    Registry.mem_names_register.mpr (Or.inr rfl)
  exact (Relation.ReflTransGen.single (.register s e he)).tail (.use _ hregistered hother)

theorem register_use_replays {e : Entry} (he : NamedEntry m Q e) (hother : e.name ≠ ctx.model)
    (hopen : e.name ∉ blocked) :
    ReplaysType m ctx.model Q blocked (do register e; useClass e.name)
      (do register e; useClass e.name) := by
  intro s a t hrun
  obtain ⟨rfl, rfl⟩ := yields_register_use.mp hrun
  refine ⟨steps_register_use he hother s, fun registry hlater => ?_⟩
  refine ⟨.ofClass e.name, yields_register_use.mpr ⟨rfl, ?_⟩, SameType.refl _⟩
  rw [without_addNew_of_notMem hopen, hlater.register]

theorem register_use_closed {e : Entry} (he : NamedEntry m Q e) (hother : e.name ≠ ctx.model)
    (hclosed : e.name ∈ blocked) :
    ReplaysType m ctx.model Q blocked (do register e; useClass e.name) (pure .any) := by
  intro s a t hrun
  obtain ⟨rfl, rfl⟩ := yields_register_use.mp hrun
  refine ⟨steps_register_use he hother s, fun registry hlater => ?_⟩
  refine ⟨.any, yields_pure.mpr ⟨rfl, ?_⟩, sameType_ofClass hclosed⟩
  rw [without_addNew_of_mem hclosed]

/-! ## Models in place -/

theorem synthesize_replays {schema : Node} {suffix : String} (hfree : ctx.blocked = [])
    (hQ : Q schema) (hobject : schema.isObject = .ok true) :
    Replays m ctx.model Q blocked (synthesize schema ctx suffix)
      (synthesize schema { ctx with blocked } suffix)
      (fun a b => b = a ∨ ∃ name ∈ blocked, a = some name ∧ b = none) := by
  refine replays_claim_use hfree (isAbsent_of_isObject hobject) ?_ (Or.inl rfl)
    (fun _ => Or.inl rfl) (fun name hname => Or.inr ⟨name, hname, rfl, rfl⟩)
  intro s name registry hclaim
  exact .inPlace s hQ hobject hclaim

theorem mem_of_firstMatch {schema : Node} {names : List Json} {found : String}
    {fields : List (String × Node)} (h : firstMatch schema names fields = .ok (some found)) :
    found ∈ fields.map (·.1) := by
  induction fields with
  | nil => simp [firstMatch] at h
  | cons field fields ih =>
      obtain ⟨name, component⟩ := field
      have hmore : firstMatch schema names fields = .ok (some found) →
          found ∈ ((name, component) :: fields).map (·.1) :=
        fun h => List.mem_cons_of_mem _ (ih h)
      obtain ⟨isObject, -, h⟩ := bind_eq_ok.mp h
      split at h
      · exact hmore h
      · obtain ⟨properties, -, h⟩ := bind_eq_ok.mp h
        obtain ⟨truthy, -, h⟩ := bind_eq_ok.mp h
        have hlast : ∀ members : List Json,
            (if !members.isEmpty && sameMembers members names then pure (some name)
              else firstMatch schema names fields) = .ok (some found) →
            found ∈ ((name, component) :: fields).map (·.1) := by
          intro members h
          split at h
          · cases pure_eq_ok.mp h
            exact List.mem_cons_self
          · exact hmore h
        dsimp only at h
        split at h
        · obtain ⟨members, -, h⟩ := bind_eq_ok.mp h
          exact hlast members h
        · obtain ⟨members, -, h⟩ := bind_eq_ok.mp h
          exact hlast members h

theorem mem_of_structuralMatch {schema : Node} {found : String}
    (h : m.structuralMatch schema = .ok (some found)) :
    ∃ fields, m.components.fields = .ok fields ∧ found ∈ fields.map (·.1) := by
  obtain ⟨properties, -, h⟩ := bind_eq_ok.mp h
  obtain ⟨truthy, -, h⟩ := bind_eq_ok.mp h
  have hlast : ∀ names : List Json,
      (if names.isEmpty then pure none else do
        firstMatch schema names (← m.components.fields)) = Except.ok (some found) →
      ∃ fields, m.components.fields = .ok fields ∧ found ∈ fields.map (·.1) := by
    intro names h
    split at h
    · cases pure_eq_ok.mp h
    · obtain ⟨fields, hfields, h⟩ := bind_eq_ok.mp h
      exact ⟨fields, hfields, mem_of_firstMatch h⟩
  dsimp only at h
  split at h
  · obtain ⟨names, -, h⟩ := bind_eq_ok.mp h
    exact hlast names h
  · obtain ⟨names, -, h⟩ := bind_eq_ok.mp h
    exact hlast names h

theorem mapInlineObject_replays {schema : Node} (hfree : ctx.blocked = []) (hQ : Q schema)
    (hobject : schema.isObject = .ok true) :
    ReplaysType m ctx.model Q blocked (m.mapInlineObject schema ctx)
      (m.mapInlineObject schema { ctx with blocked }) := by
  refine Replays.bind_lift fun found hfound => ?_
  cases found with
  | some component =>
      have hname : NamedBy m Q component := Or.inl (mem_of_structuralMatch hfound)
      have hentry : ∀ found, m.components.get component = .ok found →
          NamedEntry m Q
            { name := m.names.classOf component
              schema := if found.isAbsent then none else some found
              pointer := some (Pointer.toSchema component) } := by
        intro found hget
        refine ⟨rfl, ⟨component, rfl, hname⟩, fun n hn => Or.inl ⟨component, ?_⟩⟩
        dsimp only at hn
        split at hn
        · cases hn
        · rw [← Option.some.inj hn]
          exact hget
      refine replays_unless hfree ?_ ?_
      · intro hother hopen
        refine Replays.bind_lift fun found hget => ?_
        exact register_use_replays (hentry found hget) hother hopen
      · intro hother hclosed
        refine Replays.lift_bind fun found hget => ?_
        exact register_use_closed (hentry found hget) hother hclosed
  | none =>
      refine (synthesize_replays hfree hQ hobject).bind ?_
      rintro a b (rfl | ⟨name, hname, rfl, rfl⟩)
      · cases b with
        | some name => exact Replays.pure (SameType.refl _)
        | none => exact Replays.pure (SameType.refl _)
      · exact Replays.pure (sameType_ofClass hname)

/-! ## Compound types -/

section Compound

variable {descend descend' : Descent} {following : List String}

/-- The way down replays from every schema in reach. -/
def ReplaysDown (m : Mapper) (model : String) (Q : Node → Prop) (blocked : List String)
    (descend descend' : Descent) : Prop :=
  ∀ following schema, Q schema →
    ReplaysType m model Q blocked (descend following schema) (descend' following schema)

theorem mapAlias_replays {pointer : String} {target : Node}
    (hdown : ReplaysDown m ctx.model Q blocked descend descend') (hQ : Q target) :
    ReplaysType m ctx.model Q blocked (mapAlias descend following pointer target)
      (mapAlias descend' following pointer target) := by
  refine Replays.bind_lift fun isEnum _ => ?_
  refine Replays.ite (fun _ => ?_) (fun _ => ?_)
  · exact Replays.bind_lift fun values _ => Replays.pure (SameType.refl _)
  · refine Replays.ite (fun _ => Replays.pure (SameType.refl _)) (fun _ => ?_)
    exact hdown _ _ hQ

/-- The class that a reference stands for, in the part of `mapReference` behind the aliases. -/
def mapClass (m : Mapper) (target : Option Node) (pointer : String) (ctx : MappingContext) :
    Mapping MappedType :=
  if Pointer.isComponent pointer then
    if isBlocked ctx (m.names.classOf (Pointer.name pointer)) then return .any else do
      register
        { name := m.names.classOf (Pointer.name pointer), schema := target,
          pointer := some pointer }
      useClass (m.names.classOf (Pointer.name pointer))
  else
    match target with
    | none => return .any
    | some schema => do
      let name ← claim (Naming.capitalize (Pointer.name pointer)) schema "reference"
      if isBlocked ctx name then return .any
      useClass name

theorem mapReference_replays {schema : Node} {pointer : String} (hfree : ctx.blocked = [])
    (hclosed : ∀ a b, Q a → Part m a b → Q b)
    (hdown : ReplaysDown m ctx.model Q blocked descend descend') (hQ : Q schema)
    (hpointer : schema.pointer? = .ok (some pointer)) :
    ReplaysType m ctx.model Q blocked (m.mapReference descend following pointer ctx)
      (m.mapReference descend' following pointer { ctx with blocked }) := by
  refine Replays.bind_lift fun target htarget => ?_
  have hname : NamedBy m Q (Pointer.name pointer) :=
    Or.inr ⟨schema, pointer, hQ, hpointer, rfl⟩
  have hentry : NamedEntry m Q
      { name := m.names.classOf (Pointer.name pointer)
        schema := target
        pointer := some pointer } := by
    refine ⟨rfl, ⟨_, rfl, hname⟩, fun n hn => Or.inr ⟨pointer, ?_⟩⟩
    rw [htarget, show target = some n from hn]
  have hclass : ReplaysType m ctx.model Q blocked (m.mapClass target pointer ctx)
      (m.mapClass target pointer { ctx with blocked }) := by
    refine Replays.ite (fun _ => ?_) (fun _ => ?_)
    · refine replays_unless hfree (fun hother hopen => ?_) (fun hother hclosed => ?_)
      · exact register_use_replays hentry hother hopen
      · exact register_use_closed hentry hother hclosed
    · cases target with
      | none => exact Replays.pure (SameType.refl _)
      | some schema =>
          refine replays_claim_use hfree (isAbsent_of_find htarget) ?_ (SameType.refl _)
            (fun _ => SameType.refl _) (fun _ => sameType_ofClass)
          intro s name registry hclaim
          exact .target s hQ hpointer htarget hclaim
  cases target with
  | none => exact hclass
  | some target =>
      refine Replays.bind_lift fun isModel hmodel => ?_
      refine Replays.ite (fun hnot => ?_) (fun _ => hclass)
      have halias : Schema.isModel target = .ok false := by simpa [hmodel] using hnot
      exact mapAlias_replays hdown (hclosed _ _ hQ (.target hpointer htarget halias))

theorem mapVariants_replays {nodes : List Node}
    (hdown : ReplaysDown m ctx.model Q blocked descend descend') (hQ : ∀ n ∈ nodes, Q n) :
    Replays m ctx.model Q blocked (mapVariants descend following nodes)
      (mapVariants descend' following nodes) (List.Forall₂ (SameType blocked)) := by
  induction nodes with
  | nil => exact Replays.pure .nil
  | cons n nodes ih =>
      have hrest := ih fun n hn => hQ n (List.mem_cons_of_mem _ hn)
      refine Replays.bind_lift fun type _ => Replays.ite (fun _ => hrest) (fun _ => ?_)
      refine (hdown following n (hQ n List.mem_cons_self)).bind fun a b hab => ?_
      exact hrest.bind fun as bs habs => Replays.pure (.cons hab habs)

/-- Variants whose types mention no blocked name are the same both times. -/
theorem eq_of_variants {as bs : List MappedType} (h : List.Forall₂ (SameType blocked) as bs)
    (hnone : ∀ a ∈ as, ∀ name ∈ blocked, ¬ Mentions a.type.text name) : bs = as := by
  induction h with
  | nil => rfl
  | cons hab _ ih =>
      rw [hab (hnone _ List.mem_cons_self), ih fun a ha => hnone a (List.mem_cons_of_mem _ ha)]

/-- The type of a union whose variants have some types. -/
def unionType : List MappedType → MappedType
  | [] => .any
  | first :: rest =>
    match TypeExpr.distinct ((first :: rest).map (·.type)) with
    | [] | [_] => first
    | types => { type := .union types }

theorem mapUnion_eq {nodes : List Node} :
    mapUnion descend following nodes =
      (do return unionType (← mapVariants descend following nodes)) := by
  unfold mapUnion
  refine bind_congr fun types => ?_
  cases types with
  | nil => rfl
  | cons first rest =>
      simp only [unionType]
      generalize TypeExpr.distinct ((first :: rest).map (·.type)) = types
      cases types with
      | nil => rfl
      | cons type types =>
          cases types with
          | nil => rfl
          | cons => rfl

/-- Variants that are written alike have the type of the first one, and others the union of the
types that are written differently. -/
theorem unionType_cons (first : MappedType) (rest : List MappedType) :
    (∃ t, TypeExpr.distinct ((first :: rest).map (·.type)) = [t] ∧ t.text = first.type.text ∧
        unionType (first :: rest) = first) ∨
      2 ≤ (TypeExpr.distinct ((first :: rest).map (·.type))).length ∧
        unionType (first :: rest) =
          { type := .union (TypeExpr.distinct ((first :: rest).map (·.type))) } := by
  obtain ⟨u, hu, htext⟩ := TypeExpr.exists_mem_distinct
    (List.mem_map_of_mem List.mem_cons_self : first.type ∈ (first :: rest).map (·.type))
  rw [unionType]
  generalize TypeExpr.distinct ((first :: rest).map (·.type)) = kept at hu ⊢
  match kept with
  | [] => exact absurd hu List.not_mem_nil
  | [t] =>
      obtain rfl := List.mem_singleton.mp hu
      exact Or.inl ⟨u, rfl, htext, rfl⟩
  | _ :: _ :: _ => exact Or.inr ⟨by simp, rfl⟩

/-- The type of a union mentions what its variants mention. -/
theorem mentions_unionType {types : List MappedType} {a : MappedType} {name : String}
    (ha : a ∈ types) (h : Mentions a.type.text name) :
    Mentions (unionType types).type.text name := by
  cases types with
  | nil => exact absurd ha List.not_mem_nil
  | cons first rest =>
      obtain ⟨u, hu, htext⟩ := TypeExpr.exists_mem_distinct
        (List.mem_map_of_mem ha : a.type ∈ (first :: rest).map (·.type))
      rw [← htext] at h
      rcases unionType_cons first rest with ⟨t, hone, hfirst, heq⟩ | ⟨-, heq⟩
      · rw [hone, List.mem_singleton] at hu
        rw [heq, ← hfirst, ← hu]
        exact h
      · rw [heq]
        exact TypeExpr.mentions_union hu h

theorem mapUnion_replays {nodes : List Node}
    (hdown : ReplaysDown m ctx.model Q blocked descend descend') (hQ : ∀ n ∈ nodes, Q n) :
    ReplaysType m ctx.model Q blocked (mapUnion descend following nodes)
      (mapUnion descend' following nodes) := by
  rw [mapUnion_eq, mapUnion_eq]
  refine (mapVariants_replays hdown hQ).bind fun as bs habs => Replays.pure fun hnone => ?_
  rw [eq_of_variants habs fun a ha name hname h => hnone name hname (mentions_unionType ha h)]

theorem mapArray_replays {schema : Node} (hfree : ctx.blocked = [])
    (hclosed : ∀ a b, Q a → Part m a b → Q b)
    (hdown : ReplaysDown m ctx.model Q blocked descend descend') (hQ : Q schema) :
    ReplaysType m ctx.model Q blocked (mapArray descend following schema ctx)
      (mapArray descend' following schema { ctx with blocked }) := by
  refine Replays.bind_lift fun items hitems => ?_
  have hitemsQ : Q items := hclosed _ _ hQ (.items hitems)
  refine Replays.bind_lift fun isObject hobject => ?_
  refine Replays.ite (fun _ => Replays.pure (SameType.refl _)) (fun hnot => ?_)
  have hthere : items.isObject = .ok true := by simpa [hobject] using hnot
  refine Replays.bind_lift fun inPlace _ => ?_
  refine Replays.ite (fun _ => ?_) (fun _ => ?_)
  · refine (synthesize_replays hfree hitemsQ hthere).bind ?_
    rintro a b (rfl | ⟨name, hname, rfl, rfl⟩)
    · cases b with
      | some name => exact Replays.pure (SameType.refl _)
      | none => exact Replays.pure (SameType.refl _)
    · refine Replays.pure fun hnone => ?_
      exact absurd (TypeExpr.mentions_listOfClass name) (hnone name hname)
  · refine (hdown following items hitemsQ).bind fun a b hab => Replays.pure fun hnone => ?_
    rw [hab fun name hname h => hnone name hname (TypeExpr.mentions_list h)]

theorem mapFreeObject_replays {schema : Node} (hclosed : ∀ a b, Q a → Part m a b → Q b)
    (hdown : ReplaysDown m ctx.model Q blocked descend descend') (hQ : Q schema) :
    ReplaysType m ctx.model Q blocked (mapFreeObject descend following schema)
      (mapFreeObject descend' following schema) := by
  refine Replays.bind_lift fun values hvalues => ?_
  have hvaluesQ : Q values := hclosed _ _ hQ (.values hvalues)
  refine Replays.bind_lift fun isObject _ => Replays.bind_lift fun isTrue _ => ?_
  refine Replays.ite (fun _ => ?_) (fun _ => Replays.pure (SameType.refl _))
  refine (hdown following values hvaluesQ).bind fun a b hab => Replays.pure fun hnone => ?_
  rw [hab fun name hname h => hnone name hname (TypeExpr.mentions_record h)]

end Compound

/-! ## Whole properties -/

/-- The way down replays, whatever its fuel. -/
theorem mapWithin_replays (hfree : ctx.blocked = []) (hclosed : ∀ a b, Q a → Part m a b → Q b)
    (fuel : Nat) :
    ReplaysDown m ctx.model Q blocked (m.mapWithin ctx fuel)
      (m.mapWithin { ctx with blocked } fuel) := by
  induction fuel with
  | zero => exact fun _ _ _ => Replays.throw
  | succ fuel ih =>
      intro following schema hQ
      refine Replays.bind_lift fun isObject hobject => ?_
      refine Replays.ite (fun _ => Replays.pure (SameType.refl _)) (fun hnot => ?_)
      have hthere : schema.isObject = .ok true := by simpa [hobject] using hnot
      refine Replays.bind_lift fun pointer? hpointer => ?_
      cases pointer? with
      | some pointer => exact mapReference_replays hfree hclosed ih hQ hpointer
      | none =>
          refine Replays.bind_lift fun member? hmember => ?_
          cases member? with
          | some member => exact ih following member (hclosed _ _ hQ (.member hmember))
          | none =>
              refine Replays.bind_lift fun all hall => ?_
              cases all with
              | cons first rest =>
                  exact mapUnion_replays ih fun n hn => hclosed _ _ hQ (.variant hall hn)
              | nil =>
                  refine Replays.bind_lift fun type _ => ?_
                  refine Replays.ite (fun _ => mapArray_replays hfree hclosed ih hQ) (fun _ => ?_)
                  refine Replays.bind_lift fun inPlace _ => ?_
                  refine Replays.ite (fun _ => mapInlineObject_replays hfree hQ hthere)
                    (fun _ => ?_)
                  split
                  · exact Replays.lift fun a _ => SameType.refl a
                  · exact Replays.lift fun a _ => SameType.refl a
                  · exact Replays.lift fun a _ => SameType.refl a
                  · exact Replays.pure (SameType.refl _)
                  · exact mapFreeObject_replays hclosed ih hQ
                  · exact Replays.pure (SameType.refl _)

end ApiScaffold.Mapper
