import ApiScaffold.Proofs.Rules

set_option autoImplicit false

/-! # What the types of properties name

Every name in the type of a property is that of a plain type, of a class that the property uses, or
of an enumeration that some schema on the way refers to. Constraints name enumerations too; they
reach the property only from schemas that are passed through on the way (`Through`). -/

namespace ApiScaffold

/-! ## Names -/

namespace TypeExpr

mutual

/-- The names in a type. -/
def names : TypeExpr → List String
  | .named name => [name]
  | .list item => item.names
  | .listOfClass name => [name]
  | .union members => namesOf members
  | .record value => value.names

/-- The names in some types. -/
def namesOf : List TypeExpr → List String
  | [] => []
  | t :: ts => t.names ++ namesOf ts

end

theorem mem_namesOf {name : String} {types : List TypeExpr} :
    name ∈ namesOf types ↔ ∃ t ∈ types, name ∈ t.names := by
  induction types with
  | nil => simp [namesOf]
  | cons t types ih => simp [namesOf, ih]

/-- The text of a type mentions the names in it. -/
theorem mentions_of_mem_names {name : String} :
    ∀ {t : TypeExpr}, name ∈ t.names → Mentions t.text name
  | .named _, h => by
      obtain rfl := List.mem_singleton.mp h
      exact mentions_self name
  | .list _, h => mentions_list (mentions_of_mem_names h)
  | .listOfClass _, h => by
      obtain rfl := List.mem_singleton.mp h
      exact mentions_listOfClass name
  | .union members, h => by
      rw [names, mem_namesOf] at h
      obtain ⟨t, ht, hname⟩ := h
      exact mentions_union ht (mentions_of_mem_names hname)
  | .record _, h => mentions_record (mentions_of_mem_names h)

end TypeExpr

namespace Mapper

variable {m : Mapper} {ctx : MappingContext} {property : String} {schema : Node}
  {s t u : MapperState} {a : MappedType}

/-! ## Enumerations -/

/-- The name of an enumeration that some schema in reach refers to. -/
def Refers (m : Mapper) (step : Node → Node → Prop) (schema : Node) (name : String) : Prop :=
  ∃ n pointer target, Relation.ReflTransGen step schema n ∧ RefersToTexts m n pointer target ∧
    name = Naming.enumName (Pointer.name pointer)

/-- The name of an enumeration that the values of a property are checked against. -/
def ChecksAgainst (m : Mapper) (property : String) (schema : Node) (name : String) : Prop :=
  (∃ n, Relation.ReflTransGen (Through m) schema n ∧ ListsTexts n ∧
    name = Naming.enumName property) ∨ Refers m (Through m) schema name

theorem Refers.head {step : Node → Node → Prop} {n b : Node} {name : String}
    (h : Refers m step b name) (hstep : step n b) : Refers m step n name := by
  obtain ⟨n', pointer, target, hsteps, hrefers, hname⟩ := h
  exact ⟨n', pointer, target, .head hstep hsteps, hrefers, hname⟩

theorem ChecksAgainst.head {n b : Node} {name : String} (h : ChecksAgainst m property b name)
    (hstep : Through m n b) : ChecksAgainst m property n name := by
  rcases h with ⟨n', hsteps, hlists, hname⟩ | h
  · exact Or.inl ⟨n', .head hstep hsteps, hlists, hname⟩
  · exact Or.inr (h.head hstep)

/-! ## Sound types -/

/-- The type that mapping a schema gives, with the models noted before and after: it names plain
types, models noted and enumerations that are referred to, and is checked against enumerations on
the way. -/
structure Sound (m : Mapper) (property : String) (schema : Node) (before : List String)
    (a : MappedType) (after : List String) : Prop where
  grows : before ⊆ after
  names : ∀ name ∈ a.type.names, name ∈ plainTypes ∨ name ∈ after ∨ Refers m (Part m) schema name
  enums : ∀ con ∈ a.constraints, con.kind = .enum →
    ∃ name, con.value = .text name ∧ ChecksAgainst m property schema name

section Sound

variable {before after : List String}

theorem Sound.head {b : Node} (h : Sound m property b before a after) (hstep : Through m schema b) :
    Sound m property schema before a after where
  grows := h.grows
  names name hname := (h.names name hname).imp_right (·.imp_right (·.head hstep.part))
  enums con hcon hkind := by
    obtain ⟨name, hvalue, hchecks⟩ := h.enums con hcon hkind
    exact ⟨name, hvalue, hchecks.head hstep⟩

/-- A type of names that are plain or noted, without enumerations to check against. -/
theorem sound_of_plain (hgrows : before ⊆ after)
    (hnames : ∀ name ∈ a.type.names, name ∈ plainTypes ∨ name ∈ after)
    (henums : ∀ con ∈ a.constraints, con.kind ≠ .enum) :
    Sound m property schema before a after where
  grows := hgrows
  names name hname := (hnames name hname).imp_right Or.inl
  enums con hcon hkind := absurd hkind (henums con hcon)

theorem sound_any (hgrows : before ⊆ after) : Sound m property schema before .any after := by
  refine sound_of_plain hgrows ?_ (by simp [MappedType.any])
  simp [MappedType.any, TypeExpr.any, TypeExpr.names, plainTypes]

theorem kind_of_mem_ofClass {name : String} {each : Bool} {con : Constraint}
    (h : con ∈ Constraint.ofClass name each) : con.kind ≠ .enum := by
  rcases List.mem_cons.mp h with rfl | h
  · simp
  · obtain rfl := List.mem_singleton.mp h
    simp

theorem sound_ofClass {name : String} (hgrows : before ⊆ after) (hname : name ∈ after) :
    Sound m property schema before (.ofClass name) after := by
  refine sound_of_plain hgrows ?_ fun con hcon => kind_of_mem_ofClass hcon
  simp [MappedType.ofClass, TypeExpr.names, hname]

theorem sound_chain {ctx : MappingContext} {all : List Node} {types : List MappedType}
    (h : Chain (fun n s a t => Sound m ctx.property n s.dependencies a t.dependencies)
      all s types t) :
    s.dependencies ⊆ t.dependencies ∧
      ∀ a ∈ types, ∃ n ∈ all, Sound m ctx.property n [] a t.dependencies := by
  induction h with
  | nil => exact ⟨List.Subset.refl _, fun a ha => absurd ha List.not_mem_nil⟩
  | skip _ ih =>
      refine ⟨ih.1, fun a ha => ?_⟩
      obtain ⟨n, hn, hsound⟩ := ih.2 a ha
      exact ⟨n, List.mem_cons_of_mem _ hn, hsound⟩
  | cons hfirst _ ih =>
      refine ⟨List.Subset.trans hfirst.grows ih.1, fun a ha => ?_⟩
      rcases List.mem_cons.mp ha with rfl | ha
      · refine ⟨_, List.mem_cons_self, List.nil_subset _, fun name hname => ?_, hfirst.enums⟩
        exact (hfirst.names name hname).imp_right (·.imp_left fun hmem => ih.1 hmem)
      · obtain ⟨n, hn, hsound⟩ := ih.2 a ha
        exact ⟨n, List.mem_cons_of_mem _ hn, hsound⟩

end Sound

/-! ## Mapping gives sound types -/

/-- Every way to map a schema gives a sound type. -/
theorem sound_rules : MapRules m ctx fun n s a t =>
    Sound m ctx.property n s.dependencies a t.dependencies where
  plain {n s a r} hplain _ := by
    obtain ⟨name, hname, htype⟩ := hplain.type
    refine ⟨List.Subset.refl _, fun d hd => ?_, fun con hcon hkind => ?_⟩
    · rw [htype] at hd
      exact Or.inl (List.mem_singleton.mp hd ▸ hname)
    · obtain ⟨hvalue, hlists⟩ := (hplain.checks con hcon).enum hkind
      exact ⟨_, hvalue, Or.inl ⟨n, .refl, hlists, rfl⟩⟩
  texts {n s pointer target values} hrefers _ := by
    refine ⟨List.Subset.refl _, fun name hname => ?_, fun con hcon hkind => ?_⟩
    · obtain rfl := List.mem_singleton.mp hname
      exact Or.inr (Or.inr ⟨n, pointer, target, .refl, hrefers, rfl⟩)
    · rcases List.mem_cons.mp hcon with rfl | hcon
      · cases hkind
      · obtain rfl := List.mem_singleton.mp hcon
        exact ⟨_, rfl, Or.inr ⟨n, pointer, target, .refl, hrefers, rfl⟩⟩
  through hstep h := h.head hstep
  ofClass huses := sound_ofClass huses.subset huses.mem
  union {n all s types t} hall hchain := by
    obtain ⟨hgrows, hsound⟩ := sound_chain hchain
    have hmember : ∀ a ∈ types, Sound m ctx.property n [] a t.dependencies := by
      intro a ha
      obtain ⟨b, hb, hsound⟩ := hsound a ha
      exact hsound.head (.variant hall hb)
    rcases unionType_cases types with heq | hmem | ⟨members, hmembers, heq⟩
    · rw [heq]
      exact sound_any hgrows
    · exact ⟨hgrows, (hmember _ hmem).names, (hmember _ hmem).enums⟩
    · rw [heq]
      refine ⟨hgrows, ?_, by simp⟩
      intro name hname
      rw [TypeExpr.names, TypeExpr.mem_namesOf] at hname
      obtain ⟨type, htype, hname⟩ := hname
      obtain ⟨a, ha, rfl⟩ := List.mem_map.mp (hmembers htype)
      exact (hmember a ha).names name hname
  unknown _ _ := by
    refine sound_of_plain (List.Subset.refl _) ?_ (by simp [unknownList])
    simp [unknownList, TypeExpr.names, TypeExpr.any, plainTypes]
  items hlist h := by
    refine ⟨h.grows, ?_, fun con hcon hkind => ?_⟩
    · intro name hname
      exact (h.names name hname).imp_right (·.imp_right (·.head (.items hlist.items)))
    · rcases List.mem_cons.mp hcon with rfl | hcon
      · cases hkind
      · split at hcon
        · exact absurd hkind (kind_of_mem_ofClass hcon)
        · exact absurd hcon List.not_mem_nil
  itemsOfClass _ huses := by
    refine sound_of_plain huses.subset ?_ fun con hcon => ?_
    · simp [listOfClassType, TypeExpr.names, huses.mem]
    · rcases List.mem_cons.mp hcon with rfl | hcon
      · simp
      · exact kind_of_mem_ofClass hcon
  record hget h := by
    refine ⟨h.grows, ?_, by simp⟩
    intro name hname
    exact (h.names name hname).imp_right (·.imp_right (·.head (.values hget)))

theorem mapProperty_sound (h : Yields (m.mapProperty schema ctx) s a t) :
    Sound m ctx.property schema s.dependencies a t.dependencies :=
  mapProperty_rules sound_rules h

end Mapper

end ApiScaffold
