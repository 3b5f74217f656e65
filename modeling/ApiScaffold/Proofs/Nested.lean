import ApiScaffold.Proofs.Declared
import ApiScaffold.Proofs.Rules

set_option autoImplicit false

/-! # Classes that values are checked by

A value of a class, and each item of a list of such values, is checked by the class, which a
constraint names. The constraint is passed on to what stands for the schema; a list takes the type
of its items for the name. So the constraint names a model of the batch (`compileWithin_classes`),
but for lists of lists, whose items have a type that is no name. -/

namespace ApiScaffold

namespace Mapper

variable {m : Mapper} {ctx : MappingContext} {n b : Node} {s t : MapperState} {a : MappedType}
  {name : String} {noted : List String}

/-! ## Lists of lists -/

/-- A class in some lists, or in none. -/
inductive InLists (name : String) : TypeExpr → Prop where
  | named : InLists name (.named name)
  | listOfClass : InLists name (.listOfClass name)
  | list {item : TypeExpr} (h : InLists name item) : InLists name (.list item)

/-- A schema that is one of a list, or stands for one. -/
def LeadsToList (m : Mapper) (n : Node) : Prop :=
  ∃ a items, Relation.ReflTransGen (Through m) n a ∧ IsList a items

/-- A schema that is one of a list of lists, or stands for one. -/
def ListsLists (m : Mapper) (n : Node) : Prop :=
  ∃ a items, Relation.ReflTransGen (Through m) n a ∧ IsList a items ∧ LeadsToList m items

theorem LeadsToList.head (h : LeadsToList m b) (hstep : Through m n b) : LeadsToList m n := by
  obtain ⟨a, items, hsteps, hlist⟩ := h
  exact ⟨a, items, .head hstep hsteps, hlist⟩

theorem ListsLists.head (h : ListsLists m b) (hstep : Through m n b) : ListsLists m n := by
  obtain ⟨a, items, hsteps, hlist, hleads⟩ := h
  exact ⟨a, items, .head hstep hsteps, hlist, hleads⟩

/-! ## Checks -/

/-- How a class checks the values of a schema: not at all, each value, or each item of a list. The
class of items is named by their type. -/
inductive ClassChecks (m : Mapper) (noted : List String) (n : Node) (a : MappedType) : Prop where
  | none (h : ∀ con ∈ a.constraints, con.kind ≠ .nested ∧ con.kind ≠ .type)
  | value {name : String} (hname : name ∈ noted) (h : a = .ofClass name)
  | items {name : String} {item : TypeExpr} (hname : name ∈ noted) (hin : InLists name item)
      (htype : InLists name a.type)
      (hcons : a.constraints = { kind := .array } :: Constraint.ofClass item.text true)
      (hlist : LeadsToList m n) (h : item = .named name ∨ ListsLists m n)

theorem ClassChecks.mono {noted' : List String} (h : ClassChecks m noted n a)
    (hgrows : noted ⊆ noted') : ClassChecks m noted' n a := by
  cases h with
  | none h => exact .none h
  | value hname h => exact .value (hgrows hname) h
  | items hname hin htype hcons hlist h => exact .items (hgrows hname) hin htype hcons hlist h

theorem ClassChecks.head (h : ClassChecks m noted b a) (hstep : Through m n b) :
    ClassChecks m noted n a := by
  cases h with
  | none h => exact .none h
  | value hname h => exact .value hname h
  | items hname hin htype hcons hlist h =>
      exact .items hname hin htype hcons (hlist.head hstep) (h.imp_right (·.head hstep))

theorem nested_ofClass (name : String) (each : Bool) :
    (Constraint.ofClass name each).any (·.kind = .nested) = true := by
  simp [Constraint.ofClass]

/-- A list is checked by the class that checks its items. -/
theorem ClassChecks.list (h : ClassChecks m noted b a) (hlist : IsList n b) :
    ClassChecks m noted n (listType a) := by
  have hleads : LeadsToList m n := ⟨n, b, .refl, hlist⟩
  cases h with
  | none h =>
      have hnone : a.constraints.any (·.kind = .nested) = false := by
        rw [List.any_eq_false]
        intro con hcon
        simp [(h con hcon).1]
      refine .none fun con hcon => ?_
      rw [listType, hnone] at hcon
      obtain rfl := List.mem_singleton.mp hcon
      simp
  | value hname h =>
      subst h
      exact .items hname .named (.list .named) rfl hleads (Or.inl rfl)
  | items hname hin htype hcons hinner h =>
      -- the type of the items stands for the name, with the brackets of their own items
      refine .items hname htype (.list htype) ?_ hleads (Or.inr ⟨n, b, .refl, hlist, hinner⟩)
      have hnested : a.constraints.any (·.kind = .nested) = true := by
        rw [hcons, List.any_cons, nested_ofClass, Bool.or_true]
      rw [listType, hnested]
      rfl

theorem checks_chain {all : List Node} {types : List MappedType}
    (h : Chain (fun n s a t =>
      s.dependencies ⊆ t.dependencies ∧ ClassChecks m t.dependencies n a) all s types t) :
    s.dependencies ⊆ t.dependencies ∧
      ∀ a ∈ types, ∃ n ∈ all, ClassChecks m t.dependencies n a := by
  induction h with
  | nil => exact ⟨List.Subset.refl _, fun a ha => absurd ha List.not_mem_nil⟩
  | skip _ ih =>
      refine ⟨ih.1, fun a ha => ?_⟩
      obtain ⟨n, hn, hchecks⟩ := ih.2 a ha
      exact ⟨n, List.mem_cons_of_mem _ hn, hchecks⟩
  | cons hfirst _ ih =>
      refine ⟨List.Subset.trans hfirst.1 ih.1, fun a ha => ?_⟩
      rcases List.mem_cons.mp ha with rfl | ha
      · exact ⟨_, List.mem_cons_self, hfirst.2.mono ih.1⟩
      · obtain ⟨n, hn, hchecks⟩ := ih.2 a ha
        exact ⟨n, List.mem_cons_of_mem _ hn, hchecks⟩

/-- Every way to map a schema gives a type that is checked by classes that were noted. -/
theorem checks_rules : MapRules m ctx fun n s a t =>
    s.dependencies ⊆ t.dependencies ∧ ClassChecks m t.dependencies n a where
  plain hplain _ := ⟨List.Subset.refl _, .none hplain.noClass⟩
  texts _ _ := ⟨List.Subset.refl _, .none (by simp [textsType])⟩
  through hstep h := ⟨h.1, h.2.head hstep⟩
  ofClass huses := ⟨huses.subset, .value huses.mem rfl⟩
  union hall hchain := by
    obtain ⟨hgrows, hchecks⟩ := checks_chain hchain
    refine ⟨hgrows, ?_⟩
    rcases unionType_cases _ with heq | hmem | ⟨members, -, heq⟩
    · rw [heq]
      exact .none (by simp [MappedType.any])
    · obtain ⟨b, hb, hchecked⟩ := hchecks _ hmem
      exact hchecked.head (.variant hall hb)
    · rw [heq]
      exact .none (by simp)
  unknown _ _ := ⟨List.Subset.refl _, .none (by simp [unknownList])⟩
  items hlist h := ⟨h.1, h.2.list hlist⟩
  itemsOfClass hlist huses :=
    ⟨huses.subset, .items huses.mem .named .listOfClass rfl ⟨_, _, .refl, hlist⟩ (Or.inl rfl)⟩
  record _ h := ⟨h.1, .none (by simp)⟩

/-- The value of a constraint that names the class of a value. -/
theorem ClassChecks.value_of_type (h : ClassChecks m noted n a) {con : Constraint}
    (hcon : con ∈ a.constraints) (hkind : con.kind = .type) :
    ∃ name ∈ noted, con.value = .text name ∨
      ListsLists m n ∧ ∃ item, InLists name item ∧ con.value = .text item.text := by
  have hvalue : ∀ {value : String} {each : Bool}, con ∈ Constraint.ofClass value each →
      con.value = .text value := by
    intro value each hmem
    rcases List.mem_cons.mp hmem with rfl | hmem
    · cases hkind
    · obtain rfl := List.mem_singleton.mp hmem
      rfl
  cases h with
  | none h => exact absurd hkind (h con hcon).2
  | value hname h =>
      subst h
      exact ⟨_, hname, Or.inl (hvalue hcon)⟩
  | items hname hin htype hcons hlist h =>
      rw [hcons] at hcon
      rcases List.mem_cons.mp hcon with rfl | hcon
      · cases hkind
      · rcases h with rfl | hlists
        · exact ⟨_, hname, Or.inl (hvalue hcon)⟩
        · exact ⟨_, hname, Or.inr ⟨hlists, _, hin, hvalue hcon⟩⟩

end Mapper

namespace ModelCompiler

open Mapper

variable {c : ModelCompiler}

/-! ## Batches -/

/-- The constraints of a property that name the class of its values name a model of the batch,
unless its schema is one of a list of lists: then the name stands in brackets of lists. -/
structure CheckedByClasses (c : ModelCompiler) (batch : ModelBatch) (q : String × Node)
    (p : Property) : Prop where
  name : p.name = q.1
  classes : ∀ con ∈ p.constraints, con.kind = .type → ∃ name ∈ batch.names,
    con.value = .text name ∨ ListsLists c.mapper q.2 ∧
      ∃ item, InLists name item ∧ con.value = .text item.text

/-- Every property of every model of a batch is checked by models of the batch. -/
theorem compileWithin_classes {limit : Nat} {extra : List (String × Node)} {batch : ModelBatch}
    (h : c.compileWithin limit extra = .ok batch) :
    ∀ model ∈ batch.models, ∃ schema gathered, Built c ⟨model, schema⟩ ∧
      Gathered.ofSchema c.mapper.resolver schema = .ok gathered ∧
      List.Forall₂ (CheckedByClasses c batch) gathered.properties model.properties := by
  obtain ⟨w, enums, done, hstart, hdrain, hfinish⟩ := compileWithin_eq_ok h
  have hdone : Consistent c done := drain_consistent (start_consistent hstart) hdrain
  intro model hmodel
  obtain ⟨m, -, -, hbuilt⟩ := (built_of_finish hdone hfinish).2.1 model hmodel
  obtain ⟨gathered, blocked, hgathered, hall⟩ := hbuilt.properties
  refine ⟨m.schema, gathered, hbuilt, hgathered, hall.imp ?_⟩
  rintro q p ⟨required, mapped, description, sample, s, t, hmapped, hused, rfl⟩
  refine ⟨rfl, fun con hcon hkind => ?_⟩
  have hmem : con ∈ mapped.constraints := mem_of_mem_marked hcon (by simp [hkind])
  have hchecks := (mapProperty_rules checks_rules hmapped).2
  obtain ⟨name, hname, hvalue⟩ := hchecks.value_of_type hmem hkind
  exact ⟨name, mem_names_of_used hdone hfinish hmodel (hused hname), hvalue⟩

/-- A document of ships, each with values and lists of a named schema and of objects in place. -/
def fleet : Document where
  tag := 0
  root := .obj [("components", .obj [("schemas", .obj [
    ("Ship", .obj [("properties", .obj [
      ("captain", .obj [("allOf", .arr [referenceTo "Person"])]),
      ("engine", .obj [("properties", .obj [("power", .obj [("type", .str "integer")])])]),
      ("crew", .obj [("type", .str "array"), ("items", referenceTo "Person")]),
      ("decks", .obj [("type", .str "array"), ("items", .obj [("properties", .obj [
        ("level", .obj [("type", .str "integer")])])])])])]),
    ("Person", .obj [("properties", .obj [("name", .obj [("type", .str "string")])])])])])]
  linked := false

/-- The classes that the properties of a model are checked by. -/
def classesOf (m : Model) : List (List Excerpt) :=
  m.properties.map fun p => (p.constraints.filter (·.kind == .type)).map (·.value)

/-- In `fleet` every property of a ship is checked by a class. -/
theorem fleet_classes :
    ∃ c batch, ofDocument fleet false none = .ok c ∧ c.compileAll [] = .ok batch ∧
      (batch.model? "ShipDto").map classesOf = some [[.text "PersonDto"], [.text "ShipEngineDto"],
        [.text "PersonDto"], [.text "ShipDecksItemDto"]] ∧
      ∀ model ∈ batch.models, ∃ schema gathered, Built c ⟨model, schema⟩ ∧
        Gathered.ofSchema c.mapper.resolver schema = .ok gathered ∧
        List.Forall₂ (CheckedByClasses c batch) gathered.properties model.properties := by
  have hrun : (do
      let c ← ofDocument fleet false none
      let batch ← c.compileAll []
      pure ((batch.model? "ShipDto").map classesOf)).toOption =
      some (some [[.text "PersonDto"], [.text "ShipEngineDto"], [.text "PersonDto"],
        [.text "ShipDecksItemDto"]]) := by
    decide +kernel
  obtain ⟨c, hc, h⟩ := bind_eq_ok.mp (eq_ok_of_toOption hrun)
  obtain ⟨batch, hbatch, h⟩ := bind_eq_ok.mp h
  exact ⟨c, batch, hc, hbatch, pure_eq_ok.mp h, compileWithin_classes hbatch⟩

/-! ## A list of lists -/

/-- A document in which a board has rows of cells. -/
def board : Document where
  tag := 0
  root := .obj [("components", .obj [("schemas", .obj [
    ("Board", .obj [("properties", .obj [
      ("rows", .obj [("type", .str "array"), ("items", .obj [("type", .str "array"),
        ("items", referenceTo "Cell")])])])]),
    ("Cell", .obj [("properties", .obj [("mark", .obj [("type", .str "string")])])])])])]
  linked := false

/-- In `board` the rows are checked by a class that is no model. -/
theorem board_misnamed :
    ∃ c batch, ofDocument board false none = .ok c ∧ c.compileAll [] = .ok batch ∧
      batch.names = ["CellDto", "BoardDto"] ∧
      (batch.model? "BoardDto").map classesOf = some [[.text "CellDto[]"]] ∧
      ¬ ∀ model ∈ batch.models, ∀ p ∈ model.properties, ∀ con ∈ p.constraints,
        con.kind = .type → ∃ name ∈ batch.names, con.value = .text name := by
  have hrun : (do
      let c ← ofDocument board false none
      let batch ← c.compileAll []
      pure (batch.names, (batch.model? "BoardDto").map classesOf,
        decide (∀ model ∈ batch.models, ∀ p ∈ model.properties, ∀ con ∈ p.constraints,
          con.kind = ConstraintKind.type →
            ∃ name ∈ batch.names, con.value = Excerpt.text name))).toOption =
      some (["CellDto", "BoardDto"], some [[.text "CellDto[]"]], false) := by
    decide +kernel
  obtain ⟨c, hc, h⟩ := bind_eq_ok.mp (eq_ok_of_toOption hrun)
  obtain ⟨batch, hbatch, h⟩ := bind_eq_ok.mp h
  obtain ⟨hnames, hrest⟩ := Prod.mk.inj (pure_eq_ok.mp h)
  obtain ⟨hclasses, hwrong⟩ := Prod.mk.inj hrest
  exact ⟨c, batch, hc, hbatch, hnames, hclasses, of_decide_eq_false hwrong⟩

end ModelCompiler

end ApiScaffold
