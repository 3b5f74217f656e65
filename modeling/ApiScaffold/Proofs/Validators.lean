import ApiScaffold.Code.Decorator
import ApiScaffold.Proofs.Built
import ApiScaffold.Proofs.Declared
import ApiScaffold.Proofs.Rules

set_option autoImplicit false

/-! # The decorators of properties and their imports

Mapping gives a property only constraints that a decorator stands for (`headed_rules`), and so does
the marker of a property that may be missing. What a file of models imports is therefore just what
heads the lines above its properties. -/

namespace ApiScaffold

/-! ## Headings -/

/-- The decorator that stands for a kind of constraint; that of a class is no check. -/
def ConstraintKind.heading? : ConstraintKind → Option String
  | .type => some "Type"
  | kind => kind.decorator?

namespace ConstraintKind

theorem heading?_of_decorator? {kind : ConstraintKind} {name : String}
    (h : kind.decorator? = some name) : kind.heading? = some name := by
  cases kind <;> simp_all [heading?, decorator?]

theorem heading?_eq_some {kind : ConstraintKind} {name : String} (h : kind.heading? = some name) :
    kind.decorator? = some name ∨ kind = .type ∧ name = "Type" := by
  cases kind <;> simp_all [heading?, decorator?]

/-- A check is neither the decorator of a class nor that of the documentation, and its name is
free of brackets. -/
theorem decorator?_plain {kind : ConstraintKind} {name : String} (h : kind.decorator? = some name) :
    name ≠ "Type" ∧ name ≠ "ApiProperty" ∧ '(' ∉ name.toList := by
  cases kind <;> cases h <;> decide

end ConstraintKind

namespace Decorator

/-- The name of the decorator that heads a line: what stands between `@` and the first opening round
bracket. -/
def heading? (line : String) : Option String :=
  match line.toList with
  | '@' :: rest => some (String.ofList (rest.takeWhile (· ≠ '(')))
  | _ => none

theorem heading?_text {d : Decorator} (h : '(' ∉ d.name.toList) : heading? d.text = some d.name := by
  have hname : d.name.toList.takeWhile (· ≠ '(') = d.name.toList :=
    List.takeWhile_eq_self_iff.mpr fun c hc => by
      simpa using ne_of_mem_of_not_mem hc h
  have htext : d.text.toList = '@' :: (d.name.toList ++ '(' :: (d.arguments.toList ++ [')'])) := by
    simp [text]
  have htake : (d.name.toList ++ '(' :: (d.arguments.toList ++ [')'])).takeWhile (· ≠ '(') =
      d.name.toList := by
    rw [List.takeWhile_append_of_pos (List.takeWhile_eq_self_iff.mp hname)]
    simp
  simp only [heading?, htext, htake, String.ofList_toList]

/-- A constraint has a decorator just when some decorator stands for its kind. -/
theorem ofConstraint_name {c : Constraint} {name : String} :
    (∃ d, ofConstraint c = .ok d ∧ d.name = name) ↔ c.kind.heading? = some name := by
  obtain ⟨kind, value⟩ := c
  cases kind <;> simp [ofConstraint, ConstraintKind.heading?, ConstraintKind.decorator?]

theorem heading?_ofConstraint {c : Constraint} {d : Decorator} (h : ofConstraint c = .ok d) :
    heading? d.text = c.kind.heading? := by
  have hname := ofConstraint_name.mp ⟨d, h, rfl⟩
  rw [hname]
  refine heading?_text ?_
  rcases ConstraintKind.heading?_eq_some hname with hcheck | ⟨-, htype⟩
  · exact (ConstraintKind.decorator?_plain hcheck).2.2
  · rw [htype]
    decide

theorem heading?_apiProperty (p : Property) :
    heading? (apiProperty p).text = some "ApiProperty" := by
  refine heading?_text ?_
  change '(' ∉ "ApiProperty".toList
  decide

/-- The names that head the lines of some decorators. -/
def headings (decorators : List Decorator) : List String :=
  decorators.filterMap fun d => heading? d.text

/-- The lines of a property are headed by what stands for its constraints, and its documentation. -/
theorem headings_ofProperty {p : Property} {decorators : List Decorator}
    (h : ofProperty p = .ok decorators) :
    headings decorators = p.constraints.filterMap (·.kind.heading?) ++ ["ApiProperty"] := by
  obtain ⟨checks, hchecks, h⟩ := bind_eq_ok.mp h
  cases pure_eq_ok.mp h
  have heach : ∀ {cons : List Constraint} {made : List Decorator},
      List.Forall₂ (fun c d => ofConstraint c = .ok d) cons made →
        headings made = cons.filterMap (·.kind.heading?) := by
    intro cons made hall
    induction hall with
    | nil => rfl
    | cons hfirst _ ih =>
        rw [headings, List.filterMap_cons, List.filterMap_cons, heading?_ofConstraint hfirst]
        split
        · exact ih
        · exact congrArg _ ih
  rw [headings, List.filterMap_append]
  refine congrArg₂ _ (heach (forall₂_of_mapM hchecks)) ?_
  rw [List.filterMap_cons, heading?_apiProperty]
  rfl

/-- A property has its decorators when some decorator stands for each of its constraints. -/
theorem exists_ofProperty {p : Property} (h : ∀ con ∈ p.constraints, con.kind.heading?.isSome) :
    ∃ decorators, ofProperty p = .ok decorators := by
  have heach : ∀ con ∈ p.constraints, ∃ d, ofConstraint con = .ok d := by
    intro con hcon
    obtain ⟨name, hname⟩ := Option.isSome_iff_exists.mp (h con hcon)
    obtain ⟨d, hd, -⟩ := ofConstraint_name.mpr hname
    exact ⟨d, hd⟩
  obtain ⟨checks, hchecks⟩ := exists_mapM heach
  exact ⟨checks ++ [apiProperty p], bind_eq_ok.mpr ⟨checks, hchecks, rfl⟩⟩

/-- The lines of some properties are headed by what heads those of each. -/
theorem headings_mapM_ofProperty {props : List Property} {decorators : List (List Decorator)}
    (h : props.mapM ofProperty = .ok decorators) :
    headings decorators.flatten = props.flatMap fun p =>
      p.constraints.filterMap (·.kind.heading?) ++ ["ApiProperty"] := by
  have hall := forall₂_of_mapM h
  clear h
  induction hall with
  | nil => rfl
  | cons hfirst _ ih =>
      rw [List.flatten_cons, headings, List.filterMap_append, List.flatMap_cons]
      exact congrArg₂ _ (headings_ofProperty hfirst) ih

end Decorator

/-! ## Mapping -/

/-- Constraints that decorators stand for. -/
def Headed (cons : List Constraint) : Prop :=
  ∀ con ∈ cons, con.kind.heading?.isSome

theorem headed_nil : Headed [] :=
  fun _ h => absurd h List.not_mem_nil

theorem headed_ofClass (name : String) (each : Bool) : Headed (Constraint.ofClass name each) := by
  intro con hcon
  rcases List.mem_cons.mp hcon with rfl | hcon
  · rfl
  · obtain rfl := List.mem_singleton.mp hcon
    rfl

theorem Headed.array {cons : List Constraint} (h : Headed cons) :
    Headed ({ kind := .array } :: cons) :=
  List.forall_mem_cons.mpr ⟨rfl, h⟩

namespace Mapper

variable {m : Mapper} {ctx : MappingContext}

theorem PlainType.headed {n : Node} {a : MappedType} (h : PlainType ctx n a) :
    Headed a.constraints := by
  intro con hcon
  obtain ⟨name, hname⟩ := Option.isSome_iff_exists.mp (h.checks con hcon).decorated
  rw [ConstraintKind.heading?_of_decorator? hname]
  rfl

theorem headed_listType {item : MappedType} : Headed (listType item).constraints := by
  refine Headed.array ?_
  split
  · exact headed_ofClass _ _
  · exact headed_nil

/-- Every way to map a schema gives constraints that decorators stand for. -/
theorem headed_rules : MapRules m ctx fun _ _ a _ => Headed a.constraints where
  plain hplain _ := hplain.headed
  texts _ _ := List.forall_mem_cons.mpr ⟨rfl, List.forall_mem_cons.mpr ⟨rfl, headed_nil⟩⟩
  through _ h := h
  ofClass _ := headed_ofClass _ _
  union _ hchain := by
    rcases unionType_cases _ with heq | hmem | ⟨members, -, heq⟩
    · rw [heq]
      exact headed_nil
    · exact hchain.forall_types (fun _ _ _ _ _ h => h) _ hmem
    · rw [heq]
      exact headed_nil
  unknown _ _ := headed_nil.array
  items _ _ := headed_listType
  itemsOfClass _ _ := (headed_ofClass _ _).array
  record _ _ := headed_nil

end Mapper

/-! ## Imports -/

theorem Code.mem_validatorImports {models : List Model} {name : String} :
    name ∈ validatorImports models ↔
      ∃ p ∈ models.flatMap (·.properties), ∃ con ∈ p.constraints,
        con.kind.decorator? = some name := by
  rw [validatorImports, mem_sortedFirsts, ← List.flatMap_assoc]
  simp only [List.mem_flatMap (b := name), List.mem_filterMap]

theorem Code.usesClasses_eq_true {models : List Model} :
    usesClasses models = true ↔
      ∃ p ∈ models.flatMap (·.properties), ∃ con ∈ p.constraints, con.kind = .type := by
  rw [usesClasses, ← List.any_flatMap]
  simp only [List.any_eq_true, Property.hasConstraint, beq_iff_eq]

theorem pairwise_lt_sortedFirsts (texts : List String) : (sortedFirsts texts).Pairwise (· < ·) :=
  (pairwise_sortedFirsts texts).imp₂
    (fun _ _ hle hne => String.not_le.mp fun hge => hne (String.le_antisymm hle hge))
    (nodup_sortedFirsts texts)

namespace ModelCompiler

open Mapper Decorator

variable {c : ModelCompiler} {limit : Nat} {extra : List (String × Node)} {batch : ModelBatch}

/-- Every constraint on a property of a batch has a decorator that stands for it. -/
theorem compileWithin_headed (h : c.compileWithin limit extra = .ok batch) :
    ∀ p ∈ batch.models.flatMap (·.properties), Headed p.constraints := by
  obtain ⟨w, enums, done, hstart, hdrain, hfinish⟩ := compileWithin_eq_ok h
  have hdone : Consistent c done := drain_consistent (start_consistent hstart) hdrain
  intro p hp con hcon
  obtain ⟨model, hmodel, hp⟩ := List.mem_flatMap.mp hp
  obtain ⟨m, -, -, hbuilt⟩ := (built_of_finish hdone hfinish).2.1 model hmodel
  obtain ⟨gathered, blocked, -, hall⟩ := hbuilt.properties
  obtain ⟨q, -, required, mapped, description, sample, s, t, hmapped, -, rfl⟩ :=
    exists_left_of_forall₂ hall p hp
  -- the marker of a property that may be missing is the one constraint that mapping does not give
  by_cases hoptional : con.kind = .optional
  · rw [hoptional]
    rfl
  · exact mapProperty_rules headed_rules hmapped con (mem_of_mem_marked hcon hoptional)

/-- Every property of a batch has its decorators. The file of the models imports just the names that
head them, but for the documentation, which it always imports, and for the class of a value, which
it imports when some property names a class. -/
theorem compileWithin_imports (h : c.compileWithin limit extra = .ok batch) :
    ∃ decorators,
      (batch.models.flatMap (·.properties)).mapM Decorator.ofProperty = .ok decorators ∧
      (∀ name, name ∈ Code.validatorImports batch.models ↔
        name ∈ headings decorators.flatten ∧ name ≠ "ApiProperty" ∧ name ≠ "Type") ∧
      (Code.validatorImports batch.models).Pairwise (· < ·) ∧
      ("Type" ∈ headings decorators.flatten ↔ Code.usesClasses batch.models = true) := by
  have hheaded := compileWithin_headed h
  obtain ⟨decorators, hdecorators⟩ := exists_mapM fun p hp => exists_ofProperty (hheaded p hp)
  have hmem : ∀ name, name ∈ headings decorators.flatten ↔
      ∃ p ∈ batch.models.flatMap (·.properties),
        (∃ con ∈ p.constraints, con.kind.heading? = some name) ∨ name = "ApiProperty" := by
    intro name
    rw [headings_mapM_ofProperty hdecorators]
    simp only [List.mem_flatMap, List.mem_append, List.mem_filterMap, List.mem_singleton]
  refine ⟨decorators, hdecorators, fun name => ?_, pairwise_lt_sortedFirsts _, ?_⟩
  · rw [hmem, Code.mem_validatorImports]
    constructor
    · rintro ⟨p, hp, con, hcon, hname⟩
      obtain ⟨htype, hdocumentation, -⟩ := ConstraintKind.decorator?_plain hname
      exact ⟨⟨p, hp, Or.inl ⟨con, hcon, ConstraintKind.heading?_of_decorator? hname⟩⟩,
        hdocumentation, htype⟩
    · rintro ⟨⟨p, hp, ⟨con, hcon, hname⟩ | hname⟩, hdocumentation, htype⟩
      · refine ⟨p, hp, con, hcon, (ConstraintKind.heading?_eq_some hname).resolve_right ?_⟩
        exact fun hclass => htype hclass.2
      · exact absurd hname hdocumentation
  · rw [hmem, Code.usesClasses_eq_true]
    constructor
    · rintro ⟨p, hp, ⟨con, hcon, hname⟩ | hname⟩
      · refine ⟨p, hp, con, hcon, ?_⟩
        rcases ConstraintKind.heading?_eq_some hname with hcheck | ⟨hkind, -⟩
        · exact absurd rfl (ConstraintKind.decorator?_plain hcheck).1
        · exact hkind
      · exact absurd hname (by decide)
    · rintro ⟨p, hp, con, hcon, hkind⟩
      refine ⟨p, hp, Or.inl ⟨con, hcon, ?_⟩⟩
      rw [hkind]
      rfl

/-- A document of books: texts in some form, numbers with bounds and lists of authors. -/
def library : Document where
  tag := 0
  root := .obj [("components", .obj [("schemas", .obj [
    ("Book", .obj [
      ("required", .arr [.str "code"]),
      ("properties", .obj [
        ("code", .obj [("type", .str "string"), ("pattern", .str "^[A-Z]/[0-9]+$")]),
        ("pages", .obj [("type", .str "integer"), ("minimum", .int 1)]),
        ("authors", .obj [("type", .str "array"), ("items", referenceTo "Author")])])]),
    ("Author", .obj [("properties", .obj [
      ("mail", .obj [("type", .str "string"), ("format", .str "email")])])])])])]
  linked := false

/-- The kinds of the constraints on the properties of each model. -/
def kindsOf (batch : ModelBatch) : List (List (List ConstraintKind)) :=
  batch.models.map fun m => m.properties.map fun p => p.constraints.map (·.kind)

/-- The file of the models of `library` imports what heads its lines. -/
theorem library_imports :
    ∃ c batch decorators, ofDocument library false none = .ok c ∧ c.compileAll [] = .ok batch ∧
      kindsOf batch =
        [[[.optional, .string, .email]], [[.string, .pattern], [.optional, .int, .min],
          [.optional, .array, .nested, .type]]] ∧
      (batch.models.flatMap (·.properties)).mapM Decorator.ofProperty = .ok decorators ∧
      (∀ name, name ∈ Code.validatorImports batch.models ↔
        name ∈ headings decorators.flatten ∧ name ≠ "ApiProperty" ∧ name ≠ "Type") ∧
      "Type" ∈ headings decorators.flatten := by
  have hrun : (do
      let c ← ofDocument library false none
      let batch ← c.compileAll []
      pure (kindsOf batch, Code.usesClasses batch.models)).toOption =
      some ([[[.optional, .string, .email]], [[.string, .pattern], [.optional, .int, .min],
        [.optional, .array, .nested, .type]]], true) := by
    decide +kernel
  obtain ⟨c, hc, h⟩ := bind_eq_ok.mp (eq_ok_of_toOption hrun)
  obtain ⟨batch, hbatch, h⟩ := bind_eq_ok.mp h
  obtain ⟨hkinds, hclasses⟩ := Prod.mk.inj (pure_eq_ok.mp h)
  obtain ⟨decorators, hdecorators, hnames, -, htype⟩ := compileWithin_imports hbatch
  exact ⟨c, batch, decorators, hc, hbatch, hkinds, hdecorators, hnames, htype.mpr hclasses⟩

end ModelCompiler

end ApiScaffold
