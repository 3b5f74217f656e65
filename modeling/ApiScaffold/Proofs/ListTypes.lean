import ApiScaffold.Code.Decorator
import ApiScaffold.Proofs.Compiling
import ApiScaffold.Proofs.Outputs
import ApiScaffold.Proofs.Typed
import ApiScaffold.Proofs.Uses

set_option autoImplicit false

/-! # Types that end like lists

Whether a property holds a list is told by the last characters of its type, and the type of its
items is handed on beside it. The two agree, but for a union whose last member ends like a list
(`mapProperty_isArray`): that union is taken for a list, and has no type of items. -/

namespace ApiScaffold

/-! ## The end of a type -/

namespace Text

/-- What ends with other brackets, or with none, does not end like a list. -/
theorem not_finishesWith_brackets {name : String} {c : Char} (h : name.toList.getLast? = some c)
    (hc : c ≠ ']') : finishesWith "[]" name = false := by
  rw [← Bool.not_eq_true, finishesWith_iff]
  rintro ⟨front, heq⟩
  rw [← heq, List.getLast?_append] at h
  exact hc (Option.some.inj h).symm

/-- The brackets of a list do not begin in front of a bar. -/
theorem finishesWith_behind_bar (front back : String) :
    finishesWith "[]" (front ++ " | " ++ back) = finishesWith "[]" back := by
  rw [Bool.eq_iff_iff, finishesWith_iff, finishesWith_iff, String.toList_append,
    String.toList_append, ← List.reverse_prefix, ← List.reverse_prefix, List.reverse_append]
  -- only the last two characters matter, and a bar is longer than that
  match back.toList.reverse with
  | [] => simp
  | [c] => simp [List.prefix_cons_iff]
  | c :: d :: rest => simp

theorem finishesWith_union (front : List String) (last : String) :
    finishesWith "[]" (" | ".intercalate (front ++ [last])) = finishesWith "[]" last := by
  cases front with
  | nil => simp
  | cons t front =>
      rw [String.intercalate_append_of_ne_nil (List.cons_ne_nil t front) (List.cons_ne_nil last []),
        String.intercalate_singleton, finishesWith_behind_bar]

end Text

namespace TypeExpr

variable {t : TypeExpr}

/-- The type of the items of a list. -/
def item? : TypeExpr → Option TypeExpr
  | .list item => some item
  | .listOfClass name => some (.named name)
  | _ => none

/-- A type that ends with the brackets of a list: it is one, or a union whose last member ends
so. -/
inductive EndsInList : TypeExpr → Prop where
  | list {item : TypeExpr} : EndsInList (.list item)
  | listOfClass {name : String} : EndsInList (.listOfClass name)
  | union {front : List TypeExpr} {last : TypeExpr} (h : EndsInList last) :
      EndsInList (.union (front ++ [last]))

/-- A union whose last member ends like a list. -/
def IsListAtEnd (t : TypeExpr) : Prop :=
  ∃ front last, t = .union (front ++ [last]) ∧ last.EndsInList

theorem endsInList_union {front : List TypeExpr} {last : TypeExpr} :
    EndsInList (.union (front ++ [last])) ↔ EndsInList last := by
  refine ⟨fun h => ?_, .union⟩
  generalize heq : TypeExpr.union (front ++ [last]) = t at h
  cases h with
  | list | listOfClass => cases heq
  | union h =>
      obtain ⟨-, hlast⟩ := List.append_inj' (TypeExpr.union.inj heq) rfl
      cases hlast
      exact h

/-- What ends like a list is one, or is a union that does. -/
theorem endsInList_iff : t.EndsInList ↔ t.item?.isSome = true ∨ t.IsListAtEnd := by
  constructor
  · rintro (_ | _ | ⟨h⟩)
    · exact Or.inl rfl
    · exact Or.inl rfl
    · exact Or.inr ⟨_, _, rfl, h⟩
  · rintro (h | ⟨front, last, rfl, h⟩)
    · cases t with
      | list item => exact .list
      | listOfClass name => exact .listOfClass
      | named name | union members | record value => cases h
    · exact .union h

theorem not_item?_of_isListAtEnd (h : t.IsListAtEnd) : t.item? = none := by
  obtain ⟨front, last, rfl, -⟩ := h
  rfl

/-- When no name in it ends like a list, the text of a type ends so just when the type does. -/
theorem finishesWith_text (t : TypeExpr)
    (h : ∀ name ∈ t.names, Text.finishesWith "[]" name = false) :
    Text.finishesWith "[]" t.text = true ↔ t.EndsInList := by
  cases t with
  | named name =>
      have hname : Text.finishesWith "[]" name = false := h name (List.mem_singleton_self name)
      rw [text_named, hname]
      refine iff_of_false (by decide) fun hend => ?_
      cases hend
  | list item =>
      refine iff_of_true ?_ .list
      rw [text_list]
      split
      · rw [Text.finishesWith_iff, String.toList_append]
        exact List.IsSuffix.trans ⟨[')'], rfl⟩ (List.suffix_append _ _)
      · exact Text.finishesWith_append (by decide)
  | listOfClass name => exact iff_of_true (Text.finishesWith_append (by decide)) .listOfClass
  | record value =>
      have hlast : (TypeExpr.record value).text.toList.getLast? = some '>' := by
        rw [text_record, String.toList_append]
        exact List.getLast?_concat
      rw [Text.not_finishesWith_brackets hlast (by decide)]
      refine iff_of_false (by decide) fun hend => ?_
      cases hend
  | union members =>
      rw [text_union, texts_eq_map]
      rcases List.eq_nil_or_concat' members with hnil | ⟨front, last, hmembers⟩
      · rw [hnil]
        refine iff_of_false (by decide) fun h => ?_
        rcases endsInList_iff.mp h with h | ⟨front, last, heq, -⟩
        · cases h
        · exact List.append_ne_nil_of_right_ne_nil front (List.cons_ne_nil last [])
            (TypeExpr.union.inj heq).symm
      · have hmem : last ∈ members := by simp [hmembers]
        have hlast : ∀ name ∈ last.names, Text.finishesWith "[]" name = false := fun name hname =>
          h name (mem_namesOf.mpr ⟨last, hmem, hname⟩)
        rw [hmembers, List.map_append, List.map_singleton, Text.finishesWith_union,
          endsInList_union]
        exact finishesWith_text last hlast

end TypeExpr

/-! ## Mapping -/

namespace Mapper

open ModelCompiler (propertyOf)

variable {m : Mapper} {ctx : MappingContext} {n : Node} {s t : MapperState} {a : MappedType}

/-- The class of a schema has a name that is made like all names of classes. -/
theorem ClassFor.eq_ofBase {r r' : Registry} {name : String}
    (hclasses : ∀ schema, m.names.classOf schema = ModelName.ofBase schema)
    (h : ClassFor m ctx n r name r') : ∃ base, name = ModelName.ofBase base := by
  cases h with
  | component _ hname | alike _ hname => exact ⟨_, hname.trans (hclasses _)⟩
  | target _ _ hclaim | inPlace _ hclaim =>
      obtain ⟨-, -, _, -, -, rfl, -⟩ := Registry.claim_spec hclaim
      exact ⟨_, rfl⟩

/-- The type of items is that of the type, and no name in the type ends like a list. -/
structure KnowsItems (a : MappedType) : Prop where
  item : a.itemType = a.type.item?
  names : ∀ name ∈ a.type.names, Text.finishesWith "[]" name = false

theorem KnowsItems.isArray_iff (h : KnowsItems a) : a.isArray = true ↔ a.type.EndsInList :=
  TypeExpr.finishesWith_text a.type h.names

theorem knowsItems_named {a : MappedType} {name : String} (htype : a.type = .named name)
    (hitem : a.itemType = none) (hname : Text.finishesWith "[]" name = false) : KnowsItems a where
  item := by
    rw [hitem, htype]
    rfl
  names other hother := by
    rw [htype] at hother
    exact List.mem_singleton.mp hother ▸ hname

theorem knowsItems_plain (h : PlainType ctx n a) : KnowsItems a := by
  obtain ⟨name, hname, htype⟩ := h.type
  have hall : ∀ name ∈ plainTypes, Text.finishesWith "[]" name = false := by decide
  exact knowsItems_named htype h.item (hall name hname)

theorem not_finishesWith_ofBase (base : String) :
    Text.finishesWith "[]" (ModelName.ofBase base) = false :=
  Text.not_finishesWith_brackets (last_ofBase base) (by decide)

theorem knowsItems_unionType {types : List MappedType} (h : ∀ a ∈ types, KnowsItems a) :
    KnowsItems (unionType types) := by
  rcases unionType_cases types with hany | hmem | ⟨members, hsub, hunion⟩
  · rw [hany]
    exact knowsItems_named rfl rfl (by decide)
  · exact h _ hmem
  · rw [hunion]
    refine ⟨rfl, fun name hname => ?_⟩
    obtain ⟨u, hu, hname⟩ := TypeExpr.mem_namesOf.mp hname
    obtain ⟨a, ha, rfl⟩ := List.mem_map.mp (hsub hu)
    exact (h a ha).names name hname

/-- Every way to map a schema hands on the type of the items of a list. -/
theorem knowsItems_rules (hclasses : ∀ schema, m.names.classOf schema = ModelName.ofBase schema) :
    MapRules m ctx fun _ _ a _ => KnowsItems a where
  plain hplain _ := knowsItems_plain hplain
  texts {_ _ pointer _ _} _ _ := by
    have hlast : (Naming.enumName (Pointer.name pointer)).toList.getLast? = some 'm' := by
      simp [Naming.enumName]
    exact knowsItems_named rfl rfl (Text.not_finishesWith_brackets hlast (by decide))
  through _ h := h
  ofClass huses := by
    obtain ⟨base, rfl⟩ := huses.named.eq_ofBase hclasses
    exact knowsItems_named rfl rfl (not_finishesWith_ofBase base)
  union _ hchain := knowsItems_unionType (hchain.forall_types fun _ _ _ _ _ h => h)
  unknown _ _ := ⟨rfl, fun name hname => List.mem_singleton.mp hname ▸ by decide⟩
  items _ h := ⟨rfl, h.names⟩
  itemsOfClass _ huses := by
    obtain ⟨base, rfl⟩ := huses.named.eq_ofBase hclasses
    exact ⟨rfl, fun name hname => List.mem_singleton.mp hname ▸ not_finishesWith_ofBase base⟩
  record _ h := ⟨rfl, h.names⟩

/-! ## Documentation -/

theorem notMem_unless {condition : Prop} [Decidable condition] {entry other : String}
    (h : entry ≠ other) : entry ∉ (if condition then [] else [other]) := by
  split
  · exact List.not_mem_nil
  · exact fun hmem => h (List.mem_singleton.mp hmem)

/-- A property is documented as a list when its type is taken for one. -/
theorem mem_documentation_isArray {p : Property} :
    "isArray: true" ∈ Decorator.documentation p ↔ p.isArray = true := by
  -- the other entries begin with other words
  have hother (front back : String) (h : front.toList.head? ≠ some 'i') (hne : front.toList ≠ []) :
      "isArray: true" ≠ front ++ back := by
    intro heq
    refine h ?_
    have hhead := congrArg (fun text => text.toList.head?) heq
    simp only [String.toList_append] at hhead
    rw [List.head?_append_of_ne_nil _ hne] at hhead
    exact hhead.symm
  constructor
  · intro h
    by_contra hnot
    rw [Bool.not_eq_true] at hnot
    simp only [Decorator.documentation, hnot, List.mem_append] at h
    rcases h with (((h | h) | h) | h) | h
    · split at h
      · exact notMem_unless (hother _ _ (by decide) (by decide)) h
      · exact List.not_mem_nil h
    · exact notMem_unless (hother _ _ (by decide) (by decide)) h
    · exact notMem_unless (by decide) h
    · rw [String.append_assoc] at h
      exact notMem_unless (hother _ _ (by decide) (by decide)) h
    · rw [if_neg (by decide)] at h
      split at h
      · exact hother _ _ (by decide) (by decide) (List.mem_singleton.mp h)
      · exact List.not_mem_nil h
  · intro h
    simp [Decorator.documentation, h]

/-! ## Properties -/

/-- Mapping a property hands on the type of items for lists, and for nothing else. Where the type is
no union that ends like a list, it is taken for a list just when it is one. A union that ends like a
list is taken for a list and has no type of items. The property is documented as a list in both
cases. -/
theorem mapProperty_isArray {document : Document} {spec : Option String}
    (hm : ofDocument document spec = .ok m) (h : Yields (m.mapProperty n ctx) s a t) :
    a.itemType = a.type.item? ∧
      (¬ a.type.IsListAtEnd → (a.isArray = true ↔ a.itemType.isSome = true)) ∧
      (a.type.IsListAtEnd → a.isArray = true ∧ a.itemType = none) ∧
      ∀ name required description sample,
        "isArray: true" ∈ Decorator.documentation (propertyOf name required a description sample) ↔
          a.itemType.isSome = true ∨ a.type.IsListAtEnd := by
  have hclasses := ModelNames.classOf_of_ofSchemas (ofDocument_eq_ok hm).2.2
  have hknows : KnowsItems a := mapProperty_rules (knowsItems_rules hclasses) h
  have harray : a.isArray = true ↔ a.itemType.isSome = true ∨ a.type.IsListAtEnd := by
    rw [hknows.isArray_iff, TypeExpr.endsInList_iff, hknows.item]
  refine ⟨hknows.item, fun hnot => ?_, fun hend => ⟨harray.mpr (Or.inr hend), ?_⟩, ?_⟩
  · rw [harray, or_iff_left hnot]
  · rw [hknows.item, TypeExpr.not_item?_of_isListAtEnd hend]
  · intro name required description sample
    rw [mem_documentation_isArray]
    exact harray

/-- A document without named schemas. -/
def palette : Document where
  tag := 0
  root := .obj [("components", .obj [("schemas", .obj [])])]
  linked := false

/-- A schema in a document of its own. -/
def written (schema : Json) : Node := (Document.mk 1 schema false).top

/-- A hue is a name or a list of numbers. -/
def hue : Json := .obj [("oneOf", .arr [.obj [("type", .str "string")],
  .obj [("type", .str "array"), ("items", .obj [("type", .str "number")])]])]

/-- A list of hues. -/
def hueList : Json := .obj [("type", .str "array"), ("items", hue)]

/-- The hues of a palette. -/
def hues : MappingContext := { model := "PaletteDto", base := "Palette", property := "hues" }

/-- The type of a list of hues has brackets around the union, and is a list. -/
theorem hues_isArray :
    ∃ m a t, ofDocument palette none = .ok m ∧
      Yields (m.mapProperty (written hueList) hues) {} a t ∧
      a.type.text = "(string | number[])[]" ∧ ¬ a.type.IsListAtEnd ∧
      a.itemType.map TypeExpr.text = some "string | number[]" ∧ a.isArray = true ∧
      "isArray: true" ∈ Decorator.documentation (propertyOf "hues" true a none .null) := by
  have hrun : (do
      let m ← ofDocument palette none
      let a ← ((m.mapProperty (written hueList) hues).run.run {}).1
      pure (a.type.text, a.itemType.map TypeExpr.text)).toOption =
      some ("(string | number[])[]", some "string | number[]") := by
    with_unfolding_all decide
  obtain ⟨m, hm, h⟩ := bind_eq_ok.mp (eq_ok_of_toOption hrun)
  obtain ⟨a, ha, h⟩ := bind_eq_ok.mp h
  obtain ⟨htext, hitems⟩ := Prod.mk.inj (pure_eq_ok.mp h)
  have hyields : Yields (m.mapProperty (written hueList) hues) {} a _ := Prod.ext ha rfl
  obtain ⟨hitem, hlist, -, hdocumented⟩ := mapProperty_isArray hm hyields
  have hsome : a.itemType.isSome = true := by
    rw [← Option.isSome_map, hitems]
    rfl
  have hnot : ¬ a.type.IsListAtEnd := by
    intro hend
    rw [hitem, TypeExpr.not_item?_of_isListAtEnd hend] at hsome
    cases hsome
  exact ⟨m, a, _, hm, hyields, htext, hnot, hitems, (hlist hnot).mpr hsome,
    (hdocumented _ _ _ _).mpr (Or.inl hsome)⟩

/-- A hue is no list, but it is taken for one. -/
theorem hue_isArray :
    ¬ ∀ (document : Document) (spec : Option String) (m : Mapper) (n : Node)
      (ctx : MappingContext) (s t : MapperState) (a : MappedType),
      ofDocument document spec = .ok m → Yields (m.mapProperty n ctx) s a t →
        (a.isArray = true ↔ a.itemType.isSome = true) := by
  intro hall
  have hrun : (do
      let m ← ofDocument palette none
      let a ← ((m.mapProperty (written hue) hues).run.run {}).1
      pure (a.isArray, a.itemType.isSome)).toOption = some (true, false) := by
    with_unfolding_all decide
  obtain ⟨m, hm, h⟩ := bind_eq_ok.mp (eq_ok_of_toOption hrun)
  obtain ⟨a, ha, h⟩ := bind_eq_ok.mp h
  obtain ⟨harray, hitem⟩ := Prod.mk.inj (pure_eq_ok.mp h)
  have hsome := (hall palette none m (written hue) hues {} _ a hm
    (Prod.ext ha rfl)).mp harray
  rw [hitem] at hsome
  cases hsome

end Mapper

end ApiScaffold
