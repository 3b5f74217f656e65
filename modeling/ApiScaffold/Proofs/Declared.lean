import ApiScaffold.Proofs.Built
import ApiScaffold.Proofs.Collecting
import ApiScaffold.Proofs.Pointers
import ApiScaffold.Proofs.Runs

set_option autoImplicit false

/-! # Declared enumerations

The names in the types of properties are those of plain types, of models of the batch, and of
enumerations. Mapping finds enumerations where collecting does not look: behind the members of a
union, behind a member of `allOf` or an alias, and at pointers into schemas. Every enumeration that a
property names is declared unless it was overlooked in one of these ways (`Overlooked`). -/

namespace ApiScaffold.ModelCompiler

open Mapper EnumCollection

variable {c : ModelCompiler} {w done : Worklist} {D : Set Document} {document : Document}
  {strict : Bool} {spec : Option String}

/-! ## The schemas of a document -/

theorem ofDocument_eq_ok (h : ofDocument document strict spec = .ok c) :
    Mapper.ofDocument document spec = .ok c.mapper ∧ c.strict = strict := by
  obtain ⟨mapper, hmapper, h⟩ := bind_eq_ok.mp h
  cases pure_eq_ok.mp h
  exact ⟨hmapper, rfl⟩

/-- All schemas that a plain document offers are at their places. -/
theorem offers_of_document (hD : Sources D) (hdocument : document ∈ D)
    (hplain : document.linked = false) (hc : ofDocument document strict spec = .ok c) :
    Offers (Stands D) c := by
  obtain ⟨hcomponents, hresolver, -⟩ := Mapper.ofDocument_eq_ok (ofDocument_eq_ok hc).1
  obtain ⟨parts, schemas, hparts, hschemas, hlast⟩ := Schema.components_eq_ok hcomponents
  have hP : Closed (Stands D) := hD.closed
  have htop : Stands D document.top := stands_top hdocument
  have hfalsy : ∀ {n : Node}, n.document = document → n.truthy = .ok false →
      n.value.truthy = false := by
    intro n hn h
    rw [Node.truthy_of_plain (hn ▸ hplain)] at h
    exact Except.ok.inj h
  have hpartsStands : Stands D parts := hP.get htop hparts
  have hpartsPlain : parts.document = document := by
    obtain ⟨_, -, heq⟩ := Node.get_of_plain hplain hparts
    exact heq ▸ rfl
  have hfound : Stands D schemas ∧ schemas.document = document := by
    rcases hschemas with ⟨-, hget⟩ | ⟨hno, heq⟩
    · obtain ⟨_, -, heq⟩ := Node.get_of_plain (hpartsPlain ▸ hplain) hget
      exact ⟨hP.get hpartsStands hget, heq ▸ hpartsPlain⟩
    · exact ⟨heq ▸ hpartsStands.part_of_falsy (hfalsy hpartsPlain hno) _, heq ▸ hpartsPlain⟩
  rcases hlast with ⟨-, heq⟩ | ⟨hno, heq⟩
  · exact ⟨hP, hresolver ▸ htop, fun fields hfields => hP.fields hfound.1 (heq ▸ hfields),
      fun key n hget => hP.get hfound.1 (heq ▸ hget)⟩
  · -- the stand-in is at no place, but what it is asked for is
    have hstandIn : c.mapper.components.document.linked = false := heq ▸ hfound.2 ▸ hplain
    refine ⟨hP, hresolver ▸ htop, ?_, ?_⟩
    · intro fields hfields
      obtain ⟨found, hvalue, rfl⟩ := Node.fields_of_plain hstandIn hfields
      rw [heq] at hvalue
      obtain rfl : [] = found := Json.obj.inj hvalue
      exact fun f hf => absurd hf List.not_mem_nil
    · intro key n hget
      obtain ⟨found, hvalue, rfl⟩ := Node.get_of_plain hstandIn hget
      rw [heq] at hvalue ⊢
      obtain rfl : [] = found := Json.obj.inj hvalue
      exact hfound.1.part_of_falsy (hfalsy hfound.2 hno) key

/-- Models are compiled from schemas among those that the compiler starts from and finds. -/
theorem compiled_in {P : Node → Prop} (h : Offers P c) {extra : List (String × Node)}
    (hextra : ∀ e ∈ extra, P e.2) {enums : EnumCollection} {limit : Nat}
    (hstart : c.start extra = .ok (w, enums)) (hdrain : c.drain limit w = .ok done) :
    ∀ m ∈ done.compiled, P m.schema := by
  intro m hm
  have hin : SchemasIn P done.registry :=
    drain_schemasIn h (start_schemasIn h hextra hstart) hdrain
  obtain ⟨e, he, -, hobject⟩ := (drain_sourced (start_sourced hstart) hdrain).compiled m hm
  exact objectOf_in h (hin e (List.mem_append_left _ he)) hobject

/-! ## Names of enumerations -/

/-- The enumerations among the named schemas are there from the start, and nothing was visited. -/
theorem seed_declares {registry : Registry} {enums : EnumCollection}
    (h : c.seed = .ok (registry, enums)) : enums.visited = [] ∧
      ∃ fields, c.mapper.components.fields = .ok fields ∧ ∀ f ∈ fields,
        Schema.isStringEnum f.2 = .ok true → Naming.enumName f.1 ∈ enums.names := by
  obtain ⟨fields, step, hfields, hstep, h⟩ := seed_eq_ok h
  refine ⟨?_, fields, hfields, ?_⟩
  · refine foldlM_keeps (P := fun s : Registry × EnumCollection => s.2.visited = []) ?_ rfl h
    intro s s' f _ hs hrun
    cases hstep s f s' hrun with
    | texts => exact (enums_add _ _ _).2.trans hs
    | model => exact hs
    | other => exact hs
  · refine foldlM_each (Q := fun f (s : Registry × EnumCollection) =>
      Schema.isStringEnum f.2 = .ok true → Naming.enumName f.1 ∈ s.2.names) ?_ ?_ h
    · intro s s' f _ hrun hlists
      cases hstep s f s' hrun with
      | texts _ hvalues => exact mem_names_add (listed_ne_nil hlists hvalues)
      | model hno => cases hlists.symm.trans hno
      | other hno => cases hlists.symm.trans hno
    · intro x s s' f _ hs hrun hlists
      cases hstep s f s' hrun with
      | texts => exact ((enums_add _ _ _).1.map _).subset (hs hlists)
      | model => exact hs hlists
      | other => exact hs hlists

/-- What collecting adds to the enumerations that were there from the start. -/
theorem finish_enums {enums : EnumCollection} {batch : ModelBatch}
    (h : c.finish enums done = .ok batch) :
    ∃ found, Yields ((done.compiled.map (·.schema)).forM (collect (some c.mapper.resolver)))
      enums () found ∧ batch.enums = found.enums := by
  unfold finish at h
  dsimp only at h
  split at h
  · cases h
  · obtain ⟨models, -, h⟩ := bind_eq_ok.mp h
    split at h
    · next found hwalk =>
        cases pure_eq_ok.mp h
        refine ⟨found, ?_, rfl⟩
        rw [List.forM_eq_forM, List.forM_map]
        exact hwalk
    · exact absurd h throw_ne_ok

/-- The names of the enumerations of a batch. -/
def enumNames (batch : ModelBatch) : List String := batch.enums.map (·.name)

/-- A name that neither a named schema nor a property of a compiled model has for the texts that it
lists. -/
structure Unlisted (c : ModelCompiler) (done : Worklist) (name : String) : Prop where
  schema : ∀ fields, c.mapper.components.fields = .ok fields → ∀ f ∈ fields,
    Schema.isStringEnum f.2 = .ok true → name ≠ Naming.enumName f.1
  property : ∀ m ∈ done.compiled, ∀ gathered,
    Gathered.ofSchema c.mapper.resolver m.schema = .ok gathered →
    ∀ p ∈ gathered.properties, ListsTexts p.2 → name ≠ Naming.enumName p.1

/-- An enumeration that mapping a property names and collecting does not find: the texts are listed
behind the schema of the property, or where a pointer leads that does not name a schema. -/
inductive Overlooked (c : ModelCompiler) (done : Worklist) (property : String) (schema : Node)
    (name : String) : Prop where
  | behind {n : Node} (hname : name = Naming.enumName property)
      (hn : Relation.TransGen (Through c.mapper) schema n) (hlists : ListsTexts n)
      (h : Unlisted c done name)
  | stray {n target : Node} {pointer : String}
      (hname : name = Naming.enumName (Pointer.name pointer))
      (hn : Relation.ReflTransGen (Part c.mapper) schema n)
      (href : RefersToTexts c.mapper n pointer target)
      (hpointer : Pointer.namesSchema pointer = false) (h : Unlisted c done name)

/-- The enumerations that a property of a batch names are declared in it or overlooked, and all
other names in its type are those of plain types and of models. -/
structure Declared (c : ModelCompiler) (done : Worklist) (batch : ModelBatch) (q : String × Node)
    (p : Property) : Prop where
  name : p.name = q.1
  constraints : ∀ con ∈ p.constraints, con.kind = .enum → ∃ name, con.value = .text name ∧
    (name ∈ enumNames batch ∨ Overlooked c done q.1 q.2 name)
  type : ∃ t : TypeExpr, p.typeExpression = t.text ∧ ∀ name ∈ t.names, name ∈ plainTypes ∨
    name ∈ batch.names ∨ name ∈ enumNames batch ∨ Overlooked c done q.1 q.2 name

theorem mem_of_mem_marked {required : Bool} {cons : List Constraint} {con : Constraint}
    (h : con ∈ Property.marked required cons) (hkind : con.kind ≠ .optional) : con ∈ cons := by
  unfold Property.marked at h
  split at h
  · exact List.mem_of_mem_filter h
  · rcases List.mem_cons.mp h with rfl | h
    · exact absurd rfl hkind
    · exact List.mem_of_mem_filter h

/-! ## Declared or overlooked -/

section Names

variable {batch : ModelBatch} {property : String} {schema : Node} {name : String}

/-- What a finished worklist declares: the texts that named schemas and properties of compiled models
list. -/
structure Declares (c : ModelCompiler) (done : Worklist) (batch : ModelBatch) : Prop where
  schema : ∃ fields, c.mapper.components.fields = .ok fields ∧ ∀ f ∈ fields,
    Schema.isStringEnum f.2 = .ok true → Naming.enumName f.1 ∈ enumNames batch
  property : ∀ m ∈ done.compiled, ∀ gathered,
    Gathered.ofSchema c.mapper.resolver m.schema = .ok gathered →
    ∀ p ∈ gathered.properties, ListsTexts p.2 → Naming.enumName p.1 ∈ enumNames batch

theorem Declares.unlisted (h : Declares c done batch) (hnot : name ∉ enumNames batch) :
    Unlisted c done name := by
  obtain ⟨found, hfound, hdeclared⟩ := h.schema
  refine ⟨?_, ?_⟩
  · rintro fields hfields f hf hlists rfl
    obtain rfl : found = fields := Except.ok.inj (hfound.symm.trans hfields)
    exact hnot (hdeclared f hf hlists)
  · rintro m hm gathered hgathered p hp hlists rfl
    exact hnot (h.property m hm gathered hgathered p hp hlists)

/-- A finished worklist of a plain document declares what it should. -/
theorem declares_of_finish (hD : Sources D) (hdocument : document ∈ D)
    (hplain : document.linked = false) (hc : ofDocument document strict spec = .ok c)
    {extra : List (String × Node)} (hextra : ∀ e ∈ extra, Stands D e.2) {enums : EnumCollection}
    {limit : Nat} (hstart : c.start extra = .ok (w, enums)) (hdrain : c.drain limit w = .ok done)
    (hfinish : c.finish enums done = .ok batch) : Declares c done batch := by
  have hoffers : Offers (Stands D) c := offers_of_document hD hdocument hplain hc
  have hresolver := (Mapper.ofDocument_eq_ok (ofDocument_eq_ok hc).1).2.1
  -- the walks begin at places, so two that meet at a place meet the same node
  have hcompiled : ∀ n ∈ done.compiled.map (·.schema), Stands D n := by
    intro n hn
    obtain ⟨m, hm, rfl⟩ := List.mem_map.mp hn
    exact compiled_in hoffers hextra hstart hdrain m hm
  obtain ⟨⟨registry, seeded⟩, hseed, hrest⟩ := bind_eq_ok.mp hstart
  cases pure_eq_ok.mp hrest
  obtain ⟨hfresh, fields, hfields, hseeded⟩ := seed_declares hseed
  obtain ⟨found, hwalk, hfound⟩ := finish_enums hfinish
  obtain ⟨hgrows, hall⟩ := forM_collect_declares hD (hresolver ▸ hdocument) hcompiled hfresh hwalk
  refine ⟨⟨fields, hfields, fun f hf hlists => ?_⟩, ?_⟩
  · rw [enumNames, hfound]
    exact (hgrows.map _).subset (hseeded f hf hlists)
  · intro m hm gathered hgathered p hp hlists
    rw [enumNames, hfound]
    exact hall m.schema (List.mem_map_of_mem hm) gathered p hgathered hp hlists

/-- An enumeration that is referred to is declared when the pointer names a schema. -/
theorem Declares.refers (h : Declares c done batch) (hplain : document.linked = false)
    (hc : ofDocument document strict spec = .ok c)
    (hname : Refers c.mapper (Part c.mapper) schema name) :
    name ∈ enumNames batch ∨ Overlooked c done property schema name := by
  obtain ⟨n, pointer, target, hn, hrefers, rfl⟩ := hname
  by_cases hpointer : Pointer.namesSchema pointer = true
  · obtain ⟨fields, hfields, hdeclared⟩ := h.schema
    have hmem := Mapper.mem_fields_of_locate (ofDocument_eq_ok hc).1 hplain hpointer
      (find_eq_some hrefers.found).1 hfields
    exact Or.inl (hdeclared (Pointer.name pointer, target) hmem hrefers.lists)
  · by_cases hmem : Naming.enumName (Pointer.name pointer) ∈ enumNames batch
    · exact Or.inl hmem
    · exact Or.inr (.stray rfl hn hrefers (by simpa using hpointer) (h.unlisted hmem))

/-- An enumeration that values are checked against is declared when the schema of the property lists
its texts itself. -/
theorem Declares.checks (h : Declares c done batch) (hplain : document.linked = false)
    (hc : ofDocument document strict spec = .ok c) {m : Compiled} (hm : m ∈ done.compiled)
    {gathered : Gathered} (hgathered : Gathered.ofSchema c.mapper.resolver m.schema = .ok gathered)
    (hproperty : (property, schema) ∈ gathered.properties)
    (hname : ChecksAgainst c.mapper property schema name) :
    name ∈ enumNames batch ∨ Overlooked c done property schema name := by
  rcases hname with ⟨n, hn, hlists, rfl⟩ | ⟨n, pointer, target, hn, hrefers, rfl⟩
  · rcases Relation.reflTransGen_iff_eq_or_transGen.mp hn with rfl | hn
    · exact Or.inl (h.property m hm gathered hgathered (property, n) hproperty hlists)
    · by_cases hmem : Naming.enumName property ∈ enumNames batch
      · exact Or.inl hmem
      · exact Or.inr (.behind rfl hn hlists (h.unlisted hmem))
  · have hparts : Relation.ReflTransGen (Part c.mapper) schema n :=
      Relation.ReflTransGen.mono (fun _ _ hstep => Through.part hstep) _ _ hn
    exact h.refers hplain hc ⟨n, pointer, target, hparts, hrefers, rfl⟩

end Names

/-- Every enumeration that a property of a batch names is declared in the batch, unless it was
overlooked. -/
theorem compileWithin_declares (hD : Sources D) (hdocument : document ∈ D)
    (hplain : document.linked = false) (hc : ofDocument document strict spec = .ok c)
    {extra : List (String × Node)} (hextra : ∀ e ∈ extra, Stands D e.2) {limit : Nat}
    {batch : ModelBatch} (h : c.compileWithin limit extra = .ok batch) :
    ∃ w enums done, c.start extra = .ok (w, enums) ∧ c.drain limit w = .ok done ∧
      c.finish enums done = .ok batch ∧
      ∀ model ∈ batch.models, ∃ m ∈ done.compiled, m.model.name = model.name ∧
        ∃ gathered, Gathered.ofSchema c.mapper.resolver m.schema = .ok gathered ∧
          List.Forall₂ (Declared c done batch) gathered.properties model.properties := by
  obtain ⟨w, enums, done, hstart, hdrain, hfinish⟩ := compileWithin_eq_ok h
  refine ⟨w, enums, done, hstart, hdrain, hfinish, ?_⟩
  have hdeclares := declares_of_finish hD hdocument hplain hc hextra hstart hdrain hfinish
  have hdone : Consistent c done := drain_consistent (start_consistent hstart) hdrain
  intro model hmodel
  obtain ⟨m, hm, hname, hbuilt⟩ := (built_of_finish hdone hfinish).2.1 model hmodel
  obtain ⟨gathered, blocked, hgathered, hall⟩ := hbuilt.properties
  refine ⟨m, hm, hname, gathered, hgathered, ?_⟩
  have hlisted := (List.forall₂_and_left (p := (· ∈ gathered.properties)) _ _).mpr
    ⟨fun q hq => hq, hall⟩
  refine hlisted.imp ?_
  rintro q p ⟨hq, required, mapped, description, sample, s, t, hmapped, hused, rfl⟩
  have hsound := mapProperty_sound hmapped
  refine ⟨rfl, ?_, mapped.type, rfl, ?_⟩
  · intro con hcon hkind
    have hmem : con ∈ mapped.constraints := mem_of_mem_marked hcon (by simp [hkind])
    obtain ⟨name, hvalue, hchecks⟩ := hsound.enums con hmem hkind
    exact ⟨name, hvalue, hdeclares.checks hplain hc hm hgathered hq hchecks⟩
  · intro name hname
    rcases hsound.names name hname with hplainType | hnoted | hrefers
    · exact Or.inl hplainType
    · exact Or.inr (Or.inl (mem_names_of_used hdone hfinish hmodel (hused hnoted)))
    · exact Or.inr (Or.inr (hdeclares.refers hplain hc hrefers))

/-- A document in which a property lists its texts itself, and another one refers to a schema that
does. -/
def listing : Document where
  tag := 0
  root := .obj [("components", .obj [("schemas", .obj [
    ("Order", .obj [("properties", .obj [
      ("status", .obj [("type", .str "string"), ("enum", .arr [.str "new", .str "paid"])]),
      ("priority", referenceTo "Priority")])]),
    ("Priority", .obj [("type", .str "string"), ("enum", .arr [.str "low", .str "high"])])])])]
  linked := false

/-- In `listing` both enumerations are declared. -/
theorem listing_declares :
    ∃ c w enums done batch, ofDocument listing false none = .ok c ∧
      c.compileAll [] = .ok batch ∧ enumNames batch = ["PriorityEnum", "StatusEnum"] ∧
      c.start [] = .ok (w, enums) ∧ c.drain modelLimit w = .ok done ∧
      c.finish enums done = .ok batch ∧
      ∀ model ∈ batch.models, ∃ m ∈ done.compiled, m.model.name = model.name ∧
        ∃ gathered, Gathered.ofSchema c.mapper.resolver m.schema = .ok gathered ∧
          List.Forall₂ (Declared c done batch) gathered.properties model.properties := by
  have hrun : (do
      let c ← ofDocument listing false none
      let batch ← c.compileAll []
      pure (enumNames batch)).toOption = some ["PriorityEnum", "StatusEnum"] := by
    decide +kernel
  obtain ⟨c, hc, h⟩ := bind_eq_ok.mp (eq_ok_of_toOption hrun)
  obtain ⟨batch, hbatch, h⟩ := bind_eq_ok.mp h
  obtain ⟨w, enums, done, hstart, hdrain, hfinish, hall⟩ :=
    compileWithin_declares (sources_singleton (by decide)) (Set.mem_singleton listing) rfl hc
      (by simp) hbatch
  exact ⟨c, w, enums, done, batch, hc, hbatch, pure_eq_ok.mp h, hstart, hdrain, hfinish, hall⟩

/-! ## An enumeration behind a union -/

/-- A document in which a property lists its texts behind a union with the null type. -/
def nullable : Document where
  tag := 0
  root := .obj [("components", .obj [("schemas", .obj [
    ("Order", .obj [("properties", .obj [
      ("status", .obj [("anyOf", .arr [
        .obj [("type", .str "string"), ("enum", .arr [.str "new", .str "paid"])],
        .obj [("type", .str "null")]])])])])])])]
  linked := false

/-- The constraints of the properties of a model. -/
def constraintsOf (m : Model) : List (List Constraint) := m.properties.map (·.constraints)

/-- In `nullable` the property is checked against an enumeration that is not declared. -/
theorem nullable_overlooked :
    ∃ c batch, ofDocument nullable false none = .ok c ∧ c.compileAll [] = .ok batch ∧
      enumNames batch = [] ∧ batch.models.map constraintsOf = [[[
        { kind := .optional }, { kind := .string },
        { kind := .enum, value := .text "StatusEnum" }]]] := by
  have hrun : (do
      let c ← ofDocument nullable false none
      let batch ← c.compileAll []
      pure (enumNames batch, batch.models.map constraintsOf)).toOption =
      some ([], [[[{ kind := .optional }, { kind := .string },
        { kind := .enum, value := .text "StatusEnum" }]]]) := by
    decide
  obtain ⟨c, hc, h⟩ := bind_eq_ok.mp (eq_ok_of_toOption hrun)
  obtain ⟨batch, hbatch, h⟩ := bind_eq_ok.mp h
  obtain ⟨hnames, hconstraints⟩ := Prod.mk.inj (pure_eq_ok.mp h)
  exact ⟨c, batch, hc, hbatch, hnames, hconstraints⟩

end ApiScaffold.ModelCompiler
