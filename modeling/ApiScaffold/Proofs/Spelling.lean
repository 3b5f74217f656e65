import ApiScaffold.Proofs.Identifiers
import ApiScaffold.Proofs.Responses

set_option autoImplicit false

/-! # How names are spelled

The names of classes and enumerations copy texts of the document: what it calls schemas, what its
references end with, the names of operations, the statuses of responses and the names of properties.
Nothing but the case of a first letter is changed on the way. So a name is an identifier just when
identifiers may begin with the first of its texts and may hold the others
(`Spells.isIdentifier_iff`). -/

namespace ApiScaffold

/-! ## Classes that mapping registers -/

namespace Mapper

variable {m : Mapper} {ctx : MappingContext} {n b : Node} {s t u : MapperState}

theorem ClassFor.mem_names {r r' : Registry} {name x : String} (h : ClassFor m ctx n r name r')
    (hx : x ∈ r'.names) : x ∈ r.names ∨ x = name := by
  cases h with
  | component | alike => exact Registry.mem_names_register.mp hx
  | target _ _ hclaim | inPlace _ hclaim =>
      rw [(Registry.claim_spec hclaim).1] at hx
      exact Registry.mem_names_register.mp hx

/-- The names that are new between two states are those of classes for parts of a schema. -/
def Registers (m : Mapper) (ctx : MappingContext) (n : Node) (s t : MapperState) : Prop :=
  ∀ name ∈ t.registry.names, name ∈ s.registry.names ∨
    ∃ b r r', Relation.ReflTransGen (Part m) n b ∧ ClassFor m ctx b r name r'

theorem Registers.refl (s : MapperState) : Registers m ctx n s s := fun _ h => Or.inl h

theorem Registers.trans (h : Registers m ctx n s t) (h' : Registers m ctx n t u) :
    Registers m ctx n s u := by
  intro name hname
  rcases h' name hname with hname | hnew
  · exact h name hname
  · exact Or.inr hnew

theorem Registers.head (h : Registers m ctx b s t) (hstep : Part m n b) :
    Registers m ctx n s t := by
  intro name hname
  rcases h name hname with hname | ⟨a, r, r', ha, hclass⟩
  · exact Or.inl hname
  · exact Or.inr ⟨a, r, r', .head hstep ha, hclass⟩

theorem Gains.registers (h : Gains m ctx n s.registry t.registry) : Registers m ctx n s t := by
  intro x hx
  rcases h with hsame | ⟨name, hclass⟩
  · exact Or.inl (hsame ▸ hx)
  · rcases hclass.mem_names hx with hx | rfl
    · exact Or.inl hx
    · exact Or.inr ⟨n, _, _, .refl, hclass⟩

theorem UsesClass.registers {name : String} (h : UsesClass m ctx n s name t) :
    Registers m ctx n s t :=
  Gains.registers (Or.inr ⟨name, h.named⟩)

theorem registers_chain {all : List Node} {types : List MappedType}
    (hall : ∀ b ∈ all, Part m n b)
    (h : Chain (fun n s _ t => Registers m ctx n s t) all s types t) : Registers m ctx n s t := by
  induction h with
  | nil => exact Registers.refl _
  | skip _ ih => exact ih fun b hb => hall b (List.mem_cons_of_mem _ hb)
  | cons hfirst _ ih =>
      have hrest := ih fun b hb => hall b (List.mem_cons_of_mem _ hb)
      exact (hfirst.head (hall _ List.mem_cons_self)).trans hrest

/-- Every way to map a schema registers nothing but classes for its parts. -/
theorem registers_rules : MapRules m ctx fun n s _ t => Registers m ctx n s t where
  plain _ hgains := hgains.registers
  texts _ _ := Registers.refl _
  through hstep h := h.head hstep.part
  ofClass huses := huses.registers
  union hall hchain := registers_chain (fun _ hb => .variant hall hb) hchain
  unknown hlist hgains := hgains.registers.head (.items hlist.items)
  items hlist h := h.head (.items hlist.items)
  itemsOfClass hlist huses := huses.registers.head (.items hlist.items)
  record hget h := h.head (.values hget)

end Mapper

/-! ## Names of models -/

namespace ModelCompiler

open Mapper

variable {c : ModelCompiler} {ec : EndpointCompiler}

/-- A property of the schema that a model was compiled from. -/
def HasProperty (m : Mapper) (schema : Node) (p : String × Node) : Prop :=
  ∃ gathered, Gathered.ofSchema m.resolver schema = .ok gathered ∧ p ∈ gathered.properties

/-- Compiling a model registers nothing but classes for the parts of its properties. -/
theorem compileOn_registers {m : Mapper} {r r' : Registry} {name source x : String}
    {blocked : List String} {schema : Node} {model : Model}
    (h : compileOn m r name source blocked schema = .ok (model, r')) (hx : x ∈ r'.names) :
    x ∈ r.names ∨ ∃ p n r₀ r₁, HasProperty m schema p ∧ Relation.ReflTransGen (Part m) p.2 n ∧
      ClassFor m { model := name, base := ModelName.base name, property := p.1, blocked } n r₀ x
        r₁ := by
  obtain ⟨t, hrun, rfl⟩ := compileOn_eq_ok.mp h
  obtain ⟨gathered, properties, description, hgathered, hproperties, -, -⟩ :=
    yields_compileModel.mp hrun
  have hall := (yields_mapM (R := fun s t : MapperState => ∀ x ∈ t.registry.names,
    x ∈ s.registry.names ∨ ∃ p n r₀ r₁, HasProperty m schema p ∧
      Relation.ReflTransGen (Part m) p.2 n ∧
      ClassFor m { model := name, base := ModelName.base name, property := p.1, blocked } n r₀ x
        r₁) ?_ ?_ ?_ hproperties).1
  · exact hall x hx
  · exact fun s x hx => Or.inl hx
  · exact fun s t u hst htu x hx => (htu x hx).elim (hst x) Or.inr
  · intro p hp s property t hyields x hx
    obtain ⟨mapped, -, -, hmapped, -⟩ := yields_compileProperty hyields
    rcases mapProperty_rules registers_rules hmapped x hx with hx | ⟨n, r₀, r₁, hn, hclass⟩
    · exact Or.inl hx
    · exact Or.inr ⟨p, n, r₀, r₁, ⟨gathered, hgathered, hp⟩, hn, hclass⟩

/-- How the name of a model is spelled when some models have been compiled, with the text of the
document that it begins with and those that stand behind it. A text behind others, the name of an
operation and what a reference into a schema ends with have their first letter in upper case. -/
inductive Spells (ec : EndpointCompiler) (c : ModelCompiler) (compiled : List Compiled) :
    String → String → List String → Prop where
  /-- The model of a named schema. -/
  | schema {fields : List (String × Node)} {f : String × Node}
      (hfields : c.mapper.components.fields = .ok fields) (hf : f ∈ fields) :
      Spells ec c compiled (ModelName.ofBase f.1) f.1 []
  /-- The model that a reference names. -/
  | reference {m : Compiled} {n : Node} {pointer : String} (hm : m ∈ compiled)
      (hn : Inside c.mapper m.schema n) (hclass : NamesClass c.mapper n pointer) :
      Spells ec c compiled (ModelName.ofBase (Pointer.name pointer)) (Pointer.name pointer) []
  /-- A model made up for what a reference leads to. -/
  | target {m : Compiled} {n target : Node} {pointer : String} {attempt : Nat} (hm : m ∈ compiled)
      (hn : Inside c.mapper m.schema n) (hclass : NamesClass c.mapper n pointer)
      (hfind : c.mapper.resolver.find pointer = .ok (some target)) :
      Spells ec c compiled
        (Registry.candidate (Naming.capitalize (Pointer.name pointer)) attempt)
        (Naming.capitalize (Pointer.name pointer)) []
  /-- A model made up for a response. -/
  | response {operation status : String} {attempt : Nat} (h : ec.Answers operation status) :
      Spells ec c compiled
        (Registry.candidate (EndpointCompiler.responseBase operation status) attempt)
        (Naming.capitalize operation) [status]
  /-- A model made up for an object in place, in a property of another model. -/
  | property {m : Compiled} {p : String × Node} {first suffix : String} {rest : List String}
      {attempt : Nat} (hm : m ∈ compiled) (hmodel : Spells ec c compiled m.model.name first rest)
      (hp : HasProperty c.mapper m.schema p) (hsuffix : suffix ∈ ["", "Item"]) :
      Spells ec c compiled
        (Registry.candidate (ModelName.base m.model.name ++ Naming.capitalize p.1 ++ suffix) attempt)
        first (rest ++ [Naming.capitalize p.1])

theorem Spells.mono {compiled compiled' : List Compiled} {name first : String}
    {rest : List String} (h : Spells ec c compiled name first rest) (hsub : compiled ⊆ compiled') :
    Spells ec c compiled' name first rest := by
  induction h with
  | schema hfields hf => exact .schema hfields hf
  | reference hm hn hclass => exact .reference (hsub hm) hn hclass
  | target hm hn hclass hfind => exact .target (hsub hm) hn hclass hfind
  | response h => exact .response h
  | property hm _ hp hsuffix ih => exact .property (hsub hm) ih hp hsuffix

/-- All names of a registry are spelled from texts of the document. -/
def Spelled (ec : EndpointCompiler) (c : ModelCompiler) (w : Worklist) : Prop :=
  ∀ name ∈ w.registry.names, ∃ first rest, Spells ec c w.compiled name first rest

/-- The class for a part of a property of a compiled model is spelled from texts of the document. -/
theorem spells_of_classFor {compiled : List Compiled} {m : Compiled} {p : String × Node} {n : Node}
    {r r' : Registry} {name first : String} {rest : List String}
    (hnames : ModelNames.ofSchemas c.mapper.components = .ok c.mapper.names) (hm : m ∈ compiled)
    (hmodel : Spells ec c compiled m.model.name first rest) (hp : HasProperty c.mapper m.schema p)
    (hn : Relation.ReflTransGen (Part c.mapper) p.2 n)
    (h : ClassFor c.mapper
      { model := m.model.name, base := ModelName.base m.model.name, property := p.1 } n r name r') :
    ∃ first rest, Spells ec c compiled name first rest := by
  have hinside : Inside c.mapper m.schema n := by
    obtain ⟨gathered, hgathered, hp⟩ := hp
    exact ⟨gathered, p, hgathered, hp, hn⟩
  cases h with
  | component hclass hname =>
      rw [hname, ModelNames.classOf_of_ofSchemas hnames]
      exact ⟨_, _, .reference hm hinside hclass⟩
  | target hclass hfind hclaim =>
      obtain ⟨-, -, k, -, -, rfl, -⟩ := Registry.claim_spec hclaim
      exact ⟨_, _, .target hm hinside hclass hfind⟩
  | alike hmatch hname =>
      obtain ⟨fields, hfields, hmem⟩ := mem_of_structuralMatch hmatch
      obtain ⟨f, hf, rfl⟩ := List.mem_map.mp hmem
      rw [hname, ModelNames.classOf_of_ofSchemas hnames]
      exact ⟨_, _, .schema hfields hf⟩
  | inPlace hsuffix hclaim =>
      obtain ⟨-, -, k, -, -, rfl, -⟩ := Registry.claim_spec hclaim
      exact ⟨_, _, .property hm hmodel hp hsuffix⟩

/-- Taking a model registers names that are spelled from texts of the document. -/
theorem Takes.spelled {v v' : Worklist} {e : Entry}
    (hnames : ModelNames.ofSchemas c.mapper.components = .ok c.mapper.names) (h : Takes c v e v')
    (hv : Spelled ec c v) : Spelled ec c v' := by
  have hwaiting : e ∈ v.registry.waiting := h.registry.2.1
  obtain ⟨registry, hpop, hcompile⟩ := h
  have hsame : registry.names = v.registry.names := by
    rw [Registry.names, Registry.entries_pop? hpop, Registry.names]
  rcases compileEntry_eq_ok hcompile with ⟨-, -, rfl⟩ | ⟨node, model, r, -, hmodel, rfl⟩
  · intro name hname
    exact hv name (hsame ▸ hname)
  · have hsub : v.compiled ⊆ v.compiled ++ [(⟨model, node⟩ : Compiled)] :=
      List.subset_append_left _ _
    have hmem : (⟨model, node⟩ : Compiled) ∈ v.compiled ++ [⟨model, node⟩] := by simp
    have hthis : model.name = e.name := (compileOn_steps hmodel).2.1
    intro name hname
    rcases compileOn_registers hmodel hname with hname | ⟨p, n, r₀, r₁, hp, hn, hclass⟩
    · obtain ⟨first, rest, hspells⟩ := hv name (hsame ▸ hname)
      exact ⟨first, rest, hspells.mono hsub⟩
    · -- the model itself waited under a name that was spelled before
      obtain ⟨first, rest, hspells⟩ :=
        hv e.name (List.mem_map_of_mem (List.mem_append_right _ hwaiting))
      rw [← hthis] at hspells hclass
      exact spells_of_classFor hnames hmem (hspells.mono hsub) hp hn hclass

/-- The models in the beginning have names that are spelled from texts of the document. -/
theorem start_spelled {extra : List (String × Node)} {fields : List (String × Node)}
    {w : Worklist} {enums : EnumCollection}
    (hnames : ModelNames.ofSchemas c.mapper.components = .ok c.mapper.names)
    (hfields : c.mapper.components.fields = .ok fields)
    (hextra : ∀ p ∈ extra, ∃ operation status k, ec.Answers operation status ∧
      p.1 = Registry.candidate (EndpointCompiler.responseBase operation status) k)
    (h : c.start extra = .ok (w, enums)) : Spelled ec c w := by
  intro name hname
  obtain ⟨e, he, rfl⟩ := Registry.exists_mem_entries hname
  rcases (start_entries hfields h).1 e he with ⟨f, hf, rfl⟩ | ⟨p, hp, rfl⟩
  · rw [namedEntry, ModelNames.classOf_of_ofSchemas hnames]
    exact ⟨_, _, .schema hfields hf⟩
  · obtain ⟨operation, status, k, hanswers, hspelled⟩ := hextra p hp
    rw [extraEntry, hspelled]
    exact ⟨_, _, .response hanswers⟩

theorem Run.spelled {n : Nat} {w v : Worklist}
    (hnames : ModelNames.ofSchemas c.mapper.components = .ok c.mapper.names) (h : Run c w n v)
    (hw : Spelled ec c w) : Spelled ec c v := by
  induction h with
  | start => exact hw
  | step _ ht ih => exact ht.spelled hnames ih

/-- The names of the models of a batch are spelled from texts of the document. -/
theorem spells_of_finish {w done : Worklist} {enums : EnumCollection} {batch : ModelBatch}
    {limit : Nat} {name : String}
    (hnames : ModelNames.ofSchemas c.mapper.components = .ok c.mapper.names)
    (hw : Consistent c w) (hspelled : Spelled ec c w) (hdrain : c.drain limit w = .ok done)
    (hfinish : c.finish enums done = .ok batch) (hname : name ∈ batch.names) :
    ∃ first rest, Spells ec c done.compiled name first rest := by
  have hdone : Consistent c done := drain_consistent hw hdrain
  obtain ⟨n, hrun⟩ := exists_run_of_drain hdrain
  have hcompiled : name ∈ compiledNames done.compiled :=
    (built_of_finish hdone hfinish).1.subset hname
  have htaken : name ∈ done.registry.taken.map (·.name) :=
    hdone.done.symm.subset (List.mem_append_left _ hcompiled)
  refine hrun.spelled hnames hspelled name ?_
  rw [Registry.names, Registry.entries, List.map_append]
  exact List.mem_append_left _ htaken

/-! ## Identifiers -/

section Identifiers

variable {l : Letters} {compiled : List Compiled} {name first base : String} {rest : List String}

theorem isIdentifier_candidate {attempt : Nat} (h : base ≠ "") :
    IsIdentifier l (Registry.candidate base attempt) ↔ l.Fits base := by
  rw [Registry.candidate, isIdentifier_ofBase]
  split
  · exact Iff.rfl
  · rw [Letters.fits_append h, and_iff_left (Letters.holdsAll_number attempt)]

theorem Spells.exists_base (h : Spells ec c compiled name first rest) :
    ∃ text, name = ModelName.ofBase text := by
  cases h with
  | schema | reference | target | response | property => exact ⟨_, rfl⟩

/-- What other names begin with is the base of a name; it fits just when the name is an identifier. -/
theorem fits_base (text : String) :
    ModelName.base (ModelName.ofBase text) ≠ "" ∧
      (l.Fits (ModelName.base (ModelName.ofBase text)) ↔ IsIdentifier l (ModelName.ofBase text)) := by
  by_cases htext : text = ""
  · -- nothing would be left without the ending, so it stays
    subst htext
    have hletters : l.Fits ModelName.ending :=
      ⟨fun ch hch => Option.some.inj hch ▸ rfl, Letters.holdsAll_of_isAlphanum (by decide)⟩
    have hempty : l.Fits "" := ⟨by simp, by simp [Letters.HoldsAll]⟩
    have hbase : ModelName.base (ModelName.ofBase "") = ModelName.ending := by decide
    rw [hbase, isIdentifier_ofBase]
    exact ⟨by decide, fun _ => hempty, fun _ => hletters⟩
  · rw [ModelName.base_ofBase htext, isIdentifier_ofBase]
    exact ⟨htext, Iff.rfl⟩

/-- An operation has a name that is not empty. -/
theorem name_ne_empty_of_answers {operation status : String} (h : ec.Answers operation status) :
    operation ≠ "" := by
  obtain ⟨_, _, _, hcalled, -⟩ := h
  rcases hcalled.given_or_usual with ⟨_, -, -, hne⟩ | ⟨method, _, _, hlists, rfl⟩
  · exact hne
  · have hall : ∀ m ∈ Method.all, m.name ≠ "" := by decide
    rw [Naming.operationName]
    simp [hall method hlists.1]

/-- The name of a model is an identifier just when the text that it begins with fits and identifiers
may hold the texts behind it. -/
theorem Spells.isIdentifier_iff (h : Spells ec c compiled name first rest) :
    IsIdentifier l name ↔ l.Fits first ∧ ∀ text ∈ rest, l.HoldsAll text := by
  induction h with
  | schema | reference => simp [isIdentifier_ofBase]
  | @target m n target pointer attempt _ _ _ hfind =>
      have hne : Naming.capitalize (Pointer.name pointer) ≠ "" := by
        refine Naming.capitalize_ne_empty ?_
        have hlocate := (find_eq_some hfind).1
        unfold Resolver.locate at hlocate
        split at hlocate
        · next segments hsegments => exact Pointer.name_ne_empty hsegments
        · cases hlocate
      simp [isIdentifier_candidate hne]
  | @response operation status attempt hanswers =>
      have hne : Naming.capitalize operation ≠ "" :=
        Naming.capitalize_ne_empty (name_ne_empty_of_answers hanswers)
      have hresponse : l.HoldsAll "Response" := Letters.holdsAll_of_isAlphanum (by decide)
      rw [EndpointCompiler.responseBase, isIdentifier_candidate (by simp), String.append_assoc,
        Letters.fits_append hne, Letters.holdsAll_append]
      simp [hresponse]
  | @property m p first suffix rest attempt _ hmodel _ hsuffix ih =>
      obtain ⟨text, htext⟩ := hmodel.exists_base
      obtain ⟨hne, hfits⟩ := fits_base (l := l) text
      rw [← htext] at hne hfits
      have hsuffix : l.HoldsAll suffix := by
        refine Letters.holdsAll_of_isAlphanum ?_
        rcases List.mem_pair.mp hsuffix with rfl | rfl <;> decide
      rw [isIdentifier_candidate (by simp [hne]), String.append_assoc, Letters.fits_append hne,
        Letters.holdsAll_append, hfits, ih, and_iff_left hsuffix]
      simp [or_imp, forall_and, and_assoc]

end Identifiers

/-! ## Names of enumerations -/

/-- A text of the document that an enumeration is named for when some models have been compiled: what
it calls a schema that lists texts, or a property of one that collecting meets. -/
inductive Titles (c : ModelCompiler) (compiled : List Compiled) : String → Prop where
  | schema {fields : List (String × Node)} {f : String × Node}
      (hfields : c.mapper.components.fields = .ok fields) (hf : f ∈ fields)
      (hlists : Schema.isStringEnum f.2 = .ok true) : Titles c compiled f.1
  | property {m : Compiled} {p : String × Node} (hm : m ∈ compiled)
      (hp : EnumCollection.MeetsTexts c.mapper.resolver m.schema p) : Titles c compiled p.1

/-- The enumerations in the beginning are named for schemas that list texts. -/
theorem start_titles {extra : List (String × Node)} {w : Worklist} {enums : EnumCollection}
    {compiled : List Compiled} (h : c.start extra = .ok (w, enums)) :
    ∀ e ∈ enums.enums, ∃ text, Titles c compiled text ∧ e.name = Naming.enumName text := by
  obtain ⟨⟨registry, found⟩, hseed, h⟩ := bind_eq_ok.mp h
  cases pure_eq_ok.mp h
  obtain ⟨fields, step, hfields, hstep, hfold⟩ := seed_eq_ok hseed
  refine foldlM_keeps (P := fun s : Registry × EnumCollection => ∀ e ∈ s.2.enums,
    ∃ text, Titles c compiled text ∧ e.name = Naming.enumName text) ?_
    (fun e he => absurd he List.not_mem_nil) hfold
  intro s s' f hf hs hrun e he
  cases hstep s f s' hrun with
  | texts hlists =>
      rcases EnumCollection.mem_enums_add he with he | hname
      · exact hs e he
      · exact ⟨f.1, .schema hfields hf hlists, hname⟩
  | model => exact hs e he
  | other => exact hs e he

/-- The enumerations of a batch are named for texts of the document. -/
theorem titles_of_finish {extra : List (String × Node)} {w done : Worklist}
    {enums : EnumCollection} {batch : ModelBatch} {name : String}
    (hstart : c.start extra = .ok (w, enums)) (hfinish : c.finish enums done = .ok batch)
    (hname : name ∈ enumNames batch) :
    ∃ text, Titles c done.compiled text ∧ name = Naming.enumName text := by
  obtain ⟨found, hwalk, hfound⟩ := finish_enums hfinish
  rw [enumNames, hfound] at hname
  obtain ⟨e, he, rfl⟩ := List.mem_map.mp hname
  rcases EnumCollection.forM_collect_adds hwalk e he with he | ⟨n, hn, p, hp, htitle⟩
  · exact start_titles hstart e he
  · obtain ⟨m, hm, rfl⟩ := List.mem_map.mp hn
    exact ⟨p.1, .property hm hp, htitle⟩

end ModelCompiler

end ApiScaffold
