import ApiScaffold.Proofs.Checked
import ApiScaffold.Proofs.Ending
import ApiScaffold.Proofs.Spelling

set_option autoImplicit false

/-! # Documents whose texts are identifiers

The names of a batch are identifiers when the texts fit that they are made from (`Legible`). It is
enough that all texts fit which stand where such texts may be found, and that can be checked on the
document alone (`Json.readable`). -/

namespace ApiScaffold

namespace ModelCompiler

open Mapper

variable {c : ModelCompiler} {ec : EndpointCompiler}

/-! ## Texts that names may copy -/

/-- The texts that names may copy fit, when some models have been compiled: the names of schemas, of
operations and of properties, and what references to classes end with; identifiers may hold the
statuses. -/
structure Legible (l : Letters) (ec : EndpointCompiler) (c : ModelCompiler)
    (compiled : List Compiled) : Prop where
  schemas : ∀ fields, c.mapper.components.fields = .ok fields → ∀ f ∈ fields, l.Fits f.1
  references : ∀ m ∈ compiled, ∀ n pointer, Inside c.mapper m.schema n →
    NamesClass c.mapper n pointer → l.Fits (Pointer.name pointer)
  operations : ∀ operation status, ec.Answers operation status →
    l.Fits operation ∧ l.HoldsAll status
  properties : ∀ m ∈ compiled, ∀ b p, EnumCollection.Meets c.mapper.resolver m.schema b →
    OwnProperty b p → l.Fits p.1

section Legible

variable {l : Letters} {compiled : List Compiled} {name first text : String} {rest : List String}

theorem Legible.property {m : Compiled} {p : String × Node} (h : Legible l ec c compiled)
    (hm : m ∈ compiled) (hp : HasProperty c.mapper m.schema p) : l.Fits p.1 := by
  obtain ⟨gathered, hgathered, hp⟩ := hp
  obtain ⟨b, hb, hown⟩ := ofSchema_members hgathered p hp
  exact h.properties m hm b p (.of_member hb) hown

theorem Spells.fits (hl : l.KeepsCase) (hlegible : Legible l ec c compiled)
    (h : Spells ec c compiled name first rest) :
    l.Fits first ∧ ∀ text ∈ rest, l.HoldsAll text := by
  induction h with
  | schema hfields hf => exact ⟨hlegible.schemas _ hfields _ hf, by simp⟩
  | reference hm hn hclass => exact ⟨hlegible.references _ hm _ _ hn hclass, by simp⟩
  | target hm hn hclass _ =>
      exact ⟨(hlegible.references _ hm _ _ hn hclass).capitalize hl, by simp⟩
  | response hanswers =>
      obtain ⟨hoperation, hstatus⟩ := hlegible.operations _ _ hanswers
      exact ⟨hoperation.capitalize hl, by simpa using hstatus⟩
  | property hm _ hp _ ih =>
      refine ⟨ih.1, fun text htext => ?_⟩
      rcases List.mem_append.mp htext with htext | htext
      · exact ih.2 text htext
      · rw [List.mem_singleton.mp htext]
        exact ((hlegible.property hm hp).capitalize hl).holds

theorem Titles.fits (hlegible : Legible l ec c compiled) (h : Titles c compiled text) :
    l.Fits text := by
  cases h with
  | schema hfields hf _ => exact hlegible.schemas _ hfields _ hf
  | property hm hp =>
      obtain ⟨b, hb, hown, -⟩ := hp
      exact hlegible.properties _ hm b _ hb hown

end Legible

end ModelCompiler

/-! ## Checking a document -/

/-- What is asked of texts that identifiers copy. -/
def Letters.checks (l : Letters) : TextChecks where
  reference pointer := l.Fits (Pointer.name pointer)
  operation name := l.Fits name
  status status := l.HoldsAll status
  schema name := l.Fits name
  property name := l.Fits name

section Checks

variable {l : Letters} {text : String}

theorem Letters.checks_reference :
    l.checks.reference text = true ↔ l.Fits (Pointer.name text) := by
  simp only [Letters.checks, decide_eq_true_eq]

theorem Letters.checks_operation : l.checks.operation text = true ↔ l.Fits text := by
  simp only [Letters.checks, decide_eq_true_eq]

theorem Letters.checks_status : l.checks.status text = true ↔ l.HoldsAll text := by
  simp only [Letters.checks, decide_eq_true_eq]

theorem Letters.checks_schema : l.checks.schema text = true ↔ l.Fits text := by
  simp only [Letters.checks, decide_eq_true_eq]

theorem Letters.checks_property : l.checks.property text = true ↔ l.Fits text := by
  simp only [Letters.checks, decide_eq_true_eq]

end Checks

namespace ModelCompiler

open Mapper

variable {l : Letters} {D : Set Document} {c : ModelCompiler} {ec : EndpointCompiler}
  {document : Document} {spec : Option String}

/-- The named schemas of a document that is checked. -/
theorem fits_of_components (hD : ∀ d ∈ D, d.root.readable l.checks = true)
    (hdocument : document ∈ D)
    (hmapper : Mapper.ofDocument document spec = .ok c.mapper) :
    Lives D (Json.readables l.checks) c.mapper.components ∧
      ∀ fields, c.mapper.components.fields = .ok fields → ∀ f ∈ fields, l.Fits f.1 := by
  have hclosed : Closed (Lives D (Json.readables l.checks)) := (world_readables hD).closed
  have htop : Lives D (Json.readables l.checks) document.top := ⟨hdocument, hD _ hdocument⟩
  obtain ⟨parts, schemas, hparts, hschemas, hlast⟩ :=
    Schema.components_eq_ok (Mapper.ofDocument_eq_ok hmapper).1
  have hin : Lives D (Json.readables l.checks) parts := hclosed.get htop hparts
  rcases hlast with ⟨hthere, heq⟩ | ⟨-, heq⟩
  · rw [heq]
    rcases hschemas with ⟨-, hget⟩ | ⟨-, rfl⟩
    · refine ⟨hclosed.get hin hget, fun fields hfields f hf => ?_⟩
      have hany : schemas.fieldsIfAny = .ok fields := by
        rw [Node.fieldsIfAny, hthere]
        exact hfields
      exact Letters.checks_schema.mp (hin.keys hD Json.reads_schemas hget hany f hf)
    · rw [Node.truthy, Node.opened, Node.settle_of_noLink rfl] at hthere
      cases hthere
  · rw [heq]
    have hdocument : schemas.document ∈ D := by
      rcases hschemas with ⟨-, hget⟩ | ⟨-, rfl⟩
      · exact (hclosed.get hin hget).1
      · exact hin.1
    refine ⟨⟨hdocument, rfl⟩, fun fields hfields f hf => ?_⟩
    rw [Node.fields, Node.settle_of_noLink rfl] at hfields
    obtain rfl := Except.ok.inj hfields
    exact absurd hf List.not_mem_nil

/-- When the texts of the documents fit, the names that are made from them may copy them. -/
theorem legible_of_readable {compiled : List Compiled}
    (hD : ∀ d ∈ D, d.root.readable l.checks = true)
    (hresolved : ec.resolved ∈ D) (hwritten : ec.written ∈ D)
    (hmapper : Mapper.ofDocument ec.written spec = .ok c.mapper) (hsame : ec.mapper = c.mapper)
    (hcompiled : ∀ m ∈ compiled, Lives D (Json.readables l.checks) m.schema) :
    Legible l ec c compiled := by
  have hclosed : Closed (Lives D (Json.readables l.checks)) := (world_readables hD).closed
  have htop : ∀ {d : Document}, d ∈ D → Lives D (Json.readables l.checks) d.top := fun hd =>
    ⟨hd, hD _ hd⟩
  have hresolver : Lives D (Json.readables l.checks) c.mapper.resolver.document.top := by
    rw [(Mapper.ofDocument_eq_ok hmapper).2.1]
    exact htop hwritten
  refine ⟨(fits_of_components hD hwritten hmapper).2, ?_, ?_, ?_⟩
  · intro m hm n pointer hn hclass
    exact Letters.checks_reference.mp
      ((hclosed.inside hresolver (hcompiled m hm) hn).reference hD hclass.reference)
  · intro operation status h
    obtain ⟨hoperation, hstatus⟩ :=
      h.passes hD (htop hresolved) (htop hwritten) (hsame ▸ hresolver)
    refine ⟨Letters.checks_operation.mp hoperation, ?_⟩
    rcases hstatus with rfl | hstatus
    · simp [Letters.HoldsAll]
    · exact Letters.checks_status.mp hstatus
  · intro m hm b p hb hown
    obtain ⟨listed, fields, hlisted, hfields, hp⟩ := hown
    have hin := hb.stays hclosed hresolver (hcompiled m hm)
    exact Letters.checks_property.mp (hin.keys hD Json.reads_properties hlisted hfields p hp)

end ModelCompiler

/-! ## Names of batches -/

namespace Generator

open ModelCompiler

/-- The names of the models and enumerations of a batch are made from texts of the document, and they
are identifiers as far as the texts allow. -/
structure Spelt (l : Letters) (ec : EndpointCompiler) (c : ModelCompiler)
    (compiled : List Compiled) (batch : ModelBatch) : Prop where
  models : ∀ name ∈ batch.names, ∃ first rest, Spells ec c compiled name first rest ∧
    (IsIdentifier l name ↔ l.Fits first ∧ ∀ text ∈ rest, l.HoldsAll text)
  enums : ∀ name ∈ enumNames batch, ∃ text, Titles c compiled text ∧
    name = Naming.enumName text ∧ (IsIdentifier l name ↔ l.Fits (Naming.capitalize text))
  legible : l.KeepsCase → Legible l ec c compiled →
    ∀ name ∈ batch.names ++ enumNames batch, IsIdentifier l name

variable {g : Generator} {batch : Batch}

/-- Names of models and enumerations are spelled from texts of the document; those are identifiers
whose texts fit. -/
theorem build_identifiers (l : Letters) (h : g.build = .ok batch) :
    ∃ ec c endpoints state w enums done, Assembled g batch ec c endpoints state ∧
      c.start state.responseModels = .ok (w, enums) ∧ c.drain modelLimit w = .ok done ∧
      c.finish enums done = .ok batch.models ∧ Spelt l ec c done.compiled batch.models := by
  obtain ⟨ec, c, endpoints, state, hall⟩ := build_eq_ok h
  obtain ⟨named, hec, hkept⟩ := hall.kept
  obtain ⟨w, enums, done, hstart, hdrain, hfinish⟩ := compileWithin_eq_ok hall.models
  have hfields : c.mapper.components.fields = .ok named := hall.mapper_eq ▸ hec.fields
  have hnames : ModelNames.ofSchemas c.mapper.components = .ok c.mapper.names :=
    (Mapper.ofDocument_eq_ok (ofDocument_eq_ok hall.modelCompiler).1).2.2
  have hspells : ∀ name ∈ batch.models.names,
      ∃ first rest, Spells ec c done.compiled name first rest := fun name hname =>
    spells_of_finish hnames (start_consistent hstart)
      (start_spelled hnames hfields hkept.named hstart) hdrain hfinish hname
  have htitles : ∀ name ∈ enumNames batch.models,
      ∃ text, Titles c done.compiled text ∧ name = Naming.enumName text :=
    fun name hname => titles_of_finish hstart hfinish hname
  refine ⟨ec, c, endpoints, state, w, enums, done, hall, hstart, hdrain, hfinish, ?_, ?_, ?_⟩
  · intro name hname
    obtain ⟨first, rest, hspelled⟩ := hspells name hname
    exact ⟨first, rest, hspelled, hspelled.isIdentifier_iff⟩
  · intro name hname
    obtain ⟨text, htitle, rfl⟩ := htitles name hname
    exact ⟨text, htitle, rfl, isIdentifier_enumName⟩
  · intro hl hlegible name hname
    rcases List.mem_append.mp hname with hname | hname
    · obtain ⟨first, rest, hspelled⟩ := hspells name hname
      exact hspelled.isIdentifier_iff.mpr (hspelled.fits hl hlegible)
    · obtain ⟨text, htitle, rfl⟩ := htitles name hname
      exact isIdentifier_enumName.mpr ((htitle.fits hlegible).capitalize hl)

/-- It is enough that the texts of the document fit, with its links and without. -/
theorem Assembled.legible {l : Letters} {ec : EndpointCompiler} {c : ModelCompiler}
    {endpoints : List Endpoint} {state : EndpointState} {w done : Worklist}
    {enums : EnumCollection} {limit : Nat} (h : Assembled g batch ec c endpoints state)
    (hresolved : g.resolved.root.readable l.checks = true)
    (hwritten : g.written.root.readable l.checks = true)
    (hstart : c.start state.responseModels = .ok (w, enums)) (hdrain : c.drain limit w = .ok done) :
    Legible l ec c done.compiled := by
  obtain ⟨named, hec, hkept⟩ := h.kept
  have hD : ∀ d ∈ ({g.resolved, g.written} : Set Document), d.root.readable l.checks = true := by
    rintro d (rfl | rfl)
    · exact hresolved
    · exact hwritten
  have hmapper : Mapper.ofDocument g.written g.spec = .ok c.mapper :=
    (ofDocument_eq_ok h.modelCompiler).1
  have hin : c.mapper.resolver.document ∈ ({g.resolved, g.written} : Set Document) := by
    rw [(Mapper.ofDocument_eq_ok hmapper).2.1]
    simp
  have hoffers := offers_of_world (world_readables hD) hin
    (fits_of_components hD (by simp) hmapper).1
  have htop : ∀ {d : Document}, d ∈ ({g.resolved, g.written} : Set Document) →
      Lives {g.resolved, g.written} (Json.readables l.checks) d.top := fun hd => ⟨hd, hD _ hd⟩
  refine legible_of_readable hD (by simp [hec.resolved]) (by simp [hec.written])
    (hec.written ▸ hmapper) h.mapper_eq.symm (compiled_in hoffers (fun e he => ?_) hstart hdrain)
  refine hoffers.closed.answerable (htop (by simp [hec.resolved])) (htop (by simp [hec.written])) ?_
    (hkept.models e he).2.2.1
  exact h.mapper_eq ▸ hoffers.top

/-- A response with an object in place that has one property. -/
def replyWith (property type : String) : Json :=
  .obj [("content", .obj [("application/json", .obj [("schema", .obj [
    ("properties", .obj [(property, .obj [("type", .str type)])])])])])]

/-- Models are made up for a property, for the items of another one, for what a reference leads to
and for a response. -/
def bakery : Json := .obj [
  ("paths", .obj [("/cakes", .obj [("get", .obj [
    ("operationId", .str "listCakes"),
    ("responses", .obj [("200", replyWith "total" "integer")])])])]),
  ("components", .obj [("schemas", .obj [
    ("Cake", .obj [("properties", .obj [
      ("size", .obj [("type", .str "string"), ("enum", .arr [.str "small", .str "large"])]),
      ("box", .obj [("properties", .obj [("width", .obj [("type", .str "integer")])])]),
      ("layers", .obj [("type", .str "array"), ("items", .obj [
        ("properties", .obj [("flavour", .obj [("type", .str "string")])])])]),
      ("home", .obj [("$ref", .str "#/components/schemas/Baker/properties/address")])])]),
    ("Baker", .obj [("properties", .obj [
      ("address", .obj [("properties", .obj [("town", .obj [("type", .str "string")])])])])]),
    ("Taste", .obj [("type", .str "string"), ("enum", .arr [.str "sweet"])])])])]

/-- All texts of `bakery` fit, so all names are identifiers. -/
theorem bakery_identifiers :
    ∃ batch, (ofRoot bakery).build = .ok batch ∧
      batch.models.names = ["CakeBoxDto", "CakeLayersItemDto", "AddressDto", "CakeDto",
        "BakerAddressDto", "BakerDto", "ListCakesResponseDto"] ∧
      enumNames batch.models = ["TasteEnum", "SizeEnum"] ∧
      (∀ name ∈ batch.models.names ++ enumNames batch.models, IsIdentifier Letters.ascii name) ∧
      ∃ ec c endpoints state w enums done, Assembled (ofRoot bakery) batch ec c endpoints state ∧
        c.start state.responseModels = .ok (w, enums) ∧ c.drain modelLimit w = .ok done ∧
        c.finish enums done = .ok batch.models ∧ Legible Letters.ascii ec c done.compiled ∧
        Spelt Letters.ascii ec c done.compiled batch.models := by
  have hrun : ((ofRoot bakery).build.map fun batch =>
      (batch.models.names, enumNames batch.models)).toOption =
      some (["CakeBoxDto", "CakeLayersItemDto", "AddressDto", "CakeDto", "BakerAddressDto",
        "BakerDto", "ListCakesResponseDto"], ["TasteEnum", "SizeEnum"]) := by
    decide +kernel
  have hreadable : bakery.readable Letters.ascii.checks = true := by decide
  obtain ⟨batch, hbatch, h⟩ := map_eq_ok (eq_ok_of_toOption hrun)
  obtain ⟨hnames, henums⟩ := Prod.mk.inj h
  obtain ⟨ec, c, endpoints, state, w, enums, done, hall, hstart, hdrain, hfinish, hspelt⟩ :=
    build_identifiers Letters.ascii hbatch
  have hlegible := hall.legible hreadable hreadable hstart hdrain
  exact ⟨batch, hbatch, hnames, henums, hspelt.legible Letters.keepsCase_ascii hlegible, ec, c,
    endpoints, state, w, enums, done, hall, hstart, hdrain, hfinish, hlegible, hspelt⟩

/-- A schema and a property are called by words with hyphens. -/
def profiles : Json := .obj [
  ("paths", .obj []),
  ("components", .obj [("schemas", .obj [
    ("User-Profile", .obj [("properties", .obj [
      ("status-code", .obj [("type", .str "string"), ("enum", .arr [.str "a"])])])])])])]

/-- In `profiles` neither the model nor the enumeration has a name that is an identifier, whatever
letters there are. -/
theorem profiles_misnamed :
    ∃ batch, (ofRoot profiles).build = .ok batch ∧
      batch.models.names = ["User-ProfileDto"] ∧ enumNames batch.models = ["Status-codeEnum"] ∧
      ∀ l, ¬ IsIdentifier l "User-ProfileDto" ∧ ¬ IsIdentifier l "Status-codeEnum" := by
  have hrun : ((ofRoot profiles).build.map fun batch =>
      (batch.models.names, enumNames batch.models)).toOption =
      some (["User-ProfileDto"], ["Status-codeEnum"]) := by
    decide
  obtain ⟨batch, hbatch, h⟩ := map_eq_ok (eq_ok_of_toOption hrun)
  obtain ⟨hnames, henums⟩ := Prod.mk.inj h
  have hhyphen : ∀ l name, '-' ∈ name.toList → ¬ IsIdentifier l name := by
    intro l name hmem hid
    cases (Letters.holds_hyphen (l := l)).symm.trans (hid.holds '-' hmem)
  exact ⟨batch, hbatch, hnames, henums, fun l =>
    ⟨hhyphen l _ (by decide), hhyphen l _ (by decide)⟩⟩

end Generator

end ApiScaffold
