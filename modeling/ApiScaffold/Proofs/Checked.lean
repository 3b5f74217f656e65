import ApiScaffold.Proofs.Operations
import ApiScaffold.Proofs.Places
import ApiScaffold.Proofs.World

set_option autoImplicit false

/-! # Checking the texts of a document

Names of models, enumerations and responses copy texts of a document. Which texts these are hangs on
what is compiled; but all of them stand under keys that tell what they are, so they can be checked
on the document alone (`Json.readable`). -/

namespace ApiScaffold

/-- What is asked of the texts in a document that names may copy. -/
structure TextChecks where
  /-- Of the pointers of references. -/
  reference : String → Bool
  /-- Of the names of operations, also of those that are made up from paths. -/
  operation : String → Bool
  /-- Of the statuses of responses. -/
  status : String → Bool
  /-- Of the names of schemas. -/
  schema : String → Bool
  /-- Of the names of properties. -/
  property : String → Bool

namespace Json

/-- Whether a value is a text that passes a check. -/
def isText (p : String → Bool) : Json → Bool
  | .str text => p text
  | _ => false

/-- Whether the keys of an object pass a check. None of them may make it a link, for what stands
under its place would then be something else. -/
def hasKeys (p : String → Bool) : Json → Bool
  | .obj fields => fields.all fun f => f.1 != "$ref" && p f.1
  | _ => true

/-- Whether the texts pass that names may copy from what stands under a key. -/
def reads (k : TextChecks) (key : String) (v : Json) : Bool :=
  match key with
  | "$ref" => v.isText k.reference
  | "operationId" => v.isText k.operation
  | "schemas" => v.hasKeys k.schema
  | "properties" => v.hasKeys k.property
  | "responses" => v.hasKeys k.status
  | "paths" => v.hasKeys fun path =>
      Method.all.all fun method => k.operation (Naming.operationName method.name path)
  | _ => true

mutual

/-- Whether all texts in a value pass that names may copy. -/
def readable (k : TextChecks) : Json → Bool
  | .arr items => itemsReadable k items
  | .obj fields => fieldsReadable k fields
  | _ => true

/-- `readable` for the items of a list. -/
def itemsReadable (k : TextChecks) : List Json → Bool
  | [] => true
  | x :: rest => readable k x && itemsReadable k rest

/-- `readable` for the fields of an object. -/
def fieldsReadable (k : TextChecks) : Fields → Bool
  | [] => true
  | (key, x) :: rest => reads k key x && readable k x && fieldsReadable k rest

end

variable {k : TextChecks}

section Reads

variable (v : Json)

theorem reads_reference : reads k "$ref" v = v.isText k.reference := rfl

theorem reads_operation : reads k "operationId" v = v.isText k.operation := rfl

theorem reads_schemas : reads k "schemas" v = v.hasKeys k.schema := rfl

theorem reads_properties : reads k "properties" v = v.hasKeys k.property := rfl

theorem reads_responses : reads k "responses" v = v.hasKeys k.status := rfl

theorem reads_paths : reads k "paths" v = v.hasKeys fun path =>
    Method.all.all fun method => k.operation (Naming.operationName method.name path) := rfl

end Reads

theorem itemsReadable_iff {items : List Json} :
    itemsReadable k items = true ↔ ∀ x ∈ items, x.readable k = true := by
  induction items with
  | nil => simp [itemsReadable]
  | cons x items ih => simp [itemsReadable, ih]

theorem fieldsReadable_iff {fields : Fields} :
    fieldsReadable k fields = true ↔
      ∀ f ∈ fields, reads k f.1 f.2 = true ∧ f.2.readable k = true := by
  induction fields with
  | nil => simp [fieldsReadable]
  | cons f fields ih => simp [fieldsReadable, ih]

/-- An object whose keys are checked is no link. -/
theorem referenceText?_of_hasKeys {p : String → Bool} {v : Json} (h : v.hasKeys p = true) :
    Node.referenceText? v = none := by
  cases v with
  | obj fields =>
      have hnone : fields.lookup "$ref" = none := by
        by_contra hsome
        obtain ⟨u, hu⟩ := Option.ne_none_iff_exists'.mp hsome
        have hkey := List.all_eq_true.mp h _ (mem_of_lookup hu)
        simp at hkey
      rw [Node.referenceText?, hnone]
  | _ => rfl

/-- The values whose texts pass. -/
def readables (k : TextChecks) : Set Json := {v | v.readable k = true}

end Json

section Readable

open Json

variable {k : TextChecks} {D : Set Document} {n b : Node} {key : String} {p : String → Bool}

theorem world_readables (hD : ∀ d ∈ D, d.root.readable k = true) : World D (readables k) where
  null := rfl
  root := hD
  part v hv u hu := by
    cases v with
    | arr items =>
        rw [readables, Set.mem_ofPred_eq, readable, itemsReadable_iff] at hv
        exact hv u hu
    | obj fields =>
        rw [readables, Set.mem_ofPred_eq, readable, fieldsReadable_iff] at hv
        rcases List.mem_append.mp hu with hu | hu
        · obtain ⟨f, hf, rfl⟩ := List.mem_map.mp hu
          exact (hv f hf).2
        · obtain ⟨f, -, rfl⟩ := List.mem_map.mp hu
          rfl
    | str s =>
        obtain ⟨ch, -, rfl⟩ := List.mem_map.mp hu
        rfl
    | _ => exact absurd hu List.not_mem_nil

variable (hD : ∀ d ∈ D, d.root.readable k = true)

include hD

/-- What stands under a key of a node is nothing, or it was checked. -/
theorem Lives.reads (hn : Lives D (readables k) n) (h : n.get key = .ok b) :
    b.value = .null ∨ Json.reads k key b.value = true := by
  obtain ⟨here, hhere, h⟩ := bind_eq_ok.mp h
  split at h
  · next fields hfields =>
      obtain rfl := pure_eq_ok.mp h
      have hvalue := ((world_readables hD).closed.settle hn hhere).2
      rw [hfields, readables, Set.mem_ofPred_eq, readable, fieldsReadable_iff] at hvalue
      change (fields.lookup key).getD .null = .null ∨
        Json.reads k key ((fields.lookup key).getD .null) = true
      cases hu : fields.lookup key with
      | none => exact Or.inl rfl
      | some u => exact Or.inr (hvalue _ (mem_of_lookup hu)).1
  · exact absurd h throw_ne_ok

theorem Lives.text (hreads : ∀ v, Json.reads k key v = v.isText p) (hn : Lives D (readables k) n)
    (h : n.get key = .ok b) {text : String} (hopened : b.opened = .ok (.str text)) :
    p text = true := by
  -- neither nothing nor a text is a link
  have hvalue : b.value = .str text := by
    have hlink : Node.referenceText? b.value = none := by
      rcases hn.reads hD h with hnull | hread
      · rw [hnull]
        rfl
      · rw [hreads] at hread
        cases hb : b.value with
        | str s => rfl
        | _ => rw [hb] at hread; cases hread
    rw [Node.opened, Node.settle_of_noLink hlink] at hopened
    exact Except.ok.inj hopened
  rcases hn.reads hD h with hnull | hread
  · cases hnull.symm.trans hvalue
  · rw [hreads, hvalue] at hread
    exact hread

theorem Lives.keys (hreads : ∀ v, Json.reads k key v = v.hasKeys p) (hn : Lives D (readables k) n)
    (h : n.get key = .ok b) {fields : List (String × Node)} (hfields : b.fieldsIfAny = .ok fields) :
    ∀ f ∈ fields, p f.1 = true := by
  have hkeys : b.value.hasKeys p = true := by
    rcases hn.reads hD h with hnull | hread
    · rw [hnull]
      rfl
    · exact hreads _ ▸ hread
  have hsettle : b.settle = .ok b := Node.settle_of_noLink (referenceText?_of_hasKeys hkeys)
  obtain ⟨truthy, -, hfields⟩ := bind_eq_ok.mp hfields
  split at hfields
  · obtain ⟨here, hhere, hfields⟩ := bind_eq_ok.mp hfields
    obtain rfl := Except.ok.inj (hsettle.symm.trans hhere)
    split at hfields
    · next found hfound =>
        obtain rfl := pure_eq_ok.mp hfields
        rw [hfound] at hkeys
        intro f hf
        obtain ⟨g, hg, rfl⟩ := List.mem_map.mp hf
        exact (Bool.and_eq_true_iff.mp (List.all_eq_true.mp hkeys g hg)).2
    · exact absurd hfields throw_ne_ok
  · obtain rfl := pure_eq_ok.mp hfields
    exact fun f hf => absurd hf List.not_mem_nil

/-- The text that a reference points with. -/
theorem Lives.reference (hn : Lives D (readables k) n) {pointer : String}
    (h : n.pointer? = .ok (some pointer)) : k.reference pointer = true := by
  obtain ⟨reference, hget, hvalue⟩ := Mapper.reference_of_pointer? h
  exact hn.text hD reads_reference hget hvalue

end Readable

namespace EndpointCompiler

variable {k : TextChecks} {D : Set Document} {c : EndpointCompiler} {operation status : String}

/-- The names of operations and the statuses of responses. -/
theorem Answers.passes (hD : ∀ d ∈ D, d.root.readable k = true)
    (hresolved : Lives D (Json.readables k) c.resolved.top)
    (hwritten : Lives D (Json.readables k) c.written.top)
    (hresolver : Lives D (Json.readables k) c.mapper.resolver.document.top)
    (h : c.Answers operation status) :
    k.operation operation = true ∧ (status = "" ∨ k.status status = true) := by
  obtain ⟨source, raw, r, hcalled, hraw, hr, hstatus⟩ := h
  have hclosed : Closed (Lives D (Json.readables k)) := (world_readables hD).closed
  have hlives : Lives D (Json.readables k) source :=
    hclosed.isOperation hresolved hwritten hresolver hcalled.isOperation
  constructor
  · rcases hcalled.given_or_usual with ⟨id, hid, hopened, -⟩ | ⟨method, path, _, hlists, rfl⟩
    · exact hlives.text hD Json.reads_operation hid hopened
    · obtain ⟨hmethod, paths, fields, item, hpaths, hfields, hmem, -⟩ := hlists
      have hall := hresolved.keys hD Json.reads_paths hpaths hfields _ hmem
      exact List.all_eq_true.mp hall method hmethod
  · refine hstatus.imp_right ?_
    rintro rfl
    obtain ⟨listed, hlisted, hraw⟩ := bind_eq_ok.mp hraw
    obtain ⟨responses, hresponses, hraw⟩ := bind_eq_ok.mp hraw
    obtain ⟨entry, -, hentry, -⟩ := mem_rawResponses hraw hr
    exact hlives.keys hD Json.reads_responses hlisted hresponses _ hentry

end EndpointCompiler

end ApiScaffold
