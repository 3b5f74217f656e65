import ApiScaffold.Record.Endpoint

set_option autoImplicit false

/-! # Restoring records

A record keeps the values of excerpts, but not how code shows them. Reading it gives back what was
written, with every excerpt left with its value alone, provided that it was regular: reading would
put no optional marker elsewhere, drop no dependency and take no name for that of another kind. -/

namespace ApiScaffold

/-! ## Without links -/

/-- An excerpt that is shown as it is. -/
def Excerpt.unlinked (e : Excerpt) : Excerpt := .plain e.value

@[simp]
theorem Excerpt.unlinked_unlinked (e : Excerpt) : e.unlinked.unlinked = e.unlinked := rfl

@[simp]
theorem Excerpt.unlinked_plain (v : Json) : (plain v).unlinked = plain v := rfl

@[simp]
theorem Excerpt.unlinked_text (s : String) : (text s).unlinked = text s := rfl

@[simp]
theorem Excerpt.unlinked_null : null.unlinked = null := rfl

/-- A constraint with its value alone. -/
def Constraint.unlinked (c : Constraint) : Constraint :=
  { c with value := c.value.unlinked }

@[simp]
theorem Constraint.unlinked_unlinked (c : Constraint) : c.unlinked.unlinked = c.unlinked := rfl

/-- A property whose excerpts are shown as they are. -/
def Property.unlinked (p : Property) : Property :=
  { p with
    constraints := p.constraints.map Constraint.unlinked
    sample := p.sample.unlinked
    enumValues := p.enumValues.map Excerpt.unlinked }

@[simp]
theorem Property.unlinked_unlinked (p : Property) : p.unlinked.unlinked = p.unlinked := by
  simp [unlinked, Function.comp_def]

/-- The optional marker of a property is in order with links or without. -/
theorem Property.settled_unlinked (p : Property) : p.unlinked.settled = p.settled.unlinked := by
  have hfilter : (p.constraints.map Constraint.unlinked).filter (·.kind != .optional) =
      (p.constraints.filter (·.kind != .optional)).map Constraint.unlinked :=
    List.filter_map
  have hmarker : optionalMarker.unlinked = optionalMarker := rfl
  cases hrequired : p.required <;> simp [settled, unlinked, marked, hrequired, hfilter, hmarker]

/-- A model whose excerpts are shown as they are. -/
def Model.unlinked (m : Model) : Model :=
  { m with properties := m.properties.map Property.unlinked }

@[simp]
theorem Model.unlinked_unlinked (m : Model) : m.unlinked.unlinked = m.unlinked := by
  simp [unlinked, Function.comp_def]

/-- A member of an enumeration with its value alone. -/
def EnumMember.unlinked (m : EnumMember) : EnumMember :=
  { m with value := m.value.unlinked }

@[simp]
theorem EnumMember.unlinked_unlinked (m : EnumMember) : m.unlinked.unlinked = m.unlinked := rfl

/-- An enumeration whose members are shown as they are. -/
def Enumeration.unlinked (e : Enumeration) : Enumeration :=
  { e with members := e.members.map EnumMember.unlinked }

@[simp]
theorem Enumeration.unlinked_unlinked (e : Enumeration) : e.unlinked.unlinked = e.unlinked := by
  simp [unlinked, Function.comp_def]

/-- A batch of models whose excerpts are shown as they are. -/
def ModelBatch.unlinked (b : ModelBatch) : ModelBatch :=
  { b with models := b.models.map Model.unlinked, enums := b.enums.map Enumeration.unlinked }

/-- A batch whose excerpts are shown as they are. -/
def Batch.unlinked (b : Batch) : Batch :=
  { b with models := b.models.unlinked }

/-- Two batches are equal as values: they differ at most in how code shows what stands behind
links. -/
def Batch.SameValues (a b : Batch) : Prop := a.unlinked = b.unlinked

theorem Batch.sameValues_unlinked (b : Batch) : b.unlinked.SameValues b := by
  simp [SameValues, unlinked, ModelBatch.unlinked, Function.comp_def]

/-! ## Regular records -/

/-- Reading leaves a property as it is. -/
structure Property.Regular (p : Property) : Prop where
  known : ∀ c ∈ p.constraints, ConstraintKind.ofName c.kind.name = c.kind
  settled : p.settled = p

/-- Reading leaves a model as it is. -/
structure Model.Regular (m : Model) : Prop where
  properties : ∀ p ∈ m.properties, p.Regular
  distinct : m.dependsOn.Nodup

/-- Reading leaves a parameter as it is. -/
def Parameter.Regular (p : Parameter) : Prop :=
  ParameterKind.ofName p.kind.name = p.kind

/-- Reading leaves an endpoint as it is. -/
structure Endpoint.Regular (e : Endpoint) : Prop where
  method : Method.ofName e.method.name = e.method
  parameters : ∀ p ∈ e.parameters, p.Regular
  arguments : ∀ p ∈ e.arguments, p.Regular

/-- The endpoints of the controller and of the service. -/
def Batch.endpoints (b : Batch) : List Endpoint :=
  b.controller.toList.flatMap (·.endpoints) ++ b.service.toList.flatMap (·.endpoints)

theorem Batch.mem_endpoints {b : Batch} {e : Endpoint} : e ∈ b.endpoints ↔
    (∃ c ∈ b.controller, e ∈ c.endpoints) ∨ ∃ s ∈ b.service, e ∈ s.endpoints := by
  simp [endpoints]

/-- Reading leaves a batch as it is. -/
structure Batch.Regular (b : Batch) : Prop where
  models : ∀ m ∈ b.models.models, m.Regular
  endpoints : ∀ e ∈ b.endpoints, e.Regular

namespace Record

/-! ## Values and fields -/

variable {α β : Type} {read : Json → Reading α} {write : β → Json} {f : β → α}

namespace Reading

@[simp]
theorem map_good (f : α → β) (a : α) : f <$> good a = good (f a) := rfl

@[simp]
theorem seq_good (f : α → β) (a : α) : good f <*> good a = good (f a) := rfl

@[simp]
theorem andThen_good (f : α → Reading β) (a : α) : (good a).andThen f = f a := rfl

@[simp]
theorem within_good (name : String) (a : α) : (good a).within name = good a := rfl

end Reading

@[simp]
theorem text_str (s : String) : text (.str s) = .good s := rfl

@[simp]
theorem truth_bool (b : Bool) : truth (.bool b) = .good b := rfl

@[simp]
theorem object_obj (fields : Fields) : object (.obj fields) = .good fields := rfl

@[simp]
theorem excerpt_eq (v : Json) : excerpt v = .good (.plain v) := rfl

@[simp]
theorem need_cons_self (name : String) (v : Json) (fields : Fields) :
    need ((name, v) :: fields) name read = (read v).within name := by
  simp [need]

@[simp]
theorem need_cons_of_ne {name other : String} (h : name ≠ other) (v : Json) (fields : Fields) :
    need ((other, v) :: fields) name read = need fields name read := by
  simp [need, List.lookup_cons, beq_eq_false_iff_ne.mpr h]

@[simp]
theorem field_cons_self (name : String) (v : Json) (fields : Fields) (fallback : α) :
    field ((name, v) :: fields) name fallback read = (read v).within name := by
  simp [field]

@[simp]
theorem field_cons_of_ne {name other : String} (h : name ≠ other) (v : Json) (fields : Fields)
    (fallback : α) : field ((other, v) :: fields) name fallback read =
      field fields name fallback read := by
  simp [field, List.lookup_cons, beq_eq_false_iff_ne.mpr h]

theorem optional_of_ne_null {v : Json} (h : v ≠ .null) :
    optional read v = (read v).map some := by
  cases v <;> first | rfl | exact absurd rfl h

/-- A value that may be missing is restored if it is when it is there. -/
theorem optional_elim_self {write : α → Json} {o : Option α} (hwrite : ∀ a, write a ≠ .null)
    (h : ∀ a ∈ o, read (write a) = .good a) : optional read (o.elim .null write) = .good o := by
  cases o with
  | none => rfl
  | some a =>
      rw [Option.elim_some, optional_of_ne_null (hwrite a), h a rfl]
      rfl

@[simp]
theorem optional_writeText? (s : Option String) : optional text (writeText? s) = .good s :=
  optional_elim_self (by simp) fun _ _ => rfl

theorem itemsFrom_map {items : List β} (h : ∀ b ∈ items, read (write b) = .good (f b)) (i : Nat) :
    itemsFrom read i (items.map write) = .good (items.map f) := by
  induction items generalizing i with
  | nil => rfl
  | cons b items ih =>
      obtain ⟨hb, hitems⟩ := List.forall_mem_cons.mp h
      rw [List.map_cons, itemsFrom, hb, ih hitems]
      rfl

/-- A list is restored if its items are. -/
theorem list_map {items : List β} (h : ∀ b ∈ items, read (write b) = .good (f b)) :
    list read (.arr (items.map write)) = .good (items.map f) :=
  itemsFrom_map h 0

/-- A list is restored as it was if its items are. -/
theorem list_map_self {write : α → Json} {items : List α}
    (h : ∀ a ∈ items, read (write a) = .good a) :
    list read (.arr (items.map write)) = .good items := by
  rw [list_map h, List.map_id']

@[simp]
theorem list_writeTexts (texts : List String) : list text (writeTexts texts) = .good texts :=
  list_map_self fun _ _ => rfl

/-! ## Models

A record says nothing of links: it is the same with them or without. -/

@[simp]
theorem writeConstraint_unlinked (c : Constraint) :
    writeConstraint c.unlinked = writeConstraint c := rfl

theorem readConstraint_write {c : Constraint} (h : ConstraintKind.ofName c.kind.name = c.kind) :
    readConstraint (writeConstraint c) = .good c.unlinked := by
  simp [readConstraint, writeConstraint, Constraint.unlinked, Excerpt.unlinked, h]

@[simp]
theorem writeProperty_unlinked (p : Property) : writeProperty p.unlinked = writeProperty p := by
  simp [writeProperty, Property.unlinked, Excerpt.unlinked, Excerpt.plain, Function.comp_def]

theorem readProperty_write {p : Property} (h : p.Regular) :
    readProperty (writeProperty p) = .good p.unlinked := by
  have hconstraints := list_map fun c hc => readConstraint_write (h.known c hc)
  have hvalues : list excerpt (.arr (p.enumValues.map (·.value))) =
      .good (p.enumValues.map Excerpt.unlinked) := list_map fun _ _ => rfl
  -- reading puts the optional marker in order, and with it nothing else
  have hread : readProperty (writeProperty p) = .good p.unlinked.settled := by
    simp [readProperty, writeProperty, hconstraints, hvalues, Property.unlinked, Excerpt.unlinked]
  rw [hread, Property.settled_unlinked, h.settled]

/-- Of texts nothing is dropped but those that repeat an earlier one. -/
theorem distinctEntries_writeTexts (texts : List String) :
    distinctEntries (writeTexts texts) = .good ((firsts texts).map .str) := by
  -- texts are not told apart by the equality of values when they are equal, and only then
  have hamong : ∀ (s : String) (kept : List String),
      (Json.str s).among (kept.map .str) = decide (s ∈ kept) := by
    intro s kept
    rw [Bool.eq_iff_iff]
    simp [Json.among, Json.same, Json.sameScalar]
  have hfold : ∀ kept : List String, (texts.map Json.str).foldl addUnlike (kept.map .str) =
      (texts.foldl addNew kept).map .str := by
    induction texts with
    | nil => exact fun _ => rfl
    | cons s texts ih =>
        intro kept
        rw [List.map_cons, List.foldl_cons, List.foldl_cons, ← ih, addUnlike, addNew, hamong]
        by_cases hs : s ∈ kept <;> simp [hs]
  cases texts with
  | nil => rfl
  | cons s texts => exact congrArg Reading.good (hfold [])

@[simp]
theorem writeModel_unlinked (m : Model) : writeModel m.unlinked = writeModel m := by
  simp [writeModel, Model.unlinked, Function.comp_def]

theorem readModel_write {m : Model} (h : m.Regular) :
    readModel (writeModel m) = .good m.unlinked := by
  have hproperties := list_map fun p hp => readProperty_write (h.properties p hp)
  have htexts : itemsFrom text 0 (m.dependsOn.map .str) = .good m.dependsOn :=
    list_writeTexts m.dependsOn
  simp [readModel, writeModel, hproperties, distinctEntries_writeTexts, firsts_of_nodup h.distinct,
    htexts, Model.unlinked]

@[simp]
theorem writeEnumMember_unlinked (m : EnumMember) :
    writeEnumMember m.unlinked = writeEnumMember m := rfl

theorem readEnumMember_write (m : EnumMember) :
    readEnumMember (writeEnumMember m) = .good m.unlinked := rfl

@[simp]
theorem writeEnumeration_unlinked (e : Enumeration) :
    writeEnumeration e.unlinked = writeEnumeration e := by
  simp [writeEnumeration, Enumeration.unlinked, Function.comp_def]

theorem readEnumeration_write (e : Enumeration) :
    readEnumeration (writeEnumeration e) = .good e.unlinked := by
  have hmembers := list_map fun m (_ : m ∈ e.members) => readEnumMember_write m
  simp [readEnumeration, writeEnumeration, hmembers, Enumeration.unlinked]

theorem readModelBatch_write {b : ModelBatch} (h : ∀ m ∈ b.models, m.Regular) :
    readModelBatch (writeModelBatch b) = .good b.unlinked := by
  have hmodels := list_map fun m hm => readModel_write (h m hm)
  have henums := list_map fun e (_ : e ∈ b.enums) => readEnumeration_write e
  simp [readModelBatch, writeModelBatch, hmodels, henums, ModelBatch.unlinked]

/-! ## Endpoints -/

theorem readParameter_write {p : Parameter} (h : p.Regular) :
    readParameter (writeParameter p) = .good p := by
  simp [readParameter, writeParameter, show ParameterKind.ofName p.kind.name = p.kind from h]

theorem readBody_write (b : Body) : readBody (writeBody b) = .good b := by
  simp [readBody, writeBody]

theorem readResponse_write (r : Response) : readResponse (writeResponse r) = .good r := by
  simp [readResponse, writeResponse]

theorem readEndpoint_write {e : Endpoint} (h : e.Regular) :
    readEndpoint (writeEndpoint e) = .good e := by
  have hparameters := list_map_self fun p hp => readParameter_write (h.parameters p hp)
  have harguments := list_map_self fun p hp => readParameter_write (h.arguments p hp)
  have hresponses := list_map_self fun r (_ : r ∈ e.responses) => readResponse_write r
  have hbody : optional readBody (e.body.elim .null writeBody) = .good e.body :=
    optional_elim_self (by simp [writeBody]) fun b _ => readBody_write b
  have hforced : optional integer (e.forcedStatus.elim .null .int) = .good e.forcedStatus :=
    optional_elim_self (by simp) fun _ _ => rfl
  simp [readEndpoint, writeEndpoint, h.method, hparameters, harguments, hresponses, hbody, hforced]

theorem readController_write {c : Controller} (h : ∀ e ∈ c.endpoints, e.Regular) :
    readController (writeController c) = .good c := by
  have hendpoints := list_map_self fun e he => readEndpoint_write (h e he)
  simp [readController, writeController, hendpoints]

theorem readService_write {s : Service} (h : ∀ e ∈ s.endpoints, e.Regular) :
    readService (writeService s) = .good s := by
  have hendpoints := list_map_self fun e he => readEndpoint_write (h e he)
  simp [readService, writeService, hendpoints]

/-! ## Batches -/

theorem writeBatch_unlinked (b : Batch) : writeBatch b.unlinked = writeBatch b := by
  simp [writeBatch, writeModelBatch, Batch.unlinked, ModelBatch.unlinked, Function.comp_def]

/-- Every part of a batch is restored by itself. -/
structure RestoresParts (b : Batch) : Prop where
  models : ∀ m ∈ b.models.models, readModel (writeModel m) = .good m.unlinked
  properties : ∀ m ∈ b.models.models, ∀ p ∈ m.properties,
    readProperty (writeProperty p) = .good p.unlinked
  constraints : ∀ m ∈ b.models.models, ∀ p ∈ m.properties, ∀ c ∈ p.constraints,
    readConstraint (writeConstraint c) = .good c.unlinked
  enums : ∀ e ∈ b.models.enums, readEnumeration (writeEnumeration e) = .good e.unlinked
  endpoints : ∀ e ∈ b.endpoints, readEndpoint (writeEndpoint e) = .good e
  parameters : ∀ e ∈ b.endpoints, ∀ p ∈ e.parameters ++ e.arguments,
    readParameter (writeParameter p) = .good p
  responses : ∀ e ∈ b.endpoints, ∀ r ∈ e.responses, readResponse (writeResponse r) = .good r

theorem restoresParts {b : Batch} (h : b.Regular) : RestoresParts b where
  models m hm := readModel_write (h.models m hm)
  properties m hm p hp := readProperty_write ((h.models m hm).properties p hp)
  constraints m hm p hp c hc := readConstraint_write (((h.models m hm).properties p hp).known c hc)
  enums e _ := readEnumeration_write e
  endpoints e he := readEndpoint_write (h.endpoints e he)
  parameters e he p hp := readParameter_write <| (List.mem_append.mp hp).elim
    ((h.endpoints e he).parameters p) ((h.endpoints e he).arguments p)
  responses _ _ r _ := readResponse_write r

/-- A regular batch is restored, with its excerpts shown as they are. -/
theorem readBatch_write {b : Batch} (h : b.Regular) :
    readBatch (writeBatch b) = .good b.unlinked := by
  have hmodels := readModelBatch_write h.models
  have hcontroller : optional readController (b.controller.elim .null writeController) =
      .good b.controller :=
    optional_elim_self (by simp [writeController]) fun c hc => readController_write fun e he =>
      h.endpoints e (Batch.mem_endpoints.mpr (Or.inl ⟨c, hc, he⟩))
  have hservice : optional readService (b.service.elim .null writeService) = .good b.service :=
    optional_elim_self (by simp [writeService]) fun s hs => readService_write fun e he =>
      h.endpoints e (Batch.mem_endpoints.mpr (Or.inr ⟨s, hs, he⟩))
  simp [readBatch, writeBatch, hmodels, hcontroller, hservice, Batch.unlinked]

end Record

end ApiScaffold
