import ApiScaffold.Endpoint.Compiler
import ApiScaffold.Proofs.Looking

set_option autoImplicit false

/-! # What compiling operations does

Every endpoint describes an operation of the document: its body and its responses are those that the
operation says (`Describes`). All that compiling changes is that responses in place claim names, one
after the other (`Claims`). -/

namespace ApiScaffold

/-! ## Reading records -/

namespace Record

variable {α β : Type} {kind : RecordKind}

theorem finish_eq_ok {r : Reading α} {a : α} (h : finish kind r = .ok a) : r = .good a := by
  cases r with
  | good b => exact congrArg Reading.good (Except.ok.inj h)
  | bad paths => cases h
  | stopped fault => cases h

theorem map_eq_good {f : α → β} {r : Reading α} {b : β} (h : f <$> r = .good b) :
    ∃ a, r = .good a ∧ b = f a := by
  cases r with
  | good a => exact ⟨a, rfl, (Reading.good.inj h).symm⟩
  | bad paths => cases h
  | stopped fault => cases h

theorem of_within_eq_good {name : String} {r : Reading α} {a : α}
    (h : r.within name = .good a) : r = .good a := by
  cases r with
  | good b => exact h
  | bad paths => cases h
  | stopped fault => cases h

theorem seq_eq_good {rf : Reading (α → β)} {r : Reading α} {b : β} (h : rf <*> r = .good b) :
    ∃ f a, rf = .good f ∧ r = .good a ∧ b = f a := by
  change rf.seq r = .good b at h
  cases rf with
  | good f =>
      cases r with
      | good a => exact ⟨f, a, rfl, rfl, (Reading.good.inj h).symm⟩
      | bad paths => cases h
      | stopped fault => cases h
  | bad paths => cases r <;> cases h
  | stopped fault => cases h

end Record

namespace EndpointCompiler

variable {c : EndpointCompiler} {s t : EndpointState} {schema : Node}

/-! ## The operations of a document -/

/-- The operation of a method in the item of a path, with its description. -/
def operationOf (c : EndpointCompiler) (path : String) (item : Node) (method : Method) :
    Except Fault (Option (Method × Node)) := do
  let operation ← item.get method.name
  if ← operation.isObject then
    return some (method, (← c.sourceOf method path operation).1)
  else return none

/-- The operations of the item of a path, each with its description. -/
def operationsOf (c : EndpointCompiler) (path : String) (item : Node) :
    Except Fault (List (Method × Node)) := do
  if !(← item.isObject) then return []
  Method.all.filterMapM (c.operationOf path item)

/-- All operations of the document in their order, each with its description. -/
def operations (c : EndpointCompiler) : Except Fault (List (Method × Node)) := do
  let paths ← (← c.resolved.top.get "paths").fieldsIfAny
  return (← paths.mapM fun p => c.operationsOf p.1 p.2).flatten

/-- What is read of the operation of a method in the item of a path. -/
def readOperation {α : Type} (read : Method → String → Node → Except Fault α) (path : String)
    (item : Node) (method : Method) : Except Fault (Option α) := do
  let operation ← item.get method.name
  if ← operation.isObject then return some (← read method path operation) else return none

/-- What is read of the operations of the item of a path. -/
def readItem {α : Type} (read : Method → String → Node → Except Fault α) (path : String)
    (item : Node) : Except Fault (List α) := do
  if !(← item.isObject) then return []
  Method.all.filterMapM (readOperation read path item)

/-- What is read of all operations of the document, in their order. -/
def readAll {α : Type} (c : EndpointCompiler) (read : Method → String → Node → Except Fault α) :
    Except Fault (List α) := do
  let paths ← (← c.resolved.top.get "paths").fieldsIfAny
  return (← paths.mapM fun p => readItem read p.1 p.2).flatten

/-- An operation with its description. -/
def describe (c : EndpointCompiler) (method : Method) (path : String) (operation : Node) :
    Except Fault (Method × Node) := do
  return (method, (← c.sourceOf method path operation).1)

/-- The operations of the document are read, each with its description. -/
theorem operations_eq : c.operations = c.readAll c.describe := by
  have hone : ∀ path item, c.operationOf path item = readOperation c.describe path item := by
    intro path item
    funext method
    simp only [operationOf, readOperation, describe, bind_assoc, pure_bind]
  simp only [operations, readAll, operationsOf, readItem, hone]

/-- The document has an operation of a method under a path. -/
def Lists (c : EndpointCompiler) (method : Method) (path : String) (operation : Node) : Prop :=
  method ∈ Method.all ∧ ∃ paths fields item, c.resolved.top.get "paths" = .ok paths ∧
    paths.fieldsIfAny = .ok fields ∧ (path, item) ∈ fields ∧ item.get method.name = .ok operation

/-- What is described as an operation of the document. -/
def IsOperation (c : EndpointCompiler) (source : Node) : Prop :=
  ∃ paths fields path item method operation shared, c.resolved.top.get "paths" = .ok paths ∧
    paths.fieldsIfAny = .ok fields ∧ (path, item) ∈ fields ∧
    item.get (Method.name method) = .ok operation ∧
    c.sourceOf method path operation = .ok (source, shared)

theorem Lists.isOperation {method : Method} {path : String} {operation source shared : Node}
    (h : c.Lists method path operation)
    (hsource : c.sourceOf method path operation = .ok (source, shared)) :
    c.IsOperation source := by
  obtain ⟨-, paths, fields, item, hpaths, hfields, hitem, hoperation⟩ := h
  exact ⟨paths, fields, path, item, method, operation, shared, hpaths, hfields, hitem, hoperation,
    hsource⟩

/-- The responses that an operation says, before they are compiled. -/
def rawOf (c : EndpointCompiler) (source : Node) : Except Fault (List RawResponse) := do
  rawResponses c.mapper.resolver (← (← source.get "responses").fieldsIfAny)

/-! ## Responses -/

/-- A schema that a response of some operation has. -/
def Answerable (c : EndpointCompiler) (schema : Node) : Prop :=
  ∃ source raw, c.IsOperation source ∧ c.rawOf source = .ok raw ∧
    ∃ r ∈ raw, r.schema = some schema

/-- What is described as an operation of the document has a name: the one that it says, or the one
that is made up from its method and path. -/
def Called (c : EndpointCompiler) (source : Node) (name : Json) : Prop :=
  ∃ method path operation shared id written, c.Lists method path operation ∧
    c.sourceOf method path operation = .ok (source, shared) ∧
    source.get "operationId" = .ok id ∧
    givenOr id (.str (Naming.operationName method.name path)) = .ok (written, name)

theorem Called.isOperation {source : Node} {name : Json} (h : c.Called source name) :
    c.IsOperation source := by
  obtain ⟨_, _, _, _, _, _, hlists, hsource, -⟩ := h
  exact hlists.isOperation hsource

/-- The name of an operation is what it says, or what is made up from its method and path. -/
theorem Called.given_or_usual {source : Node} {name : String} (h : c.Called source (.str name)) :
    (∃ id, source.get "operationId" = .ok id ∧ id.opened = .ok (.str name) ∧ name ≠ "") ∨
      ∃ method path operation, c.Lists method path operation ∧
        name = Naming.operationName method.name path := by
  obtain ⟨method, path, operation, _, id, written, hlists, -, hid, hname⟩ := h
  obtain ⟨value, hvalue, hgiven⟩ := bind_eq_ok.mp hname
  have hgiven := pure_eq_ok.mp hgiven
  split at hgiven
  · next hthere =>
      obtain rfl : value = .str name := (Prod.mk.inj hgiven).2
      exact Or.inl ⟨id, hid, hvalue, by simpa [Json.truthy] using hthere⟩
  · exact Or.inr ⟨method, path, operation, hlists, (Json.str.inj (Prod.mk.inj hgiven).2).symm⟩

/-- An operation of some name has a response of some status; where it is the only one of its kind,
the status is left out. -/
def Answers (c : EndpointCompiler) (name status : String) : Prop :=
  ∃ source raw r, c.Called source (.str name) ∧ c.rawOf source = .ok raw ∧ r ∈ raw ∧
    (status = "" ∨ status = r.status)

/-- What the name of the class of a response begins with. -/
def responseBase (name status : String) : String :=
  Naming.capitalize name ++ status ++ "Response"

/-- A response in place claims a name for its schema, made from those of its operation and itself. -/
def ClaimsOne (c : EndpointCompiler) (s t : EndpointState) : Prop :=
  ∃ operation status schema name, c.Answers operation status ∧ c.Answerable schema ∧
    isInlineResponse schema = .ok true ∧
    Yields (c.claimResponse (responseBase operation status) schema) s name t

/-- Responses in place claim names, one after the other. -/
def Claims (c : EndpointCompiler) : EndpointState → EndpointState → Prop :=
  Relation.ReflTransGen c.ClaimsOne

theorem yields_claimResponse {base name : String}
    (h : Yields (c.claimResponse base schema) s name t) :
    ∃ arena, s.arena.claim base schema "response" = .ok (name, arena) ∧
      t = if (c.mapper.names.schemaOf? name).isNone && !s.responseModels.any (·.1 == name) then
        { responseModels := s.responseModels ++ [(name, schema)], arena }
      else { s with arena } := by
  have h := yields_get_bind.mp h
  obtain ⟨⟨found, arena⟩, hclaim, hrest⟩ := yields_lift_bind.mp h
  have hlast := yields_set_bind.mp hrest
  dsimp only at hlast
  split at hlast
  · next hnew =>
      have hpure := yields_modify_bind.mp hlast
      obtain ⟨rfl, rfl⟩ := yields_pure.mp hpure
      exact ⟨arena, hclaim, by rw [if_pos hnew]⟩
  · next hold =>
      obtain ⟨rfl, rfl⟩ := yields_pure.mp hlast
      exact ⟨arena, hclaim, by rw [if_neg hold]⟩

/-- How a response is compiled: without a schema, with a name claimed for it, or with the type that
its schema stands for. -/
inductive CompiledResponse (c : EndpointCompiler) (s : EndpointState) (raw : RawResponse)
    (response : Response) (t : EndpointState) : Prop where
  | empty (hschema : raw.schema = none) (htype : response.typeExpression = "void")
      (hplace : response.inPlace = false) (ht : t = s)
  | inPlace {schema : Node} {operation status : String} (hschema : raw.schema = some schema)
      (hinline : isInlineResponse schema = .ok true) (hplace : response.inPlace = true)
      (hnamed : c.Answers operation status)
      (hclaim : Yields (c.claimResponse (responseBase operation status) schema) s
        response.typeExpression t)
  | typed {schema : Node} {type : TypeExpr} (hschema : raw.schema = some schema)
      (hother : c.synthesize = true → isInlineResponse schema = .ok false)
      (htype : c.mapper.mapBody schema = .ok type) (htext : response.typeExpression = type.text)
      (hplace : response.inPlace = false) (ht : t = s)

theorem operationBase_eq_ok {operation : Json} {base : String}
    (h : operationBase operation = .ok base) :
    ∃ name, operation = .str name ∧ base = Naming.capitalize name := by
  cases operation with
  | str name => exact ⟨name, rfl, (Except.ok.inj h).symm⟩
  | _ => cases h

/-- However the type of a response was found, its record is filled in the same way. -/
theorem yields_responseRecord {raw : RawResponse} {typeExpression : String} {inPlace : Bool}
    {response : Response}
    (h : Yields (do
      let description := (← liftM (raw.response.get "description")).value
      liftM <| Record.finish .response
        ((fun description => { status := raw.status, typeExpression, description, inPlace })
          <$> field "description" (Record.optional Record.text) description)) s response t) :
    response.status = raw.status ∧ response.typeExpression = typeExpression ∧
      response.inPlace = inPlace ∧ t = s := by
  obtain ⟨node, -, h⟩ := yields_lift_bind.mp h
  obtain ⟨hfinish, rfl⟩ := yields_lift.mp h
  obtain ⟨description, -, rfl⟩ := Record.map_eq_good (Record.finish_eq_ok hfinish)
  exact ⟨rfl, rfl, rfl, rfl⟩

theorem yields_compileResponse {operation : Json} {several : Bool} {source : Node}
    {all : List RawResponse} {raw : RawResponse} {response : Response}
    (hcalled : c.Called source operation) (hall : c.rawOf source = .ok all) (hraw : raw ∈ all)
    (h : Yields (c.compileResponse operation several raw) s response t) :
    response.status = raw.status ∧ CompiledResponse c s raw response t := by
  unfold compileResponse at h
  dsimp only at h
  split at h
  · next hschema =>
      obtain ⟨hstatus, htype, hplace, rfl⟩ := yields_responseRecord h
      exact ⟨hstatus, .empty hschema htype hplace rfl⟩
  · next schema hschema =>
      obtain ⟨inline, hinline, hrest⟩ := yields_lift_bind.mp h
      split at hrest
      · next hboth =>
          rw [Bool.and_eq_true] at hboth
          obtain ⟨base, hbase, hnamed⟩ := yields_lift_bind.mp hrest
          obtain ⟨name, u, hclaim, hend⟩ := yields_bind.mp hnamed
          obtain ⟨hstatus, htype, hplace, rfl⟩ := yields_responseRecord hend
          obtain rfl : response.typeExpression = name := htype
          obtain ⟨called, rfl, rfl⟩ := operationBase_eq_ok hbase
          refine ⟨hstatus, .inPlace hschema (hboth.2 ▸ hinline) hplace ?_ hclaim⟩
          refine ⟨source, all, raw, hcalled, hall, hraw, ?_⟩
          cases several with
          | true => exact Or.inr rfl
          | false => exact Or.inl rfl
      · next hnot =>
          obtain ⟨type, htype, hend⟩ := yields_lift_bind.mp hrest
          obtain ⟨hstatus, htext, hplace, rfl⟩ := yields_responseRecord hend
          refine ⟨hstatus, .typed hschema (fun hsynthesize => ?_) htype htext hplace rfl⟩
          rw [hsynthesize, Bool.true_and, Bool.not_eq_true] at hnot
          exact hnot ▸ hinline

theorem CompiledResponse.claims {raw : RawResponse} {response : Response}
    (h : CompiledResponse c s raw response t)
    (hraw : ∀ schema, raw.schema = some schema → c.Answerable schema) : c.Claims s t := by
  cases h with
  | empty _ _ _ ht => exact ht ▸ .refl
  | typed _ _ _ _ _ ht => exact ht ▸ .refl
  | inPlace hschema hinline _ hnamed hclaim =>
      exact .single ⟨_, _, _, _, hnamed, hraw _ hschema, hinline, hclaim⟩

/-- When objects in place become classes, the responses in place are those whose schema describes
one. -/
theorem CompiledResponse.inPlace_iff {raw : RawResponse} {response : Response}
    (hsynthesize : c.synthesize = true) (h : CompiledResponse c s raw response t) :
    response.inPlace = true ↔
      ∃ schema, raw.schema = some schema ∧ isInlineResponse schema = .ok true := by
  cases h with
  | empty hschema _ hplace _ => simp [hschema, hplace]
  | inPlace hschema hinline hplace _ _ => simp [hschema, hinline, hplace]
  | typed hschema hother _ _ hplace _ => simp [hschema, hother hsynthesize, hplace]

/-- Between two states a response is compiled. -/
structure CompiledBetween (c : EndpointCompiler) (s t : EndpointState) (raw : RawResponse)
    (response : Response) : Prop where
  status : response.status = raw.status
  run : ∃ u v, c.Claims s u ∧ CompiledResponse c u raw response v ∧ c.Claims v t

theorem CompiledBetween.mono {s' t' : EndpointState} {raw : RawResponse} {response : Response}
    (h : CompiledBetween c s t raw response) (hs : c.Claims s' s) (ht : c.Claims t t') :
    CompiledBetween c s' t' raw response := by
  obtain ⟨u, v, hu, hresponse, hv⟩ := h.run
  exact ⟨h.status, u, v, hs.trans hu, hresponse, hv.trans ht⟩

/-! ## Operations -/

/-- Between two states an endpoint is compiled for an operation. -/
structure Describes (c : EndpointCompiler) (s t : EndpointState) (operation : Method × Node)
    (e : Endpoint) : Prop where
  isOperation : c.IsOperation operation.2
  method : e.method = operation.1
  body : (do c.compileBody (← operation.2.get "requestBody")) = .ok e.body
  responses : ∃ raw, c.rawOf operation.2 = .ok raw ∧
    List.Forall₂ (CompiledBetween c s t) raw e.responses
  returnType : e.returnType = ApiScaffold.returnType c.includeErrors e.responses

theorem Describes.mono {s' t' : EndpointState} {operation : Method × Node} {e : Endpoint}
    (h : Describes c s t operation e) (hs : c.Claims s' s) (ht : c.Claims t t') :
    Describes c s' t' operation e := by
  obtain ⟨raw, hraw, hall⟩ := h.responses
  exact { h with responses := ⟨raw, hraw, hall.imp fun _ _ hresponse => hresponse.mono hs ht⟩ }

theorem yields_compileResponses {operation : Json} {source node : Node}
    {responses : List Response} (hnode : source.get "responses" = .ok node)
    (h : Yields (c.compileResponses operation node) s responses t) :
    ∃ raw several, c.rawOf source = .ok raw ∧
      Yields (raw.mapM (c.compileResponse operation several)) s responses t := by
  obtain ⟨raw, hraw, h⟩ := yields_lift_bind.mp h
  obtain ⟨madeUp, -, h⟩ := yields_lift_bind.mp h
  exact ⟨raw, _, bind_eq_ok.mpr ⟨node, hnode, hraw⟩, h⟩

/-- The argument for a body. -/
def bodyArgument (b : Body) : Parameter where
  name := "body"
  wireName := "body"
  kind := .body
  required := true
  typeExpression := b.typeExpression
  description := b.description

/-- Between two states an endpoint is filled in from the description of an operation and the item of
its path; the name is the one that is written, and classes are named for the one that it stands
for. -/
structure FilledIn (c : EndpointCompiler) (s t : EndpointState) (method : Method) (path : String)
    (source item : Node) (e : Endpoint) : Prop where
  named : ∃ id name shownName, source.get "operationId" = .ok id ∧
    givenOr id (.str (Naming.operationName method.name path)) = .ok (name, shownName) ∧
    Record.text name = .good e.operationName ∧
    ∃ node, source.get "responses" = .ok node ∧
      Yields (c.compileResponses shownName node) s e.responses t
  body : (do c.compileBody (← source.get "requestBody")) = .ok e.body
  returnType : e.returnType = ApiScaffold.returnType c.includeErrors e.responses
  path : e.path = if Text.beginsWith "/" path then path else "/" ++ path
  method : e.method = method
  parameters : c.compileParameters item source = .ok e.parameters
  arguments : e.arguments = Parameter.ordered (e.parameters ++ e.body.toList.map bodyArgument)

theorem yields_compile {method : Method} {path : String} {operation : Node} {e : Endpoint}
    (h : Yields (c.compile method path operation) s e t) :
    ∃ source item, c.sourceOf method path operation = .ok (source, item) ∧
      FilledIn c s t method path source item e := by
  obtain ⟨⟨source, item⟩, hsource, h⟩ := yields_lift_bind.mp h
  obtain ⟨id, hid, h⟩ := yields_lift_bind.mp h
  obtain ⟨⟨name, shownName⟩, hname, h⟩ := yields_lift_bind.mp h
  obtain ⟨parameters, hparameters, h⟩ := yields_lift_bind.mp h
  obtain ⟨body, hbody, h⟩ := yields_lift_bind.mp h
  obtain ⟨node, hnode, h⟩ := yields_lift_bind.mp h
  obtain ⟨responses, u, hresponses, h⟩ := yields_bind.mp h
  obtain ⟨_, -, h⟩ := yields_lift_bind.mp h
  obtain ⟨_, -, h⟩ := yields_lift_bind.mp h
  obtain ⟨deprecated, -, h⟩ := yields_lift_bind.mp h
  obtain ⟨tags, -, h⟩ := yields_lift_bind.mp h
  obtain ⟨forced, -, h⟩ := yields_lift_bind.mp h
  obtain ⟨hfinish, rfl⟩ := yields_lift.mp h
  -- the outermost reading is that of the last field
  obtain ⟨_, isDeprecated, hreading, -, hlast⟩ := Record.seq_eq_good (Record.finish_eq_ok hfinish)
  obtain ⟨_, description, hreading, -, hthird⟩ := Record.seq_eq_good hreading
  obtain ⟨_, summary, hreading, -, hsecond⟩ := Record.seq_eq_good hreading
  obtain ⟨originalName, htext, hfirst⟩ := Record.map_eq_good hreading
  rw [hfirst] at hsecond
  rw [hsecond] at hthird
  rw [hthird] at hlast
  subst hlast
  exact ⟨source, item, hsource, ⟨id, name, shownName, hid, hname,
    Record.of_within_eq_good htext, node, hnode, hresponses⟩, hbody, rfl, rfl, rfl, hparameters, rfl⟩

theorem FilledIn.describes {method : Method} {path : String} {operation source item : Node}
    {e : Endpoint} (h : FilledIn c s t method path source item e)
    (hlists : c.Lists method path operation)
    (hsource : c.sourceOf method path operation = .ok (source, item)) :
    c.Claims s t ∧ Describes c s t (method, source) e := by
  obtain ⟨id, written, shownName, hid, hname, -, node, hnode, hresponses⟩ := h.named
  obtain ⟨raw, several, hraw, hall⟩ := yields_compileResponses hnode hresponses
  have hcalled : c.Called source shownName :=
    ⟨method, path, operation, item, id, written, hlists, hsource, hid, hname⟩
  have hclaims : ∀ r ∈ raw, ∀ s response t,
      Yields (c.compileResponse shownName several r) s response t → c.Claims s t := by
    intro r hr s response t h
    refine (yields_compileResponse hcalled hraw hr h).2.claims fun schema hschema => ?_
    exact ⟨source, raw, hcalled.isOperation, hraw, r, hr, hschema⟩
  obtain ⟨hrun, hresponses⟩ := yields_mapM (R := c.Claims) (fun _ => .refl)
    (fun _ _ _ => Relation.ReflTransGen.trans) hclaims hall
  have heach := (List.forall₂_and_left (p := (· ∈ raw)) _ _).mpr ⟨fun r hr => hr, hresponses⟩
  refine ⟨hrun, hcalled.isOperation, h.method, h.body, ⟨raw, hraw, heach.imp ?_⟩, h.returnType⟩
  rintro r response ⟨hr, u, v, hu, hresponse, hv⟩
  obtain ⟨hstatus, hcompiled⟩ := yields_compileResponse hcalled hraw hr hresponse
  exact ⟨hstatus, u, v, hu, hcompiled, hv⟩

/-! ## All operations

What holds between an operation and its endpoint while the operation is compiled holds of all
operations, one by one. -/

section Reading

variable {α : Type} {read : Method → String → Node → Except Fault α}
  {Q : EndpointState → EndpointState → α → Endpoint → Prop}

/-- Between what is read of an operation and its endpoint there is a relation that lasts while more
names are claimed. -/
structure Relates (c : EndpointCompiler) (read : Method → String → Node → Except Fault α)
    (Q : EndpointState → EndpointState → α → Endpoint → Prop) : Prop where
  mono : ∀ s' s t t' a e, c.Claims s' s → Q s t a e → c.Claims t t' → Q s' t' a e
  compile : ∀ method path operation s e t, c.Lists method path operation →
    Yields (c.compile method path operation) s e t →
    ∃ a, read method path operation = .ok a ∧ Q s t a e

theorem Lists.claims {method : Method} {path : String} {operation : Node} {e : Endpoint}
    (hlists : c.Lists method path operation)
    (h : Yields (c.compile method path operation) s e t) : c.Claims s t := by
  obtain ⟨source, shared, hsource, hfilled⟩ := yields_compile h
  exact (hfilled.describes hlists hsource).1

theorem yields_compileItem (hQ : Relates c read Q) {paths : Node} {fields : List (String × Node)}
    {p : String × Node} {es : List Endpoint} (hpaths : c.resolved.top.get "paths" = .ok paths)
    (hfields : paths.fieldsIfAny = .ok fields) (hp : p ∈ fields)
    (h : Yields (c.compileItem p.1 p.2) s es t) :
    c.Claims s t ∧ ∃ as, readItem read p.1 p.2 = .ok as ∧ List.Forall₂ (Q s t) as es := by
  obtain ⟨isObject, hobject, h⟩ := yields_lift_bind.mp h
  cases isObject with
  | false =>
      obtain ⟨rfl, rfl⟩ := yields_pure.mp h
      exact ⟨.refl, [], bind_eq_ok.mpr ⟨false, hobject, rfl⟩, .nil⟩
  | true =>
      -- for a method there is an endpoint just when there is an operation
      have hstep : ∀ method ∈ Method.all, ∀ s e? t, Yields (do
          let operation ← liftM (p.2.get method.name)
          if ← liftM operation.isObject then return some (← c.compile method p.1 operation)
          else return none) s e? t →
          c.Claims s t ∧ ∃ a?, readOperation read p.1 p.2 method = .ok a? ∧
            Option.Rel (Q s t) a? e? := by
        intro method hmethod s e? t h
        obtain ⟨operation, hoperation, h⟩ := yields_lift_bind.mp h
        obtain ⟨isObject, hobject, h⟩ := yields_lift_bind.mp h
        cases isObject with
        | false =>
            obtain ⟨rfl, rfl⟩ := yields_pure.mp h
            exact ⟨.refl, none,
              bind_eq_ok.mpr ⟨operation, hoperation, bind_eq_ok.mpr ⟨false, hobject, rfl⟩⟩, .none⟩
        | true =>
            obtain ⟨e, v, he, h⟩ := yields_bind.mp h
            obtain ⟨rfl, rfl⟩ := yields_pure.mp h
            have hlists : c.Lists method p.1 operation :=
              ⟨hmethod, paths, fields, p.2, hpaths, hfields, hp, hoperation⟩
            obtain ⟨a, ha, hrel⟩ := hQ.compile method p.1 operation s e _ hlists he
            refine ⟨hlists.claims he, some a, ?_, .some hrel⟩
            exact bind_eq_ok.mpr ⟨operation, hoperation, bind_eq_ok.mpr ⟨true, hobject,
              bind_eq_ok.mpr ⟨a, ha, rfl⟩⟩⟩
      obtain ⟨hrun, as, has, hall⟩ := yields_filterMapM (fun _ => .refl)
        (fun _ _ _ => Relation.ReflTransGen.trans) hQ.mono hstep h
      exact ⟨hrun, as, bind_eq_ok.mpr ⟨true, hobject, has⟩, hall⟩

/-- Compiling all operations claims names from the first state on, and there is an endpoint for
what is read of each operation. -/
theorem yields_compileAll_read (hQ : Relates c read Q) {endpoints : List Endpoint}
    (h : Yields c.compileAll s endpoints t) :
    c.Claims c.start t ∧ ∃ as, c.readAll read = .ok as ∧
      List.Forall₂ (Q c.start t) as endpoints := by
  have h := yields_set_bind.mp h
  obtain ⟨fields, hfields, h⟩ := yields_lift_bind.mp h
  obtain ⟨paths, hpaths, hfields⟩ := bind_eq_ok.mp hfields
  obtain ⟨lists, u, hlists, h⟩ := yields_bind.mp h
  obtain ⟨rfl, rfl⟩ := yields_pure.mp h
  obtain ⟨hrun, hall⟩ := yields_mapM (R := c.Claims) (fun _ => .refl)
    (fun _ _ _ => Relation.ReflTransGen.trans)
    (fun p hp s es t h => (yields_compileItem hQ hpaths hfields hp h).1) hlists
  have hitems : List.Forall₂ (fun p es => ∃ as, readItem read p.1 p.2 = .ok as ∧
      List.Forall₂ (Q c.start t) as es) fields lists := by
    refine ((List.forall₂_and_left _ _).mpr ⟨fun p hp => hp, hall⟩).imp ?_
    rintro p es ⟨hp, u, v, hu, hes, hv⟩
    obtain ⟨-, as, has, hrel⟩ := yields_compileItem hQ hpaths hfields hp hes
    exact ⟨as, has, hrel.imp fun a e h => hQ.mono _ _ _ _ a e hu h hv⟩
  obtain ⟨ass, hass, hall⟩ := mapM_of_forall₂ hitems
  refine ⟨hrun, ass.flatten, ?_, List.rel_flatten hall⟩
  exact bind_eq_ok.mpr ⟨paths, hpaths, bind_eq_ok.mpr ⟨fields, hfields,
    bind_eq_ok.mpr ⟨ass, hass, rfl⟩⟩⟩

end Reading

theorem relates_describes : Relates c c.describe (Describes c) where
  mono := fun _ _ _ _ _ _ hs h ht => h.mono hs ht
  compile := by
    intro method path operation s e t hlists h
    obtain ⟨source, shared, hsource, hfilled⟩ := yields_compile h
    exact ⟨(method, source), bind_eq_ok.mpr ⟨(source, shared), hsource, rfl⟩,
      (hfilled.describes hlists hsource).2⟩

/-- Compiling all operations claims names from the first state on, and there is an endpoint for
each operation. -/
theorem yields_compileAll {endpoints : List Endpoint} (h : Yields c.compileAll s endpoints t) :
    c.Claims c.start t ∧ ∃ ops, c.operations = .ok ops ∧
      List.Forall₂ (Describes c c.start t) ops endpoints :=
  operations_eq (c := c) ▸ yields_compileAll_read relates_describes h

end EndpointCompiler

/-! ## Where the schemas of responses are -/

section Closed

open EndpointCompiler

variable {P : Node → Prop} {content : Node} {c : EndpointCompiler} {schema : Node}

theorem Closed.jsonSchema (h : Closed P) (hn : P content)
    (hschema : EndpointCompiler.jsonSchema content = .ok (some schema)) : P schema := by
  have hmedia : ∀ m, P m → (do
      if !(← m.isObject) then return none
      let schema ← m.get "schema"
      return if schema.isAbsent then none else some schema) =
      (Except.ok (some schema) : Except Fault (Option Node)) → P schema := by
    intro m hin hmedia
    obtain ⟨isObject, -, hmedia⟩ := bind_eq_ok.mp hmedia
    cases isObject with
    | false => cases pure_eq_ok.mp hmedia
    | true =>
        obtain ⟨node, hnode, hmedia⟩ := bind_eq_ok.mp hmedia
        have hlast := pure_eq_ok.mp hmedia
        split at hlast
        · cases hlast
        · obtain rfl := Option.some.inj hlast
          exact h.get hin hnode
  obtain ⟨isObject, -, hschema⟩ := bind_eq_ok.mp hschema
  cases isObject with
  | false => cases pure_eq_ok.mp hschema
  | true =>
      obtain ⟨plain, hplain, hschema⟩ := bind_eq_ok.mp hschema
      dsimp only at hschema
      split at hschema
      · obtain ⟨fields, hfields, hschema⟩ := bind_eq_ok.mp hschema
        cases hjson : jsonField? fields with
        | none =>
            rw [hjson] at hschema
            cases pure_eq_ok.mp hschema
        | some m =>
            rw [hjson] at hschema
            obtain ⟨f, hf, rfl⟩ := Option.map_eq_some_iff.mp hjson
            exact hmedia f.2 (h.fields hn hfields f (List.mem_of_find?_eq_some hf)) hschema
      · exact hmedia plain (h.get hn hplain) hschema

/-- Where a response comes from that was read. -/
theorem mem_rawResponses {r : Resolver} {responses : List (String × Node)} {raw : List RawResponse}
    (hraw : EndpointCompiler.rawResponses r responses = .ok raw) {x : RawResponse} (hx : x ∈ raw) :
    ∃ entry content, (x.status, entry) ∈ responses ∧ r.objectAt entry = .ok (some x.response) ∧
      x.response.get "content" = .ok content ∧
      EndpointCompiler.jsonSchema content = .ok x.schema := by
  obtain ⟨found, hfound, hraw⟩ := bind_eq_ok.mp hraw
  obtain ⟨keyed, hkeyed, hraw⟩ := bind_eq_ok.mp hraw
  obtain rfl := pure_eq_ok.mp hraw
  obtain ⟨⟨status, response, listed⟩, hmem, hx⟩ := mem_of_mapM hkeyed x (List.mem_mergeSort.mp hx)
  obtain ⟨key, -, hx⟩ := bind_eq_ok.mp hx
  obtain rfl := pure_eq_ok.mp hx
  obtain ⟨⟨status', entry⟩, hentry, hobject⟩ := mem_of_filterMapM hfound _ hmem
  obtain ⟨target?, htarget, hobject⟩ := bind_eq_ok.mp hobject
  cases target? with
  | none => cases pure_eq_ok.mp hobject
  | some target =>
      obtain ⟨content, hcontent, hobject⟩ := bind_eq_ok.mp hobject
      obtain ⟨last, hlast, hobject⟩ := bind_eq_ok.mp hobject
      cases Option.some.inj (pure_eq_ok.mp hobject)
      exact ⟨entry, content, hentry, htarget, hcontent, hlast⟩

theorem Closed.rawResponses (h : Closed P) {r : Resolver} (hr : P r.document.top)
    {responses : List (String × Node)} (hall : ∀ f ∈ responses, P f.2) {raw : List RawResponse}
    (hraw : EndpointCompiler.rawResponses r responses = .ok raw) :
    ∀ x ∈ raw, ∀ schema, x.schema = some schema → P schema := by
  intro x hx schema hschema
  obtain ⟨entry, content, hentry, htarget, hcontent, hlast⟩ := mem_rawResponses hraw hx
  rw [hschema] at hlast
  exact h.jsonSchema (h.get (h.objectAt hr (hall _ hentry) htarget) hcontent) hlast

theorem Closed.pathItem (h : Closed P) {document : Document} (htop : P document.top)
    {path : String} {item : Node}
    (hitem : EndpointCompiler.pathItem document path = .ok (some item)) :
    P item := by
  obtain ⟨paths, hpaths, hitem⟩ := bind_eq_ok.mp hitem
  obtain ⟨truthy, -, hitem⟩ := bind_eq_ok.mp hitem
  cases truthy with
  | false => cases pure_eq_ok.mp hitem
  | true =>
      obtain ⟨found, hfound, hitem⟩ := bind_eq_ok.mp hitem
      obtain ⟨isObject, -, hitem⟩ := bind_eq_ok.mp hitem
      cases isObject with
      | false => cases pure_eq_ok.mp hitem
      | true =>
          obtain rfl := Option.some.inj (pure_eq_ok.mp hitem)
          exact h.get (h.get htop hpaths) hfound

/-- An operation is described by the document as it was written, or by itself. -/
theorem Closed.sourceOf (h : Closed P) (hwritten : P c.written.top)
    (hresolver : P c.mapper.resolver.document.top) {method : Method} {path : String}
    {operation source shared : Node} (hoperation : P operation)
    (hsource : c.sourceOf method path operation = .ok (source, shared)) : P source := by
  -- without an operation of its own, the path has the one that it was given
  have hgiven : ∀ {nothing : Node}, (do
      return (operation, (← EndpointCompiler.pathItem c.resolved path).getD nothing)) =
      (Except.ok (source, shared) : Except Fault (Node × Node)) → P source := by
    intro nothing hgiven
    obtain ⟨_, -, hgiven⟩ := bind_eq_ok.mp hgiven
    exact (Prod.mk.inj (pure_eq_ok.mp hgiven)).1 ▸ hoperation
  obtain ⟨listed, hlisted, hsource⟩ := bind_eq_ok.mp hsource
  cases listed with
  | none => exact hgiven hsource
  | some node =>
      obtain ⟨item, hitem, hsource⟩ := bind_eq_ok.mp hsource
      cases item with
      | none => exact hgiven hsource
      | some node' =>
          have hin : P node' := h.objectAt hresolver (h.pathItem hwritten hlisted) hitem
          obtain ⟨own, hown, hsource⟩ := bind_eq_ok.mp hsource
          obtain ⟨isObject, -, hsource⟩ := bind_eq_ok.mp hsource
          cases isObject with
          | false => exact hgiven hsource
          | true => exact (Prod.mk.inj (pure_eq_ok.mp hsource)).1 ▸ h.get hin hown

/-- Looking leads from the documents to what is described as an operation. -/
theorem Closed.isOperation (h : Closed P) (hresolved : P c.resolved.top) (hwritten : P c.written.top)
    (hresolver : P c.mapper.resolver.document.top) {source : Node} (hsource : c.IsOperation source) :
    P source := by
  obtain ⟨paths, fields, path, item, method, operation, shared, hpaths, hfields, hp, hget, hsource⟩ :=
    hsource
  have hitem : P item := h.fieldsIfAny (h.get hresolved hpaths) hfields (path, item) hp
  exact h.sourceOf hwritten hresolver (h.get hitem hget) hsource

/-- Looking leads from the documents to the schemas of responses. -/
theorem Closed.answerable (h : Closed P) (hresolved : P c.resolved.top) (hwritten : P c.written.top)
    (hresolver : P c.mapper.resolver.document.top) (hschema : c.Answerable schema) : P schema := by
  obtain ⟨source, raw, hoperation, hraw, r, hr, hlast⟩ := hschema
  have hin : P source := h.isOperation hresolved hwritten hresolver hoperation
  obtain ⟨node, hnode, hraw⟩ := bind_eq_ok.mp hraw
  obtain ⟨responses, hresponses, hraw⟩ := bind_eq_ok.mp hraw
  exact h.rawResponses hresolver (h.fieldsIfAny (h.get hin hnode) hresponses) hraw r hr schema hlast

end Closed

end ApiScaffold
