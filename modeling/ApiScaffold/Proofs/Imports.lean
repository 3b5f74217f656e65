import ApiScaffold.Proofs.Bodies
import ApiScaffold.Proofs.Responses

set_option autoImplicit false

/-! # The names that a controller imports

The types of bodies and of responses name plain types, models and enumerations. Those that a pointer
to a named schema gives are in the batch, and so are the classes of responses in place. A pointer
into a schema gives texts a name too, which nothing declares (`Stray`), and a name with bars,
brackets or blanks at its ends is not imported as it is (`Dangling.broken`). Every other name is that
of a model or of an enumeration of the batch. -/

namespace ApiScaffold

/-! ## Names without a schema -/

namespace Mapper

/-- A name that a pointer gives without naming a schema: it leads into a schema that lists texts, or
to all named schemas at once. -/
inductive Stray (m : Mapper) (schema : Node) (name : String) : Prop where
  | texts {n target : Node} {pointer : String} (hn : Relation.ReflTransGen (Part m) schema n)
      (h : RefersToTexts m n pointer target) (hpointer : Pointer.namesSchema pointer = false)
      (hname : name = Naming.enumName (Pointer.name pointer))
  | schemas {n target : Node} (hn : Relation.ReflTransGen (Part m) schema n)
      (h : RefersToModel m n Pointer.schemas target) (hname : name = m.names.classOf "schemas")

end Mapper

/-! ## What an endpoint shows -/

namespace EndpointCompiler

variable {c : EndpointCompiler} {s t : EndpointState} {schema : Node} {text : String}

/-- A schema that the body of a request of some operation has. -/
def Requested (c : EndpointCompiler) (schema : Node) : Prop :=
  ∃ source request node content, c.IsOperation source ∧ source.get "requestBody" = .ok request ∧
    c.mapper.resolver.objectAt request = .ok (some node) ∧ node.get "content" = .ok content ∧
    jsonSchema content = .ok (some schema)

/-- The type of a body or a response: none, a name claimed for a schema in place, or what a schema of
an operation is mapped to. -/
inductive Shown (c : EndpointCompiler) (t : EndpointState) (text : String) : Prop where
  | empty (htext : text = "void")
  | claimed {schema : Node} (hanswer : c.Answerable schema)
      (hinline : isInlineResponse schema = .ok true) (h : NamedFor t text schema)
      (hname : ∃ base, text = ModelName.ofBase base)
  | mapped {schema : Node} {type : TypeExpr} (hschema : c.Answerable schema ∨ c.Requested schema)
      (hmap : c.mapper.mapBody schema = .ok type) (htext : text = type.text)

theorem compileBody_eq_ok {request : Node} {body : Body}
    (h : c.compileBody request = .ok (some body)) :
    ∃ node content schema type, c.mapper.resolver.objectAt request = .ok (some node) ∧
      node.get "content" = .ok content ∧ jsonSchema content = .ok (some schema) ∧
      c.mapper.mapBody schema = .ok type ∧ body.typeExpression = type.text := by
  obtain ⟨node?, hnode, h⟩ := bind_eq_ok.mp h
  cases node? with
  | none => cases pure_eq_ok.mp h
  | some node =>
      obtain ⟨content, hcontent, h⟩ := bind_eq_ok.mp h
      obtain ⟨schema?, hschema, h⟩ := bind_eq_ok.mp h
      cases schema? with
      | none => cases pure_eq_ok.mp h
      | some schema =>
          obtain ⟨type, htype, h⟩ := bind_eq_ok.mp h
          obtain ⟨description, -, h⟩ := bind_eq_ok.mp h
          obtain ⟨found, hfound, h⟩ := bind_eq_ok.mp h
          obtain rfl := Option.some.inj (pure_eq_ok.mp h)
          obtain ⟨_, -, rfl⟩ := Record.map_eq_good (Record.finish_eq_ok hfound)
          exact ⟨node, content, schema, type, hnode, hcontent, hschema, htype, rfl⟩

section Shown

variable {resolved written : Document} {synthesize : Bool} {spec : Option String}
  {named : List (String × Node)}

theorem CompiledBetween.shown (hc : MadeFor c resolved written synthesize spec named)
    {raw : RawResponse} {response : Response} (h : CompiledBetween c c.start t raw response)
    (hanswer : ∀ schema, raw.schema = some schema → c.Answerable schema) :
    Shown c t response.typeExpression := by
  have hbetween := h
  obtain ⟨u, v, -, hresponse, -⟩ := h.run
  cases hresponse with
  | empty _ htype => exact .empty htype
  | typed hschema _ htype htext => exact .mapped (Or.inl (hanswer _ hschema)) htype htext
  | inPlace hschema hinline hplace _ hclaim =>
      have hthis := hanswer _ hschema
      obtain ⟨arena, hnamed, -⟩ := yields_claimResponse hclaim
      obtain ⟨-, -, k, -, -, hname, -⟩ := Registry.claim_spec hnamed
      exact .claimed hthis hinline (hbetween.namedFor hc hplace hschema hthis).2 ⟨_, hname⟩

theorem Describes.responses_shown (hc : MadeFor c resolved written synthesize spec named)
    {operation : Method × Node} {e : Endpoint} (h : Describes c c.start t operation e) :
    ∀ r ∈ e.responses, Shown c t r.typeExpression := by
  obtain ⟨raw, hraw, hall⟩ := h.responses
  intro response hresponse
  obtain ⟨r, hr, hbetween⟩ := exists_left_of_forall₂ hall response hresponse
  exact hbetween.shown hc fun schema hschema =>
    ⟨operation.2, raw, h.isOperation, hraw, r, hr, hschema⟩

theorem Describes.body_shown {operation : Method × Node} {e : Endpoint} {body : Body}
    (h : Describes c s t operation e) (hbody : e.body = some body) :
    Shown c t body.typeExpression := by
  obtain ⟨request, hrequest, hcompiled⟩ := bind_eq_ok.mp h.body
  rw [hbody] at hcompiled
  obtain ⟨node, content, schema, type, hnode, hcontent, hschema, htype, htext⟩ :=
    compileBody_eq_ok hcompiled
  exact .mapped (Or.inr ⟨operation.2, request, node, content, h.isOperation, hrequest, hnode,
    hcontent, hschema⟩) htype htext

end Shown

end EndpointCompiler

/-- The type that a method returns has no names but those of its responses. -/
theorem mem_unionMembers_returnType {includeErrors : Bool} {responses : List Response} {n : String}
    (h : ∀ r ∈ responses, Closing r.typeExpression.toList)
    (hn : n ∈ unionMembers (returnType includeErrors responses)) :
    n ∈ plainTypes ∨ ∃ r ∈ responses, n ∈ unionMembers r.typeExpression := by
  have hplain : ∀ name ∈ ["any", "void"], ∀ n ∈ unionMembers name, n ∈ plainTypes := by decide
  unfold returnType at hn
  dsimp only at hn
  split at hn
  · left
    split at hn
    · exact hplain "any" (by simp) n hn
    · exact hplain "void" (by simp) n hn
  · right
    have hfrom : ∀ t ∈ firsts (((responses.filter fun r => includeErrors || r.isSuccess).map
        (·.typeExpression)).filter fun t => t != "void" && t != "any"),
        ∃ r ∈ responses, r.typeExpression = t := by
      intro t ht
      obtain ⟨r, hr, rfl⟩ := List.mem_map.mp (List.mem_of_mem_filter (mem_firsts.mp ht))
      exact ⟨r, List.mem_of_mem_filter hr, rfl⟩
    rw [mem_unionMembers_intercalate] at hn
    · obtain ⟨t, ht, hn⟩ := hn
      obtain ⟨r, hr, rfl⟩ := hfrom t ht
      exact ⟨r, hr, hn⟩
    · intro t ht
      obtain ⟨r, hr, rfl⟩ := hfrom t ht
      exact h r hr

theorem closing_plain : ∀ name ∈ plainTypes, Closing name.toList := by
  have hall : ∀ name ∈ plainTypes, name.toList.getLast?.all (fun ch => ch ≠ ' ' ∧ ch ≠ '|') := by
    decide
  intro name hname ch hch
  simpa [hch] using hall name hname

theorem closing_ofBase (base : String) : Closing (ModelName.ofBase base).toList := by
  rw [ModelName.ofBase, String.toList_append]
  exact closing_append (d := 'o') (by decide) (by decide)

theorem closing_enumName (property : String) : Closing (Naming.enumName property).toList := by
  rw [Naming.enumName, String.toList_append]
  exact closing_append (d := 'm') (by decide) (by decide)

/-! ## What a controller imports -/

namespace Generator

open ModelCompiler (enumNames)

variable {g : Generator} {batch : Batch} {c : EndpointCompiler} {mc : ModelCompiler}
  {endpoints : List Endpoint} {state : EndpointState} {text : String}

/-- A name that stands for a plain type, that a batch declares, or that is stray. -/
def Settled (c : EndpointCompiler) (batch : ModelBatch) (name : String) : Prop :=
  name ∈ plainTypes ∨ name ∈ batch.names ∨ name ∈ enumNames batch ∨
    ∃ schema, (c.Answerable schema ∨ c.Requested schema) ∧ Mapper.Stray c.mapper schema name

theorem Assembled.declares (hD : Sources {g.resolved, g.written})
    (hplain : g.written.linked = false) (h : Assembled g batch c mc endpoints state) :
    ∃ done, mc.Declares done batch.models := by
  obtain ⟨named, hc, hkept⟩ := h.kept
  obtain ⟨w, enums, done, hstart, hdrain, hfinish⟩ := ModelCompiler.compileWithin_eq_ok h.models
  refine ⟨done, ModelCompiler.declares_of_finish hD (by simp) hplain h.modelCompiler ?_ hstart hdrain
    hfinish⟩
  exact fun p hp => h.answerable hD (hkept.models p hp).2.2.1

/-- The name in the type of a body is settled. -/
theorem Assembled.bodyName (hD : Sources {g.resolved, g.written})
    (hplain : g.written.linked = false) (h : Assembled g batch c mc endpoints state) {schema : Node}
    (hschema : c.Answerable schema ∨ c.Requested schema) {name : String}
    (hname : Mapper.BodyName c.mapper schema name) :
    Settled c batch.models name ∧ Closing name.toList := by
  obtain ⟨named, hc, hkept⟩ := h.kept
  have hfields : mc.mapper.components.fields = .ok named := h.mapper_eq ▸ hc.fields
  have hmem : ∀ {pointer target}, Pointer.namesSchema pointer = true →
      c.mapper.resolver.find pointer = .ok (some target) → (Pointer.name pointer, target) ∈ named :=
    fun hpointer hfind => Mapper.mem_fields_of_locate hc.mapper hplain hpointer
      (Mapper.find_eq_some hfind).1 hc.fields
  cases hname with
  | plain hname => exact ⟨Or.inl hname, closing_plain name hname⟩
  | @texts n target pointer hn hrefers hname =>
      refine ⟨Or.inr (Or.inr ?_), hname ▸ closing_enumName _⟩
      cases hpointer : Pointer.namesSchema pointer with
      | false => exact Or.inr ⟨schema, hschema, .texts hn hrefers hpointer hname⟩
      | true =>
          obtain ⟨done, hdeclares⟩ := h.declares hD hplain
          obtain ⟨found, hfound, hall⟩ := hdeclares.schema
          obtain rfl : named = found := Except.ok.inj (hfields.symm.trans hfound)
          rw [hname]
          exact Or.inl (hall (Pointer.name pointer, target) (hmem hpointer hrefers.found)
            hrefers.lists)
  | @model n target pointer hn hrefers hcomponent hname =>
      have husual := Mapper.usual_of_ofDocument hc.mapper hc.fields
      refine ⟨Or.inr ?_, by rw [hname, husual.classOf]; exact closing_ofBase _⟩
      by_cases hpointer : pointer = Pointer.schemas
      · subst hpointer
        exact Or.inr (Or.inr ⟨schema, hschema, .schemas hn hrefers hname⟩)
      · have hnames : Pointer.namesSchema pointer = true := by
          simp [Pointer.namesSchema, hcomponent, hpointer]
        have hcompiled := h.namedModel hD hfields (hmem hnames hrefers.found) hrefers.other
          hrefers.model
        rw [h.mapper_eq] at hcompiled
        rw [hname]
        exact Or.inl (List.count_pos_iff.mp (by rw [hcompiled.once]; decide))

/-- The names in a type are those in one settled name. -/
def Traced (c : EndpointCompiler) (batch : ModelBatch) (text : String) : Prop :=
  ∃ name, Settled c batch name ∧ ∀ n, n ∈ unionMembers text ↔ n ∈ unionMembers name

/-- The type of a body or a response is traced to a settled name. -/
theorem Assembled.shown (hD : Sources {g.resolved, g.written})
    (hplain : g.written.linked = false) (h : Assembled g batch c mc endpoints state)
    (hshown : c.Shown state text) : Closing text.toList ∧ Traced c batch.models text := by
  cases hshown with
  | empty htext =>
      exact ⟨htext ▸ closing_plain "void" (by decide), text, Or.inl (htext ▸ by decide),
        fun n => Iff.rfl⟩
  | claimed hanswer hinline hnamed hname =>
      obtain ⟨base, rfl⟩ := hname
      obtain ⟨e, known, -, -, -, hrepresents⟩ := h.modelOf hD hanswer hinline hnamed
      refine ⟨closing_ofBase base, _, Or.inr (Or.inl ?_), fun n => Iff.rfl⟩
      exact List.count_pos_iff.mp (by rw [hrepresents.compiled.once]; decide)
  | mapped hschema hmap htext =>
      obtain ⟨name, hlists, hname⟩ := Mapper.bodyWithin_type hmap
      obtain ⟨hsettled, hclosing⟩ := h.bodyName hD hplain hschema hname
      rw [htext]
      exact ⟨hlists.closing hclosing, name, hsettled, fun n => mem_unionMembers_listsOf hlists⟩

/-- Why a controller imports a name that a batch does not declare: it is in a stray name, or it is
part of a name that is not imported as it is. -/
inductive Dangling (c : EndpointCompiler) (batch : ModelBatch) (n : String) : Prop where
  | stray {schema : Node} {name : String} (hschema : c.Answerable schema ∨ c.Requested schema)
      (hstray : Mapper.Stray c.mapper schema name) (hn : n ∈ unionMembers name)
  | broken {name : String} (hname : name ∈ batch.names ∨ name ∈ enumNames batch)
      (hn : n ∈ unionMembers name) (hbroken : unionMembers name ≠ [name])

/-- A name stands for a plain type, is declared, or dangles. -/
def Accounted (c : EndpointCompiler) (batch : ModelBatch) (n : String) : Prop :=
  n ∈ plainTypes ∨ n ∈ batch.names ∨ n ∈ enumNames batch ∨ Dangling c batch n

section Accounted

variable {n : String} {models : ModelBatch}

theorem Settled.accounted {name : String} (h : Settled c models name)
    (hn : n ∈ unionMembers name) : Accounted c models n := by
  have hwhole : unionMembers name = [name] → n = name := fun heq =>
    List.mem_singleton.mp (heq ▸ hn)
  rcases h with hname | hname | hname | ⟨schema, hschema, hstray⟩
  · have hall : ∀ name ∈ plainTypes, unionMembers name = [name] := by decide
    exact Or.inl (hwhole (hall name hname) ▸ hname)
  · right
    by_cases heq : unionMembers name = [name]
    · exact Or.inl (hwhole heq ▸ hname)
    · exact Or.inr (Or.inr (.broken (Or.inl hname) hn heq))
  · right
    right
    by_cases heq : unionMembers name = [name]
    · exact Or.inl (hwhole heq ▸ hname)
    · exact Or.inr (.broken (Or.inr hname) hn heq)
  · exact Or.inr (Or.inr (Or.inr (.stray hschema hstray hn)))

theorem Traced.accounted (h : Traced c models text) (hn : n ∈ unionMembers text) :
    Accounted c models n := by
  obtain ⟨name, hsettled, hsame⟩ := h
  exact hsettled.accounted ((hsame n).mp hn)

/-- The names in the types that an endpoint shows are accounted for. -/
theorem Assembled.accounted (hD : Sources {g.resolved, g.written})
    (hplain : g.written.linked = false) (h : Assembled g batch c mc endpoints state)
    {operation : Method × Node} {e : Endpoint}
    (hthis : EndpointCompiler.Describes c c.start state operation e)
    (htext : text ∈ e.typeExpressions) (hn : n ∈ unionMembers text) :
    Accounted c batch.models n := by
  obtain ⟨named, hc, -⟩ := h.kept
  have hresponse : ∀ r ∈ e.responses,
      Closing r.typeExpression.toList ∧ Traced c batch.models r.typeExpression :=
    fun r hr => h.shown hD hplain (hthis.responses_shown hc r hr)
  simp only [Endpoint.typeExpressions, List.mem_append, List.mem_cons, List.mem_map] at htext
  rcases htext with (rfl | ⟨r, hr, rfl⟩) | htaken
  · -- bars between the responses only part their types, as none of them ends like a bar
    rw [hthis.returnType] at hn
    rcases mem_unionMembers_returnType (fun r hr => (hresponse r hr).1) hn with hn | ⟨r, hr, hn⟩
    · exact Or.inl hn
    · exact (hresponse r hr).2.accounted hn
  · exact (hresponse r hr).2.accounted hn
  · obtain ⟨body, hbody, rfl⟩ := Option.map_eq_some_iff.mp (Option.mem_toList.mp htaken)
    exact (h.shown hD hplain (hthis.body_shown hbody)).2.accounted hn

end Accounted

/-- Every name that a controller imports is that of a model or of an enumeration of the batch, unless
it dangles. -/
theorem build_imports (hD : Sources {g.resolved, g.written}) (hplain : g.written.linked = false)
    (h : g.build = .ok batch) {controller : Controller} (hk : batch.controller = some controller) :
    ∃ c mc endpoints state, Assembled g batch c mc endpoints state ∧
      ∀ n ∈ controller.dtoImports,
        n ∈ batch.models.names ∨ n ∈ enumNames batch.models ∨ Dangling c batch.models n := by
  obtain ⟨c, mc, endpoints, state, hall⟩ := build_eq_ok h
  refine ⟨c, mc, endpoints, state, hall, fun n hn => ?_⟩
  rw [(hall.controller controller hk).2, dtoImports, sortedFirsts, List.mem_mergeSort, mem_firsts,
    List.mem_filter] at hn
  obtain ⟨hlisted, hother⟩ := hn
  obtain ⟨e, he, htypes⟩ := List.mem_flatMap.mp hlisted
  obtain ⟨text, htext, hn⟩ := List.mem_flatMap.mp htypes
  obtain ⟨-, operations, -, hdescribes⟩ := EndpointCompiler.yields_compileAll hall.compiled
  obtain ⟨operation, -, hthis⟩ := exists_left_of_forall₂ hdescribes e he
  refine (hall.accounted hD hplain hthis htext hn).resolve_left fun hno => ?_
  simp [hno] at hother

/-- A message whose JSON content has a schema. -/
def carrying (schema : Json) : Json :=
  .obj [("content", .obj [("application/json", .obj [("schema", schema)])])]

/-- A schema that lists two texts. -/
def either (first second : String) : Json :=
  .obj [("type", .str "string"), ("enum", .arr [.str first, .str second])]

/-- Operations that answer with a list of a named schema, take one, and answer with the texts that
another one lists. -/
def clinic : Json := .obj [
  ("paths", .obj [("/pets", .obj [
    ("get", .obj [("responses", .obj [("200", carrying
      (.obj [("type", .str "array"), ("items", ModelCompiler.referenceTo "Pet")]))])]),
    ("post", .obj [("requestBody", carrying (ModelCompiler.referenceTo "Pet")),
      ("responses", .obj [("200", carrying (ModelCompiler.referenceTo "Kind"))])])])]),
  ("components", .obj [("schemas", .obj [
    ("Pet", .obj [("properties", .obj [("name", .obj [("type", .str "string")])])]),
    ("Kind", either "cat" "dog")])])]

/-- The names in the types that the endpoints of a controller show. -/
def namesShown (controller : Controller) : List String :=
  firsts (controller.endpoints.flatMap fun e => e.typeExpressions.flatMap unionMembers)

/-- The models and the enumerations of a batch. -/
def declaredIn (batch : Batch) : List String × List String :=
  (batch.models.names, enumNames batch.models)

/-- In `clinic` the types show a model and an enumeration, and there are both. -/
theorem clinic_imports :
    ∃ batch controller, (ofRoot clinic).build = .ok batch ∧ batch.controller = some controller ∧
      namesShown controller = ["PetDto", "KindEnum"] ∧
      declaredIn batch = (["PetDto"], ["KindEnum"]) ∧
      ∃ c mc endpoints state, Assembled (ofRoot clinic) batch c mc endpoints state ∧
        ∀ n ∈ controller.dtoImports,
          n ∈ batch.models.names ∨ n ∈ enumNames batch.models ∨ Dangling c batch.models n := by
  have hrun : ((ofRoot clinic).build.map fun batch =>
      (batch.controller.map namesShown, declaredIn batch)).toOption =
      some (some ["PetDto", "KindEnum"], ["PetDto"], ["KindEnum"]) := by
    decide +kernel
  obtain ⟨batch, hbatch, h⟩ := map_eq_ok (eq_ok_of_toOption hrun)
  obtain ⟨hshown, hdeclared⟩ := Prod.mk.inj h
  obtain ⟨controller, hcontroller, hnames⟩ := Option.map_eq_some_iff.mp hshown
  exact ⟨batch, controller, hbatch, hcontroller, hnames, hdeclared,
    build_imports (sources_ofRoot (by decide)) rfl hbatch hcontroller⟩

/-- An operation that answers with the texts which the items of a property list. -/
def roles : Json := .obj [
  ("paths", .obj [("/roles", .obj [("get", .obj [("responses", .obj [("200", carrying
    (.obj [("$ref", .str "#/components/schemas/User/properties/roles/items")]))])])])]),
  ("components", .obj [("schemas", .obj [("User", .obj [("properties", .obj [
    ("roles", .obj [("type", .str "array"), ("items", either "admin" "guest")])])])])])]

/-- In `roles` the controller imports an enumeration that is not declared: the property declares its
texts under another name. -/
theorem roles_stray :
    ∃ batch controller, (ofRoot roles).build = .ok batch ∧ batch.controller = some controller ∧
      controller.dtoImports = ["ItemsEnum"] ∧ declaredIn batch = (["UserDto"], ["RolesEnum"]) := by
  have hrun : ((ofRoot roles).build.map fun batch =>
      (batch.controller.map (·.dtoImports), declaredIn batch)).toOption =
      some (some ["ItemsEnum"], ["UserDto"], ["RolesEnum"]) := by
    decide +kernel
  obtain ⟨batch, hbatch, h⟩ := map_eq_ok (eq_ok_of_toOption hrun)
  obtain ⟨himports, hdeclared⟩ := Prod.mk.inj h
  obtain ⟨controller, hcontroller, himported⟩ := Option.map_eq_some_iff.mp himports
  exact ⟨batch, controller, hbatch, hcontroller, himported, hdeclared⟩

end Generator

end ApiScaffold
