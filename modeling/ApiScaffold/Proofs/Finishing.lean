import ApiScaffold.Proofs.Claims
import ApiScaffold.Proofs.Following
import ApiScaffold.Proofs.ItemChains
import ApiScaffold.Proofs.OperationNames

set_option autoImplicit false

/-! # Operations that are compiled to the end

All that is read of an operation is read in finitely many steps, the types of parameters aside. So
compiling an operation comes to an end, with an endpoint or with a fault, unless it gets to a
parameter whose schema is a list whose items lead back to a list on the way
(`compile_endless_iff`). -/

namespace ApiScaffold

open Node (Plain closed_plain)

/-! ## Records -/

namespace Record

variable {α β : Type}

/-- A reading that is not stopped by a fault. -/
def Reading.GoesOn (r : Reading α) : Prop := ∀ fault, r ≠ .stopped fault

theorem goesOn_text (v : Json) : (text v).GoesOn := by
  intro fault
  unfold text
  split <;> exact nofun

theorem Reading.GoesOn.map {r : Reading α} (h : r.GoesOn) (f : α → β) : (f <$> r).GoesOn := by
  intro fault
  cases r with
  | good a => exact nofun
  | bad paths => exact nofun
  | stopped first => exact absurd rfl (h first)

theorem Reading.GoesOn.seq {rf : Reading (α → β)} {r : Reading α} (hf : rf.GoesOn)
    (h : r.GoesOn) : (rf <*> r).GoesOn := by
  intro fault
  cases rf with
  | stopped first => exact absurd rfl (hf first)
  | good f =>
      cases r with
      | stopped first => exact absurd rfl (h first)
      | good a => exact nofun
      | bad paths => exact nofun
  | bad paths =>
      cases r with
      | stopped first => exact absurd rfl (h first)
      | good a => exact nofun
      | bad more => exact nofun

theorem Reading.GoesOn.within {r : Reading α} (h : r.GoesOn) (name : String) :
    (r.within name).GoesOn := by
  intro fault
  cases r with
  | good a => exact nofun
  | bad paths => exact nofun
  | stopped first => exact absurd rfl (h first)

theorem goesOn_optional {read : Json → Reading α} (h : ∀ v, (read v).GoesOn) (v : Json) :
    (optional read v).GoesOn := by
  cases v with
  | null => exact nofun
  | _ => exact (h _).map _

theorem goesOn_itemsFrom {read : Json → Reading α} (h : ∀ v, (read v).GoesOn) (i : Nat)
    (items : List Json) : (itemsFrom read i items).GoesOn := by
  induction items generalizing i with
  | nil => exact nofun
  | cons v rest ih => exact (((h v).within _).map _).seq (ih (i + 1))

theorem goesOn_list {read : Json → Reading α} (h : ∀ v, (read v).GoesOn) (v : Json) :
    (list read v).GoesOn := by
  cases v with
  | arr items => exact goesOn_itemsFrom h 0 items
  | _ => exact nofun

/-- A reading that is not stopped gives a record, or the fault that tells the wrong fields. -/
theorem Reading.GoesOn.concludes_finish {r : Reading α} (h : r.GoesOn) (kind : RecordKind) :
    Concludes (finish kind r) := by
  cases r with
  | good a => exact concludes_ok _
  | bad paths => exact concludes_error nofun
  | stopped fault => exact absurd rfl (h fault)

end Record

namespace EndpointCompiler

variable {c : EndpointCompiler} {s : EndpointState} {r : Resolver} {n : Node}

/-! ## Readings of an operation -/

theorem goesOn_textField (name : String) (v : Json) : (field name Record.text v).GoesOn :=
  (Record.goesOn_text v).within name

theorem goesOn_optionalField (name : String) (v : Json) :
    (field name (Record.optional Record.text) v).GoesOn :=
  (Record.goesOn_optional Record.goesOn_text v).within name

theorem exists_givenOr (hn : n.Plain) (usual : Json) : ∃ value, givenOr n usual = .ok value := by
  rw [givenOr, Node.opened, Node.settle_of_plain hn]
  exact ⟨_, rfl⟩

theorem concludes_givenOr (hn : n.Plain) (usual : Json) : Concludes (givenOr n usual) := by
  obtain ⟨value, hvalue⟩ := exists_givenOr hn usual
  rw [hvalue]
  exact concludes_ok _

theorem concludes_jsonSchema (hn : n.Plain) : Concludes (jsonSchema n) := by
  have hmedia : ∀ m : Node, m.Plain → Concludes (do
      if !(← m.isObject) then return none
      let schema ← m.get "schema"
      return if schema.isAbsent then none else some schema : Except Fault (Option Node)) := by
    intro m hm
    refine hm.concludes_isObject.bind fun isObject _ => ?_
    split
    · exact concludes_pure _
    · exact (hm.concludes_get _).bind fun schema _ => concludes_pure _
  refine hn.concludes_isObject.bind fun isObject _ => ?_
  split
  · exact concludes_pure _
  · refine (hn.concludes_get _).bind fun listed hlisted => ?_
    dsimp only
    split
    · refine hn.concludes_fields.bind fun fields hfields => ?_
      rw [pure_bind]
      cases hjson : jsonField? fields with
      | none => exact concludes_pure _
      | some m =>
          obtain ⟨f, hf, rfl⟩ := Option.map_eq_some_iff.mp hjson
          exact hmedia f.2 (closed_plain.fields hn hfields f (List.mem_of_find?_eq_some hf))
    · exact hmedia listed (closed_plain.get hn hlisted)

theorem concludes_isInlineResponse (hn : n.Plain) : Concludes (isInlineResponse n) := by
  refine hn.concludes_isObject.bind fun isObject _ => ?_
  split
  · exact concludes_pure _
  refine hn.concludes_isReference.bind fun isReference _ => ?_
  split
  · exact concludes_pure _
  refine (Schema.concludes_typeOf hn).bind fun type _ => ?_
  split
  · refine (hn.concludes_has _).bind fun has _ => ?_
    split
    · exact concludes_pure _
    · refine (hn.concludes_get _).bind fun extra hextra => ?_
      exact (Plain.concludes_truthy (closed_plain.get hn hextra)).bind fun _ _ => concludes_pure _
  · split
    · exact hn.concludes_has _
    · exact concludes_pure _

theorem concludes_shallowFields (schema : Option Node) (h : ∀ n, schema = some n → n.Plain) :
    Concludes (shallowFields schema) := by
  unfold shallowFields
  split
  · exact concludes_pure _
  · next node =>
      have hn : node.Plain := h node rfl
      refine hn.concludes_isObject.bind fun isObject _ => ?_
      split
      · exact concludes_pure _
      · refine hn.concludes_fields.bind fun named hnamed => ?_
        refine Concludes.bind (concludes_mapM fun f hf => ?_) fun _ _ => concludes_pure _
        exact (Plain.concludes_opened (closed_plain.fields hn hnamed f hf)).bind
          fun _ _ => concludes_pure _

theorem concludes_statusKey (status : String) : Concludes (statusKey status) := by
  unfold statusKey
  split
  · split
    · exact concludes_ok _
    · exact concludes_error (by decide)
  · exact concludes_ok _

theorem concludes_forcedStatus (responses : List Response) :
    Concludes (forcedStatus responses) := by
  unfold forcedStatus
  split
  · exact concludes_ok _
  · next response _ =>
      have hcode : Concludes response.statusCode := by
        unfold Response.statusCode
        split
        · split
          · exact concludes_ok _
          · exact concludes_error (by decide)
        · exact concludes_ok _
      refine hcode.bind fun code _ => ?_
      split
      · split
        · exact concludes_pure _
        · exact concludes_pure _
      · exact concludes_pure _

theorem concludes_operationBase (name : Json) : Concludes (operationBase name) := by
  unfold operationBase
  split
  · exact concludes_ok _
  · exact concludes_error (by decide)
  · exact concludes_error (by decide)

theorem concludes_compileBody (hr : c.mapper.resolver.document.linked = false) (hn : n.Plain) :
    Concludes (c.compileBody n) := by
  refine (Resolver.concludes_objectAt hr hn).bind fun node? hnode => ?_
  cases node? with
  | none => exact concludes_pure _
  | some node =>
      have hplain : node.Plain := closed_plain.objectAt (r := c.mapper.resolver) hr hn hnode
      refine (hplain.concludes_get _).bind fun content hcontent => ?_
      have hin : content.Plain := closed_plain.get hplain hcontent
      refine (concludes_jsonSchema hin).bind fun schema? hschema => ?_
      cases schema? with
      | none => exact concludes_pure _
      | some schema =>
          have hbody := Mapper.concludes_mapBody hr (closed_plain.jsonSchema hin hschema)
          refine hbody.bind fun type _ => ?_
          refine (hplain.concludes_get _).bind fun description _ => ?_
          refine Concludes.bind ?_ fun body _ => concludes_pure _
          exact ((goesOn_optionalField _ _).map _).concludes_finish _

theorem concludes_rawResponses (hr : r.document.linked = false) {responses : List (String × Node)}
    (h : ∀ f ∈ responses, f.2.Plain) : Concludes (rawResponses r responses) := by
  refine Concludes.bind (concludes_filterMapM fun f hf => ?_) fun found _ => ?_
  · refine (Resolver.concludes_objectAt hr (h f hf)).bind fun response? hresponse => ?_
    cases response? with
    | none => exact concludes_pure _
    | some response =>
        have hplain : response.Plain := closed_plain.objectAt (r := r) hr (h f hf) hresponse
        refine (hplain.concludes_get _).bind fun content hcontent => ?_
        exact (concludes_jsonSchema (closed_plain.get hplain hcontent)).bind
          fun schema _ => concludes_pure _
  · refine Concludes.bind (concludes_mapM fun x _ => ?_) fun keyed _ => concludes_pure _
    exact (concludes_statusKey _).bind fun key _ => concludes_pure _

/-! ## Responses -/

/-- The schemas of the arena stand for finite values. -/
def ReadableArena (s : EndpointState) : Prop := ModelCompiler.SchemasIn Readable s.arena

theorem concludesFrom_claimResponse (hs : ReadableArena s) (hn : n.Plain) (base : String) :
    ConcludesFrom ReadableArena (c.claimResponse base n) s := by
  refine concludesFrom_get_bind ?_
  refine concludesFrom_lift_bind (Registry.concludes_claim hs hn.readable _ _) hs
    fun ⟨name, arena⟩ hclaim => ?_
  have hnext : ReadableArena { s with arena } := Registry.claim_schemasIn hs hn.readable hclaim
  refine concludesFrom_modify_bind ?_
  dsimp only
  split
  · exact concludesFrom_modify_bind (concludesFrom_pure hnext _)
  · exact concludesFrom_pure hnext _

theorem concludesFrom_compileResponse (hr : c.mapper.resolver.document.linked = false)
    {raw : RawResponse} (hresponse : raw.response.Plain)
    (hschema : ∀ schema, raw.schema = some schema → schema.Plain) (operation : Json)
    (several : Bool) (hs : ReadableArena s) :
    ConcludesFrom ReadableArena (c.compileResponse operation several raw) s := by
  -- however the type was found, the record is filled in the same way
  have hlast : ∀ (typed : String × Bool) (t : EndpointState), ReadableArena t →
      ConcludesFrom ReadableArena (do
        let description := (← liftM (raw.response.get "description")).value
        liftM <| Record.finish .response
          ((fun description =>
              ({ status := raw.status, typeExpression := typed.1, description,
                 inPlace := typed.2 } : Response))
            <$> field "description" (Record.optional Record.text) description)) t := by
    intro typed t ht
    refine concludesFrom_lift_bind (hresponse.concludes_get _) ht fun description _ => ?_
    exact concludesFrom_lift (((goesOn_optionalField _ _).map _).concludes_finish _) ht
  unfold compileResponse
  dsimp only
  split
  · exact hlast ("void", false) s hs
  · next schema hraw =>
      have hn : schema.Plain := hschema schema hraw
      refine concludesFrom_lift_bind (concludes_isInlineResponse hn) hs fun inPlace _ => ?_
      split
      · refine concludesFrom_lift_bind (concludes_operationBase _) hs fun base _ => ?_
        refine (concludesFrom_claimResponse hs hn _).bind fun name t _ ht => ?_
        exact hlast (name, true) t ht
      · refine concludesFrom_lift_bind (Mapper.concludes_mapBody hr hn) hs fun type _ => ?_
        exact hlast (type.text, false) s hs

theorem concludesFrom_compileResponses (hr : c.mapper.resolver.document.linked = false)
    (hn : n.Plain) (operation : Json) (hs : ReadableArena s) :
    ConcludesFrom ReadableArena (c.compileResponses operation n) s := by
  have hraw : Concludes (do rawResponses c.mapper.resolver (← n.fieldsIfAny)) :=
    hn.concludes_fieldsIfAny.bind fun fields hfields =>
      concludes_rawResponses hr (closed_plain.fieldsIfAny hn hfields)
  refine concludesFrom_lift_bind hraw hs fun raw hraw => ?_
  obtain ⟨fields, hfields, hraw⟩ := bind_eq_ok.mp hraw
  have hschemas := closed_plain.rawResponses (r := c.mapper.resolver) hr
    (closed_plain.fieldsIfAny hn hfields) hraw
  have hmadeUp : Concludes (raw.filterM fun r => isMadeUp r.schema) := by
    refine concludes_filterM fun x hx => ?_
    unfold isMadeUp
    split
    · next schema hschema => exact concludes_isInlineResponse (hschemas x hx schema hschema)
    · exact concludes_ok _
  refine concludesFrom_lift_bind hmadeUp hs fun madeUp _ => ?_
  refine concludesFrom_mapM (fun x hx t ht => ?_) hs
  obtain ⟨entry, -, hentry, hresponse, -⟩ := mem_rawResponses hraw hx
  have hplain : entry.Plain := closed_plain.fieldsIfAny hn hfields _ hentry
  have hin : x.response.Plain := closed_plain.objectAt (r := c.mapper.resolver) hr hplain hresponse
  exact concludesFrom_compileResponse hr hin (hschemas x hx) operation _ ht

/-! ## Parameters -/

/-- The parameters of a path and of an operation before they are compiled. -/
def mergedParameters (c : EndpointCompiler) (item operation : Node) :
    Except Fault (List ((Json × Json) × Node)) := do
  let shared ← (← item.get "parameters").entriesIfAny
  let own ← (← operation.get "parameters").entriesIfAny
  (shared ++ own).foldlM c.mergeParameter []

/-- Compiling a parameter gets to its type, which is that of a schema. A header must be called by a
text for that. -/
structure TypedBy (c : EndpointCompiler) (parameter schema : Node) : Prop where
  named : ∃ called place kind, parameter.get "name" = .ok called ∧ parameter.get "in" = .ok place ∧
    givenOr place (.str "query") = .ok kind ∧
    (kind.2 = .str "header" → ∃ header, called.value = .str header)
  schema : ∃ written, parameter.get "schema" = .ok written ∧
    c.mapper.resolver.derefIfAny written = .ok (some schema)

theorem concludes_mergeParameter (hr : c.mapper.resolver.document.linked = false) (hn : n.Plain)
    (merged : List ((Json × Json) × Node)) : Concludes (c.mergeParameter merged n) := by
  refine (Resolver.concludes_objectAt hr hn).bind fun parameter? hparameter => ?_
  cases parameter? with
  | none => exact concludes_pure _
  | some parameter =>
      have hplain : parameter.Plain :=
        closed_plain.objectAt (r := c.mapper.resolver) hr hn hparameter
      have hopened : ∀ key node, parameter.get key = .ok node → Concludes node.opened :=
        fun key node hnode => Plain.concludes_opened (closed_plain.get hplain hnode)
      refine (hplain.concludes_get _).bind fun called hcalled => ?_
      refine (hopened _ _ hcalled).bind fun name _ => ?_
      split
      · exact concludes_pure _
      · refine (hplain.concludes_get _).bind fun placed hplaced => ?_
        refine (hopened _ _ hplaced).bind fun place _ => ?_
        split
        · exact concludes_throw (by decide)
        · exact concludes_pure _

theorem mem_putParameter {key : Json × Json} {parameter : Node}
    {merged : List ((Json × Json) × Node)} {p : (Json × Json) × Node}
    (hp : p ∈ putParameter key parameter merged) : p.2 = parameter ∨ p ∈ merged := by
  induction merged with
  | nil =>
      obtain rfl := List.mem_singleton.mp hp
      exact Or.inl rfl
  | cons first rest ih =>
      obtain ⟨k, node⟩ := first
      rw [putParameter] at hp
      split at hp
      · rcases List.mem_cons.mp hp with rfl | hp
        · exact Or.inl rfl
        · exact Or.inr (List.mem_cons_of_mem _ hp)
      · rcases List.mem_cons.mp hp with rfl | hp
        · exact Or.inr List.mem_cons_self
        · exact (ih hp).imp_right (List.mem_cons_of_mem _)

/-- A merged parameter was there or is where an entry leads. -/
theorem mem_mergeParameter {merged merged' : List ((Json × Json) × Node)}
    (h : c.mergeParameter merged n = .ok merged') {p : (Json × Json) × Node} (hp : p ∈ merged') :
    c.mapper.resolver.objectAt n = .ok (some p.2) ∨ p ∈ merged := by
  obtain ⟨parameter?, hparameter, h⟩ := bind_eq_ok.mp h
  cases parameter? with
  | none =>
      cases pure_eq_ok.mp h
      exact Or.inr hp
  | some parameter =>
      obtain ⟨_, -, h⟩ := bind_eq_ok.mp h
      obtain ⟨name, -, h⟩ := bind_eq_ok.mp h
      split at h
      · cases pure_eq_ok.mp h
        exact Or.inr hp
      · obtain ⟨_, -, h⟩ := bind_eq_ok.mp h
        obtain ⟨place, -, h⟩ := bind_eq_ok.mp h
        split at h
        · exact absurd h throw_ne_ok
        · cases pure_eq_ok.mp h
          rcases mem_putParameter hp with heq | hp
          · exact Or.inl (heq ▸ hparameter)
          · exact Or.inr hp

theorem concludes_mergedParameters (hr : c.mapper.resolver.document.linked = false)
    {item operation : Node} (hitem : item.Plain) (hoperation : operation.Plain) :
    Concludes (c.mergedParameters item operation) := by
  have hentries : ∀ {node : Node} {key listed}, node.Plain → node.get key = .ok listed →
      Concludes listed.entriesIfAny :=
    fun hplain hlisted => Plain.concludes_entriesIfAny (closed_plain.get hplain hlisted)
  refine (hitem.concludes_get _).bind fun sharedNode hsharedNode => ?_
  refine (hentries hitem hsharedNode).bind fun shared hshared => ?_
  refine (hoperation.concludes_get _).bind fun ownNode hownNode => ?_
  refine (hentries hoperation hownNode).bind fun own hown => ?_
  have hplain : ∀ entry ∈ shared ++ own, entry.Plain := List.forall_mem_append.mpr
    ⟨closed_plain.entriesIfAny (closed_plain.get hitem hsharedNode) hshared,
      closed_plain.entriesIfAny (closed_plain.get hoperation hownNode) hown⟩
  exact concludes_foldlM fun merged entry hentry =>
    concludes_mergeParameter hr (hplain entry hentry) merged

theorem plain_mergedParameters (hr : c.mapper.resolver.document.linked = false)
    {item operation : Node} (hitem : item.Plain) (hoperation : operation.Plain)
    {merged : List ((Json × Json) × Node)} (h : c.mergedParameters item operation = .ok merged) :
    ∀ p ∈ merged, p.2.Plain := by
  obtain ⟨sharedNode, hsharedNode, h⟩ := bind_eq_ok.mp h
  obtain ⟨shared, hshared, h⟩ := bind_eq_ok.mp h
  obtain ⟨ownNode, hownNode, h⟩ := bind_eq_ok.mp h
  obtain ⟨own, hown, h⟩ := bind_eq_ok.mp h
  have hplain : ∀ entry ∈ shared ++ own, entry.Plain := List.forall_mem_append.mpr
    ⟨closed_plain.entriesIfAny (closed_plain.get hitem hsharedNode) hshared,
      closed_plain.entriesIfAny (closed_plain.get hoperation hownNode) hown⟩
  refine foldlM_keeps (P := fun merged => ∀ p ∈ merged, p.2.Plain) ?_
    (fun p hp => absurd hp List.not_mem_nil) h
  intro before after entry hentry hbefore hafter p hp
  rcases mem_mergeParameter hafter hp with hparameter | hp
  · exact closed_plain.objectAt (r := c.mapper.resolver) hr (hplain entry hentry) hparameter
  · exact hbefore p hp

/-- Whatever a parameter is called, nothing but its type can be without end when its record is
filled in. -/
theorem endless_record_iff {schema? : Option Node} {name wireName kind named : Json}
    (hn : n.Plain) (hobject : ∀ key, ∃ b, n.get key = .ok b)
    (hschema : ∀ schema, schema? = some schema → schema.Plain) :
    (do
      let required := named = Json.str "path" || (← n.get "required").value = Json.bool true
      let typeExpression ← parameterType r schema?
      let constraintSchema ← shallowFields schema?
      let description := (← n.get "description").value
      Record.finish .parameter
        ((fun name wireName kind description =>
            ({ name, wireName, kind := .ofName kind, required, typeExpression, constraintSchema,
               description } : Parameter))
          <$> field "name" Record.text name
          <*> field "wire_name" Record.text wireName
          <*> field "kind" Record.text kind
          <*> field "description" (Record.optional Record.text) description)) = .error .endless ↔
    parameterType r schema? = .error .endless := by
  obtain ⟨required, hrequired⟩ := hobject "required"
  rw [ok_bind hrequired, bind_eq_error]
  refine or_iff_left ?_
  rintro ⟨type, -, h⟩
  refine Concludes.bind (concludes_shallowFields schema? hschema) (fun fields _ => ?_) h
  refine (hn.concludes_get _).bind fun description _ => ?_
  refine Record.Reading.GoesOn.concludes_finish ?_ _
  exact ((((goesOn_textField _ _).map _).seq (goesOn_textField _ _)).seq (goesOn_textField _ _)).seq
    (goesOn_optionalField _ _)

/-- Compiling a parameter never ends just if it gets to a schema whose items lead back. -/
theorem compileParameter_endless_iff (hr : c.mapper.resolver.document.linked = false)
    (hn : n.Plain) : c.compileParameter n = .error .endless ↔
      ∃ schema, c.TypedBy n schema ∧ LeadsBack c.mapper.resolver schema := by
  have hplain : ∀ {written schema?}, n.get "schema" = .ok written →
      c.mapper.resolver.derefIfAny written = .ok schema? →
      ∀ schema, schema? = some schema → schema.Plain := by
    rintro written _ hwritten hschema schema rfl
    exact Resolver.plain_derefIfAny hr (closed_plain.get hn hwritten) hschema
  constructor
  · intro h
    obtain ⟨called, hcalled, h⟩ := (hn.concludes_get _).bind_eq_endless h
    have hobject := hn.exists_get hcalled
    obtain ⟨place, hplace, h⟩ := (hn.concludes_get _).bind_eq_endless h
    obtain ⟨⟨kind, named⟩, hkind, h⟩ :=
      (concludes_givenOr (closed_plain.get hn hplace) _).bind_eq_endless h
    obtain ⟨written, hwritten, h⟩ := (hn.concludes_get _).bind_eq_endless h
    obtain ⟨schema?, hschema, h⟩ := (Resolver.concludes_derefIfAny hr
      (closed_plain.get hn hwritten)).bind_eq_endless h
    have htype : (named = .str "header" → ∃ header, called.value = .str header) ∧
        parameterType c.mapper.resolver schema? = .error .endless := by
      dsimp only at h
      split at h
      · split at h
        · next header htext =>
            refine ⟨fun _ => ⟨header, htext⟩, ?_⟩
            exact (endless_record_iff hn hobject (hplain hwritten hschema)).mp h
        · cases h
      · next hother =>
          refine ⟨fun hheader => absurd hheader hother, ?_⟩
          exact (endless_record_iff hn hobject (hplain hwritten hschema)).mp h
    cases schema? with
    | none => cases htype.2
    | some schema =>
        refine ⟨schema, ⟨⟨called, place, _, hcalled, hplace, hkind, htype.1⟩, written, hwritten,
          hschema⟩, ?_⟩
        exact (parameterType_endless_iff hr (hplain hwritten hschema schema rfl)).mp htype.2
  · rintro ⟨schema, ⟨⟨called, place, ⟨kind, named⟩, hcalled, hplace, hkind, hheader⟩, written,
      hwritten, hschema⟩, hback⟩
    have hobject := hn.exists_get hcalled
    have htype : parameterType c.mapper.resolver (some schema) = .error .endless :=
      (parameterType_endless_iff hr (hplain hwritten hschema schema rfl)).mpr hback
    rw [compileParameter, ok_bind hcalled, ok_bind hplace, ok_bind hkind]
    dsimp only
    rw [ok_bind hwritten, ok_bind hschema]
    split
    · next hnamed =>
        obtain ⟨header, htext⟩ := hheader hnamed
        rw [htext]
        exact (endless_record_iff hn hobject (hplain hwritten hschema)).mpr htype
    · exact (endless_record_iff hn hobject (hplain hwritten hschema)).mpr htype

theorem compileParameters_eq {item operation : Node} : c.compileParameters item operation =
    c.mergedParameters item operation >>= fun merged =>
      (merged.map (·.2)).mapM c.compileParameter := by
  simp only [compileParameters, mergedParameters, bind_assoc, List.mapM_map,
    Function.comp_def]

/-- Of the parameters of an operation, one follows after others that are all compiled. -/
def GetsTo (c : EndpointCompiler) (item operation parameter : Node) : Prop :=
  ∃ merged before after, c.mergedParameters item operation = .ok merged ∧
    merged.map (·.2) = before ++ parameter :: after ∧
    ∀ p ∈ before, ∃ argument, c.compileParameter p = .ok argument

/-- What has parameters is an object. -/
theorem GetsTo.exists_get {item operation parameter : Node} (h : c.GetsTo item operation parameter)
    (hoperation : operation.Plain) (key : String) : ∃ b, operation.get key = .ok b := by
  obtain ⟨merged, _, _, hmerged, -⟩ := h
  obtain ⟨_, -, hmerged⟩ := bind_eq_ok.mp hmerged
  obtain ⟨_, -, hmerged⟩ := bind_eq_ok.mp hmerged
  obtain ⟨_, hown, -⟩ := bind_eq_ok.mp hmerged
  exact hoperation.exists_get hown key

theorem compileParameters_endless_iff (hr : c.mapper.resolver.document.linked = false)
    {item operation : Node} (hitem : item.Plain) (hoperation : operation.Plain) :
    c.compileParameters item operation = .error .endless ↔
      ∃ parameter schema, c.GetsTo item operation parameter ∧ c.TypedBy parameter schema ∧
        LeadsBack c.mapper.resolver schema := by
  have hplain : ∀ {merged before after} {parameter : Node},
      c.mergedParameters item operation = .ok merged →
      merged.map (·.2) = before ++ parameter :: after → parameter.Plain := by
    intro merged before after parameter hmerged hall
    have hmem : parameter ∈ merged.map (·.2) :=
      hall ▸ List.mem_append_right _ List.mem_cons_self
    obtain ⟨p, hp, rfl⟩ := List.mem_map.mp hmem
    exact plain_mergedParameters hr hitem hoperation hmerged p hp
  rw [compileParameters_eq]
  constructor
  · intro h
    obtain ⟨merged, hmerged, h⟩ :=
      (concludes_mergedParameters hr hitem hoperation).bind_eq_endless h
    obtain ⟨before, parameter, after, hall, hbefore, hparameter⟩ := mapM_eq_error.mp h
    obtain ⟨schema, htyped, hback⟩ :=
      (compileParameter_endless_iff hr (hplain hmerged hall)).mp hparameter
    exact ⟨parameter, schema, ⟨merged, before, after, hmerged, hall, hbefore⟩, htyped, hback⟩
  · rintro ⟨parameter, schema, ⟨merged, before, after, hmerged, hall, hbefore⟩, htyped, hback⟩
    rw [ok_bind hmerged]
    refine mapM_eq_error.mpr ⟨before, parameter, after, hall, hbefore, ?_⟩
    exact (compileParameter_endless_iff hr (hplain hmerged hall)).mpr ⟨schema, htyped, hback⟩

/-! ## Operations -/

/-- The named schemas of a document that is not linked stand for finite values. -/
theorem MadeFor.readable_start {resolved written : Document} {synthesize : Bool}
    {spec : Option String} {named : List (String × Node)}
    (hc : MadeFor c resolved written synthesize spec named) (hwritten : written.linked = false) :
    ReadableArena c.start := by
  have hplain := closed_plain.fields (Mapper.plain_components hwritten hc.mapper) hc.fields
  intro e he schema hschema
  rw [start, hc.arena] at he
  rcases Registry.mem_entries_foldl_register he with he | ⟨f, hf, rfl⟩
  · cases he
  · rw [arenaEntry] at hschema
    split at hschema
    · cases hschema
    · obtain rfl := Option.some.inj hschema
      exact Plain.readable (hplain f hf)

/-- Compiling an operation comes to an end, with an endpoint or a fault, unless it gets to a
parameter whose schema is a list that its own items lead back to. -/
theorem compile_endless_iff {method : Method} {path : String} {operation source item : Node}
    (hr : c.mapper.resolver.document.linked = false)
    (hsource : c.sourceOf method path operation = .ok (source, item)) (hs : source.Plain)
    (hi : item.Plain) (ha : ModelCompiler.SchemasIn Readable s.arena) :
    ((c.compile method path operation).run.run s).1 = .error .endless ↔
      ∃ parameter schema, c.GetsTo item source parameter ∧ c.TypedBy parameter schema ∧
        LeadsBack c.mapper.resolver schema := by
  rw [← compileParameters_endless_iff hr hi hs]
  unfold compile
  rw [hsource, liftM_ok, pure_bind]
  dsimp only
  cases hid : source.get "operationId" with
  | error fault =>
      -- what has no name to be called by has no parameters either
      rw [liftM_error_bind]
      have hfault := hs.concludes_get "operationId"
      rw [hid] at hfault
      refine ⟨fun h => absurd (by cases h; rfl) hfault, fun h => ?_⟩
      obtain ⟨parameter, schema, hgets, -⟩ := (compileParameters_endless_iff hr hi hs).mp h
      obtain ⟨id, hid'⟩ := hgets.exists_get hs "operationId"
      cases hid.symm.trans hid'
  | ok id =>
      obtain ⟨called, hcalled⟩ :=
        exists_givenOr (closed_plain.get hs hid) (.str (Naming.operationName method.name path))
      rw [liftM_ok, pure_bind, hcalled, liftM_ok, pure_bind]
      refine endless_lift_bind_iff (Q := ReadableArena) fun parameters _ => ?_
      refine concludesFrom_lift_bind ?_ ha fun body _ => ?_
      · exact (hs.concludes_get _).bind fun request hrequest =>
          concludes_compileBody hr (closed_plain.get hs hrequest)
      refine concludesFrom_lift_bind (hs.concludes_get _) ha fun listed hlisted => ?_
      refine (concludesFrom_compileResponses hr (closed_plain.get hs hlisted) _ ha).bind
        fun responses t _ ht => ?_
      refine concludesFrom_lift_bind (hs.concludes_get _) ht fun summary _ => ?_
      refine concludesFrom_lift_bind (hs.concludes_get _) ht fun description _ => ?_
      refine concludesFrom_lift_bind ?_ ht fun deprecated _ => ?_
      · exact (hs.concludes_get _).bind fun node hnode =>
          Plain.concludes_truthy (closed_plain.get hs hnode)
      refine concludesFrom_lift_bind ?_ ht fun tags _ => ?_
      · exact (hs.concludes_get _).bind fun node hnode =>
          Plain.concludes_entriesIfAny (closed_plain.get hs hnode)
      refine concludesFrom_lift_bind (concludes_forcedStatus _) ht fun forced _ => ?_
      refine concludesFrom_lift (Record.Reading.GoesOn.concludes_finish ?_ _) ht
      refine ((((goesOn_textField _ _).map _).seq (goesOn_optionalField _ _)).seq
        (goesOn_optionalField _ _)).seq ?_
      exact (Record.goesOn_list Record.goesOn_text _).within _

/-- Hoops are lists of hoops, and can be looked up by one. -/
def hoops : Json := .obj [
  ("paths", .obj [("/hoops", .obj [("get", .obj [("parameters", .arr [.obj [
    ("name", .str "like"), ("in", .str "query"),
    ("schema", .obj [("$ref", .str "#/components/schemas/Hoop")])]])])])]),
  ("components", .obj [("schemas", .obj [("Hoop", .obj [("type", .str "array"),
    ("items", .obj [("$ref", .str "#/components/schemas/Hoop")])])])])]

/-- What stands at a place of `hoops`. -/
def hoopsNode (trail : List Step) : Node :=
  let written : Document := ⟨0, hoops, false⟩
  ⟨written, trail, (written.valueAt? trail).getD .null⟩

/-- The operation of `hoops`. -/
def hoopsGet : Node := hoopsNode [.key "get", .key "/hoops", .key "paths"]

/-- The named schema of `hoops`. -/
def hoop : Node := hoopsNode [.key "Hoop", .key "schemas", .key "components"]

theorem hoops_compiled : ∃ c, ofRoot hoops = .ok c ∧
    c.sourceOf .get "/hoops" hoopsGet = .ok (hoopsGet, hoopsNode [.key "/hoops", .key "paths"]) ∧
    ((c.compile .get "/hoops" hoopsGet).run.run c.start).1 = .error .endless := by
  have hrun : (do
      let c ← ofRoot hoops
      let source ← c.sourceOf .get "/hoops" hoopsGet
      let outcome := ((c.compile .get "/hoops" hoopsGet).run.run c.start).1
      pure (source, decide (Concludes outcome))).toOption =
      some ((hoopsGet, hoopsNode [.key "/hoops", .key "paths"]), false) := by
    decide +kernel
  obtain ⟨c, hc, h⟩ := bind_eq_ok.mp (eq_ok_of_toOption hrun)
  obtain ⟨source, hsource, h⟩ := bind_eq_ok.mp h
  obtain ⟨rfl, hends⟩ := Prod.mk.inj (pure_eq_ok.mp h)
  have hnot : ¬ Concludes ((c.compile .get "/hoops" hoopsGet).run.run c.start).1 :=
    of_decide_eq_false hends
  exact ⟨c, hc, hsource, not_not.mp hnot⟩

/-- In `hoops` the operation is not compiled to the end: its parameter is a hoop, and the items of a
hoop lead back to it. -/
theorem hoops_stuck : ∃ c, ofRoot hoops = .ok c ∧
    c.mapper.resolver.document.linked = false ∧
    c.sourceOf .get "/hoops" hoopsGet = .ok (hoopsGet, hoopsNode [.key "/hoops", .key "paths"]) ∧
    hoopsGet.Plain ∧ (hoopsNode [.key "/hoops", .key "paths"]).Plain ∧
    ModelCompiler.SchemasIn Readable c.start.arena ∧
    ∃ parameter schema, c.GetsTo (hoopsNode [.key "/hoops", .key "paths"]) hoopsGet parameter ∧
      c.TypedBy parameter schema ∧ LeadsBack c.mapper.resolver schema := by
  obtain ⟨c, hc, hsource, hends⟩ := hoops_compiled
  obtain ⟨named, hmade⟩ := ofDocuments_eq_ok hc
  have hr : c.mapper.resolver.document.linked = false := by
    rw [(Mapper.ofDocument_eq_ok hmade.mapper).2.1]
  have hstart : ModelCompiler.SchemasIn Readable c.start.arena := hmade.readable_start rfl
  exact ⟨c, hc, hr, hsource, rfl, rfl, hstart,
    (compile_endless_iff hr hsource rfl rfl hstart).mp hends⟩

/-- In `hoops` compiling never ends, and no depth of lists is enough for the type of the
parameter. -/
theorem hoops_endless : ∃ c, ofRoot hoops = .ok c ∧
    ((c.compile .get "/hoops" hoopsGet).run.run c.start).1 = .error .endless ∧
    ∀ fuel, parameterTypeWithin c.mapper.resolver fuel (some hoop) = .error .endless := by
  obtain ⟨c, hc, -, hends⟩ := hoops_compiled
  obtain ⟨named, hmade⟩ := ofDocuments_eq_ok hc
  have hback : LeadsBack c.mapper.resolver hoop := by
    rw [(Mapper.ofDocument_eq_ok hmade.mapper).2.1]
    exact ⟨hoop, .refl, .single ⟨rfl, rfl, ⟨_, rfl, rfl⟩, rfl⟩⟩
  exact ⟨c, hc, hends, hback.endless⟩

end EndpointCompiler

end ApiScaffold
