import ApiScaffold.Proofs.Finishing
import ApiScaffold.Proofs.Retyping

set_option autoImplicit false

/-! # Operations in a reordered document

What is read of an operation is read of its twin: where it is described, its parameters, its body
and the schemas of messages. The JSON content of a message is the one thing that hangs on the order
of fields, so it is that of its twin unless the contents are at a free place (`jsonSchema_twin`). -/

namespace ApiScaffold

variable {sure : Prop} {free : List Step → Prop}

/-! ## Records -/

namespace Record

variable {α β γ δ : Type} {R : α → β → Prop} {S : γ → δ → Prop} {v w : Json}

/-- Where one reading is good, so is the other, and what is read corresponds. -/
def Rereads (R : α → β → Prop) (r : Reading α) (r' : Reading β) : Prop :=
  ∀ a, r = .good a → ∃ b, r' = .good b ∧ R a b

theorem rereads_of_eq {r r' : Reading α} (h : r' = r) : Rereads Eq r r' :=
  fun a ha => ⟨a, h.trans ha, rfl⟩

theorem Rereads.map {r : Reading α} {r' : Reading β} {f : α → γ} {g : β → δ} (h : Rereads R r r')
    (hfg : ∀ a b, R a b → S (f a) (g b)) : Rereads S (f <$> r) (g <$> r') := by
  intro c hc
  obtain ⟨a, ha, rfl⟩ := map_eq_good hc
  obtain ⟨b, rfl, hR⟩ := h a ha
  exact ⟨g b, rfl, hfg a b hR⟩

theorem Rereads.seq {rf : Reading (α → γ)} {rg : Reading (β → δ)} {r : Reading α} {r' : Reading β}
    (hfg : Rereads (fun f g => ∀ a b, R a b → S (f a) (g b)) rf rg) (h : Rereads R r r') :
    Rereads S (rf <*> r) (rg <*> r') := by
  intro c hc
  obtain ⟨f, a, hf, ha, rfl⟩ := seq_eq_good hc
  obtain ⟨g, rfl, hstep⟩ := hfg f hf
  obtain ⟨b, rfl, hR⟩ := h a ha
  exact ⟨g b, rfl, hstep a b hR⟩

theorem Rereads.within {r : Reading α} {r' : Reading β} (h : Rereads R r r') (name : String) :
    Rereads R (r.within name) (r'.within name) := by
  intro a ha
  obtain ⟨b, rfl, hR⟩ := h a (of_within_eq_good ha)
  exact ⟨b, rfl, hR⟩

theorem Rereads.finish {r : Reading α} {r' : Reading β} (h : Rereads R r r') (kind : RecordKind) :
    Follows sure R (finish kind r) (finish kind r') := by
  refine follows_of_exists fun a ha => ?_
  obtain ⟨b, rfl, hR⟩ := h a (finish_eq_ok ha)
  exact ⟨b, rfl, hR⟩

theorem text_restated (h : Json.Restated free v w) : text w = text v := by
  obtain ⟨_, hvalue⟩ := h
  rcases hvalue.shapes with ⟨-, rfl⟩ | ⟨_, _, rfl, rfl, -⟩ | ⟨_, _, rfl, rfl, -⟩ <;> rfl

theorem optional_restated (h : Json.Restated free v w) : optional text w = optional text v := by
  obtain ⟨_, hvalue⟩ := h
  rcases hvalue.shapes with ⟨-, rfl⟩ | ⟨_, _, rfl, rfl, -⟩ | ⟨_, _, rfl, rfl, -⟩ <;> rfl

/-- A list in which there are texts wherever there are some in another list is read like it. -/
theorem rereads_texts {vs ws : List Json}
    (h : List.Forall₂ (fun v w => ∀ s, v = .str s → ∃ t, w = .str t) vs ws) :
    Rereads (fun _ _ => True) (list text (.arr vs)) (list text (.arr ws)) := by
  have hfrom : ∀ i, Rereads (fun _ _ => True) (itemsFrom text i vs) (itemsFrom text i ws) := by
    induction h with
    | nil => exact fun i texts _ => ⟨[], rfl, trivial⟩
    | @cons v w vs ws hfirst _ ih =>
        intro i
        have hone : Rereads (fun _ _ => True) (text v) (text w) := by
          intro s hs
          obtain ⟨t, rfl⟩ := hfirst s (EndpointCompiler.str_of_text hs).symm
          exact ⟨t, rfl, trivial⟩
        exact ((hone.within _).map fun _ _ _ _ _ _ => trivial).seq (ih (i + 1))
  exact hfrom 0

end Record

namespace EndpointCompiler

open Node (Twin)

variable {c c' : EndpointCompiler} {r r' : Resolver} {n n' : Node}
  {schema? schema?' : Option Node}

theorem field_text_restated {v w : Json} (h : Json.Restated free v w) (name : String) :
    field name Record.text w = field name Record.text v :=
  congrArg (·.within name) (Record.text_restated h)

theorem field_optional_restated {v w : Json} (h : Json.Restated free v w) (name : String) :
    field name (Record.optional Record.text) w = field name (Record.optional Record.text) v :=
  congrArg (·.within name) (Record.optional_restated h)

/-! ## Contents -/

theorem jsonField?_twin {fs gs : List (String × Node)}
    (h : List.Forall₂ (Node.FieldTwin free) fs gs) :
    Option.Rel (Twin free) (jsonField? fs) (jsonField? gs) := by
  induction h with
  | nil => exact .none
  | @cons f g fs gs hfirst _ ih =>
      unfold jsonField? at ih ⊢
      rw [List.find?_cons, List.find?_cons, hfirst.1]
      split
      · exact .some hfirst.2
      · exact ih

/-- The JSON content of a message is that of its twin, unless the contents are at a free place. -/
theorem jsonSchema_twin (h : Twin free n n')
    (hplace : ∀ here, n.settle = .ok here → ¬ free here.trail) :
    Follows sure (Option.Rel (Twin free)) (jsonSchema n) (jsonSchema n') := by
  have hmedia : ∀ m m', Twin free m m' →
      Follows sure (Option.Rel (Twin free))
        (do
          if !(← m.isObject) then return none
          let schema ← m.get "schema"
          return if schema.isAbsent then none else some schema)
        (do
          if !(← m'.isObject) then return none
          let schema ← m'.get "schema"
          return if schema.isAbsent then none else some schema) := by
    intro m m' hm
    refine hm.isObject.bind_eq fun _ =>
      follows_ite Iff.rfl (fun _ => follows_pure .none) fun _ => ?_
    refine (hm.get "schema").bind fun a a' ha => follows_pure ?_
    rw [ha.isAbsent]
    split
    · exact .none
    · exact .some ha
  refine h.isObject.bind_eq fun _ =>
    follows_ite Iff.rfl (fun _ => follows_pure .none) fun _ => ?_
  refine (h.get "application/json").bind fun a a' ha => ?_
  refine follows_ite (by rw [ha.isAbsent]) (fun _ => ?_) fun _ => hmedia a a' ha
  refine h.fields.bind fun fs gs hall =>
    (follows_pure (jsonField?_twin (hall.2.2 hplace))).bind fun m? m?' hm => ?_
  cases hm with
  | none => exact follows_pure .none
  | some hm => exact hmedia _ _ hm

theorem isInlineResponse_twin (h : Twin free n n') :
    Follows sure Eq (isInlineResponse n) (isInlineResponse n') := by
  refine h.isObject.bind_eq fun _ => follows_ite Iff.rfl (fun _ => follows_pure rfl) fun _ => ?_
  refine h.isReference.bind_eq fun _ => follows_ite Iff.rfl (fun _ => follows_pure rfl) fun _ => ?_
  refine (Schema.typeOf_twin h).bind fun v w hvalue => ?_
  refine follows_ite (hvalue.eq_iff rfl) (fun _ => ?_) fun _ => ?_
  · refine (h.has "properties").bind_eq fun _ =>
      follows_ite Iff.rfl (fun _ => follows_pure rfl) fun _ => ?_
    exact (h.get "additionalProperties").bind fun a a' ha =>
      ha.truthy.bind_eq fun _ => follows_pure rfl
  · exact follows_ite (hvalue.eq_iff rfl) (fun _ => h.has "properties") fun _ => follows_pure rfl

/-! ## Where operations are described -/

theorem pathItem_twin {d d' : Document} (h : d.Reordered free d') (path : String) :
    Follows sure (Option.Rel (Twin free)) (pathItem d path) (pathItem d' path) := by
  refine ((Node.twin_top h).get "paths").bind fun a a' ha => ?_
  refine ha.truthy.bind_eq fun _ => follows_ite Iff.rfl (fun _ => follows_pure .none) fun _ => ?_
  refine (ha.get path).bind fun b b' hb => ?_
  exact hb.isObject.bind_eq fun _ => follows_ite Iff.rfl (fun _ => follows_pure (.some hb))
    fun _ => follows_pure .none

/-- Compilers of reordered documents. -/
structure CompilerTwin (free : List Step → Prop) (c c' : EndpointCompiler) : Prop where
  resolved : c.resolved.Reordered free c'.resolved
  written : c.written.Reordered free c'.written
  mapper : c.mapper.Twin free c'.mapper
  named : ∀ name, (c'.mapper.names.schemaOf? name).isNone = (c.mapper.names.schemaOf? name).isNone
  synthesize : c'.synthesize = c.synthesize
  includeErrors : c'.includeErrors = c.includeErrors

variable {item item' operation operation' : Node}

/-- An operation is described at the twin of the place where its twin is. -/
theorem CompilerTwin.sourceOf (hc : CompilerTwin free c c') (method : Method) (path : String)
    (h : Twin free operation operation') :
    Follows sure (fun p p' => Twin free p.1 p'.1 ∧ Twin free p.2 p'.2)
      (c.sourceOf method path operation) (c'.sourceOf method path operation') := by
  have hgiven : Follows sure (fun p p' : Node × Node => Twin free p.1 p'.1 ∧ Twin free p.2 p'.2)
      (do return (operation, (← pathItem c.resolved path).getD ⟨c.resolved, [], .obj []⟩))
      (do return (operation', (← pathItem c'.resolved path).getD ⟨c'.resolved, [], .obj []⟩)) := by
    refine (pathItem_twin hc.resolved path).bind fun a? a'? ha => follows_pure ⟨h, ?_⟩
    cases ha with
    | none => exact ⟨hc.resolved, rfl, Json.reordered_self rfl⟩
    | some ha => exact ha
  refine (pathItem_twin hc.written path).bind fun a? a'? ha => ?_
  cases ha with
  | none => exact hgiven
  | some ha =>
      refine (Resolver.objectAt_twin hc.mapper.document ha).bind fun b? b'? hb => ?_
      cases hb with
      | none => exact hgiven
      | some hb =>
          refine (hb.get method.name).bind fun own own' hown => ?_
          exact hown.isObject.bind_eq fun _ =>
            follows_ite Iff.rfl (fun _ => follows_pure ⟨hown, hb⟩) fun _ => hgiven

/-! ## Parameters -/

theorem shallowFields_twin (h : Option.Rel (Twin free) schema? schema?') :
    Follows sure (fun _ _ => True) (shallowFields schema?) (shallowFields schema?') := by
  cases h with
  | none => exact follows_pure trivial
  | some h =>
      refine h.isObject.bind_eq fun _ =>
        follows_ite Iff.rfl (fun _ => follows_pure trivial) fun _ => ?_
      refine h.fields.bind fun fs gs hall => ?_
      refine (follows_mapM_regrouped (S := fun _ _ => True) hall.1 fun f g hfg => ?_).bind
        fun _ _ _ => follows_pure trivial
      exact hfg.2.opened.bind fun _ _ _ => follows_pure trivial

theorem givenOr_twin (h : Twin free n n') {usual : Json} (husual : usual.isHashable = true) :
    Follows sure (fun p q => Json.Restated free p.1 q.1 ∧ Json.Restated free p.2 q.2)
      (givenOr n usual) (givenOr n' usual) := by
  refine h.opened.bind fun v w ⟨place, hvalue⟩ => follows_pure ?_
  rw [hvalue.truthy]
  split
  · exact ⟨⟨_, h.value⟩, place, hvalue⟩
  · exact ⟨⟨[], .scalar husual⟩, [], .scalar husual⟩

theorem compileParameter_twin (hr : c.mapper.resolver.document.Reordered free
      c'.mapper.resolver.document) (h : Twin free n n') :
    Follows sure (fun _ _ => True) (c.compileParameter n) (c'.compileParameter n') := by
  refine (h.get "name").bind fun called called' hcalled => ?_
  refine (h.get "in").bind fun place place' hplace => ?_
  refine (givenOr_twin hplace rfl).bind fun kind kind' hkind => ?_
  refine (h.get "schema").bind fun a a' ha => ?_
  refine (Resolver.derefIfAny_twin hr ha).bind fun schema? schema?' hschema => ?_
  have hname : Json.Restated free called.value called'.value := ⟨_, hcalled.value⟩
  -- whatever the argument is called, the record is filled in the same way
  have hrest : ∀ name name' : Json, Json.Restated free name name' →
      Follows sure (fun _ _ => True)
        (do
          let node ← n.get "required"
          let typeExpression ← parameterType c.mapper.resolver schema?
          let constraintSchema ← shallowFields schema?
          let description ← n.get "description"
          Record.finish .parameter
            ((fun name wireName kindName description =>
                ({ name, wireName, kind := .ofName kindName,
                   required := kind.2 = Json.str "path" || node.value = Json.bool true,
                   typeExpression, constraintSchema, description } : Parameter))
              <$> field "name" Record.text name
              <*> field "wire_name" Record.text called.value
              <*> field "kind" Record.text kind.1
              <*> field "description" (Record.optional Record.text) description.value))
        (do
          let node ← n'.get "required"
          let typeExpression ← parameterType c'.mapper.resolver schema?'
          let constraintSchema ← shallowFields schema?'
          let description ← n'.get "description"
          Record.finish .parameter
            ((fun name wireName kindName description =>
                ({ name, wireName, kind := .ofName kindName,
                   required := kind'.2 = Json.str "path" || node.value = Json.bool true,
                   typeExpression, constraintSchema, description } : Parameter))
              <$> field "name" Record.text name'
              <*> field "wire_name" Record.text called'.value
              <*> field "kind" Record.text kind'.1
              <*> field "description" (Record.optional Record.text) description.value)) := by
    intro name name' hnames
    refine (h.get "required").bind fun _ _ _ => ?_
    refine (parameterType_twin hr hschema).bind fun _ _ _ => ?_
    refine (shallowFields_twin hschema).bind fun _ _ _ => ?_
    refine (h.get "description").bind fun d d' hd => ?_
    have hread := fun (v w : Json) (hvw : Json.Restated free v w) (label : String) =>
      Record.rereads_of_eq (field_text_restated hvw label)
    refine Record.Rereads.finish ?_ _
    refine Record.Rereads.seq (R := Eq) ?_
      (Record.rereads_of_eq (field_optional_restated ⟨_, hd.value⟩ _))
    refine Record.Rereads.seq (R := Eq) ?_ (hread _ _ hkind.1 _)
    refine Record.Rereads.seq (R := Eq) ?_ (hread _ _ hname _)
    exact (hread _ _ hnames _).map fun _ _ _ _ _ _ _ _ _ _ _ _ => trivial
  dsimp only
  refine follows_ite (hkind.2.eq_iff rfl) (fun _ => ?_) fun _ => hrest _ _ hname
  obtain ⟨_, hvalue⟩ := hname
  rcases hvalue.shapes with ⟨-, heq⟩ | ⟨_, _, hv, hw, -⟩ | ⟨_, _, hv, hw, -⟩
  · rw [heq] at hrest ⊢
    split
    · exact hrest _ _ ⟨[], .scalar rfl⟩
    · exact follows_throw
  · rw [hv]
    exact follows_throw
  · rw [hv]
    exact follows_throw

/-- Parameters of the same name and place that are twins. -/
def MergedTwin (free : List Step → Prop) (m m' : (Json × Json) × Node) : Prop :=
  m'.1 = m.1 ∧ Twin free m.2 m'.2

theorem putParameter_twin {key : Json × Json} {merged merged' : List ((Json × Json) × Node)}
    (h : List.Forall₂ (MergedTwin free) merged merged') (hn : Twin free n n') :
    List.Forall₂ (MergedTwin free) (putParameter key n merged) (putParameter key n' merged') := by
  induction h with
  | nil => exact .cons ⟨rfl, hn⟩ .nil
  | @cons m m' merged merged' hfirst hrest ih =>
      obtain ⟨k, a⟩ := m
      obtain ⟨k', a'⟩ := m'
      obtain ⟨rfl, ha⟩ : k' = k ∧ Twin free a a' := hfirst
      rw [putParameter, putParameter]
      split
      · exact .cons ⟨rfl, hn⟩ hrest
      · exact .cons ⟨rfl, ha⟩ ih

/-- A text is no object. -/
theorem objectAt_of_isText (h : n.IsText) : r.objectAt n = .ok none := by
  obtain ⟨s, hs⟩ := h
  have hsettle : n.settle = .ok n := Node.settle_of_noLink (by rw [hs]; rfl)
  have hobject : n.isObject = .ok false := by
    rw [Node.isObject, ok_bind hsettle, hs]
    rfl
  have hpointer : n.pointer? = .ok none := by
    rw [Node.pointer?, ok_bind hobject]
    rfl
  have hchain : r.chainEnd n = .ok (.node n) := by
    rw [Resolver.chainEnd, Resolver.chase, ok_bind hpointer]
    rfl
  have hderef : r.derefIfAny n = .ok (some n) := by
    rw [Resolver.derefIfAny, ok_bind hchain]
    rfl
  rw [Resolver.objectAt, ok_bind hderef]
  dsimp only
  rw [ok_bind hobject]
  rfl

theorem mergeParameter_twin (hr : c.mapper.resolver.document.Reordered free
      c'.mapper.resolver.document) {merged merged' : List ((Json × Json) × Node)}
    (hmerged : List.Forall₂ (MergedTwin free) merged merged') (h : Node.EntryTwin free n n') :
    Follows sure (List.Forall₂ (MergedTwin free)) (c.mergeParameter merged n)
      (c'.mergeParameter merged' n') := by
  rcases h with h | ⟨htext, htext'⟩
  · refine (Resolver.objectAt_twin hr h).bind fun a? a'? ha => ?_
    cases ha with
    | none => exact follows_pure hmerged
    | some ha =>
        refine (ha.get "name").bind fun b b' hb => hb.opened.bind fun name name' ⟨_, hname⟩ => ?_
        refine follows_ite (by rw [hname.truthy]) (fun _ => follows_pure hmerged) fun _ => ?_
        refine (ha.get "in").bind fun b b' hb => hb.opened.bind fun place place' ⟨_, hplace⟩ => ?_
        refine follows_ite (by rw [hname.isHashable, hplace.isHashable]) (fun _ => follows_throw)
          fun hhashable => follows_pure ?_
        rw [Bool.or_eq_true, Bool.not_eq_true', Bool.not_eq_true', not_or, Bool.not_eq_false,
          Bool.not_eq_false] at hhashable
        obtain rfl : name' = name := (hname.eq_iff hhashable.1).mpr rfl
        obtain rfl : place' = place := (hplace.eq_iff hhashable.2).mpr rfl
        exact putParameter_twin hmerged ha
  · refine follows_of_exists fun result hresult => ?_
    rw [mergeParameter, ok_bind (objectAt_of_isText htext)] at hresult
    obtain rfl := pure_eq_ok.mp hresult
    exact ⟨merged', ok_bind (objectAt_of_isText htext'), hmerged⟩

theorem compileParameters_twin (hr : c.mapper.resolver.document.Reordered free
      c'.mapper.resolver.document) (hitem : Twin free item item')
    (h : Twin free operation operation') :
    Follows sure (fun _ _ => True) (c.compileParameters item operation)
      (c'.compileParameters item' operation') := by
  rw [compileParameters_eq, compileParameters_eq]
  have hmerged : Follows sure (List.Forall₂ (MergedTwin free))
      (c.mergedParameters item operation) (c'.mergedParameters item' operation') := by
    refine (hitem.get "parameters").bind fun a a' ha => ha.entriesIfAny.bind fun xs xs' hxs => ?_
    refine (h.get "parameters").bind fun a a' ha => ha.entriesIfAny.bind fun ys ys' hys => ?_
    exact follows_foldlM (List.rel_append hxs hys) .nil fun _ _ _ _ hentry hmerged =>
      mergeParameter_twin hr hmerged hentry
  refine hmerged.bind fun merged merged' hall => ?_
  have hnodes : List.Forall₂ (Twin free) (merged.map (·.2)) (merged'.map (·.2)) := by
    rw [List.forall₂_map_left_iff, List.forall₂_map_right_iff]
    exact hall.imp fun _ _ hm => hm.2
  exact (follows_mapM hnodes fun _ _ hn => compileParameter_twin hr hn).imp fun _ _ _ => trivial

/-! ## Bodies -/

theorem follows_unsure {α β : Type} {x : Except Fault α} {y : Except Fault β} (h : ¬ sure) :
    Follows sure (fun _ _ => True) x y :=
  fun _ _ => ⟨fun hsure => absurd hsure h, fun _ _ => trivial⟩

/-- The contents of the body of a request. -/
def IsBodyContent (c : EndpointCompiler) (request content : Node) : Prop :=
  ∃ node, c.mapper.resolver.objectAt request = .ok (some node) ∧
    node.get "content" = .ok content

theorem compileBody_twin (hm : c.mapper.Twin free c'.mapper) (h : Twin free n n')
    (hplace : sure → ∀ content here, c.IsBodyContent n content → content.settle = .ok here →
      ¬ free here.trail) :
    Follows sure (fun _ _ => True) (c.compileBody n) (c'.compileBody n') := by
  by_cases hsure : sure
  · refine (Resolver.objectAt_twin hm.document h).given.bind fun a? a'? ⟨hobject, _, ha⟩ => ?_
    cases ha with
    | none => exact follows_pure trivial
    | some ha =>
        refine (ha.get "content").given.bind fun b b' ⟨hcontent, _, hb⟩ => ?_
        refine (jsonSchema_twin hb fun here => hplace hsure b here ⟨_, hobject, hcontent⟩).bind
          fun schema? schema?' hschema => ?_
        cases hschema with
        | none => exact follows_pure trivial
        | some hschema =>
            refine (hm.mapBody hschema).bind fun _ _ _ => ?_
            refine (ha.get "description").bind fun d d' hd => ?_
            refine (Record.Rereads.finish (R := fun _ _ => True) ?_ _).bind
              fun _ _ _ => follows_pure trivial
            exact (Record.rereads_of_eq (field_optional_restated ⟨_, hd.value⟩ _)).map
              fun _ _ _ => trivial
  · exact follows_unsure hsure

end EndpointCompiler

end ApiScaffold
