import ApiScaffold.Proofs.Claims
import ApiScaffold.Proofs.Remembering

set_option autoImplicit false

/-! # Compiling once more

A compiler of endpoints can be asked for single operations and for all operations, over and over
(`Call`). All that a call leaves behind are names that were claimed and classes that were made up.
Compiling all operations begins without them. Compiling an operation once more finds them, and
claims the same names again (`Repeatable`). So neither hangs on what was asked for before
(`compileAll_afresh`). -/

namespace ApiScaffold.EndpointCompiler

variable {α β : Type} {c : EndpointCompiler} {s t u : EndpointState}

/-! ## Steps that can be repeated -/

/-- Nothing that was left behind is lost. -/
structure Grown (s t : EndpointState) : Prop where
  arena : Registry.Extends s.arena t.arena
  models : ∀ p ∈ s.responseModels, p ∈ t.responseModels

theorem Grown.refl (s : EndpointState) : Grown s s := ⟨.refl _, fun _ h => h⟩

theorem Grown.trans (h : Grown s t) (h' : Grown t u) : Grown s u :=
  ⟨h.arena.trans h'.arena, fun p hp => h'.models p (h.models p hp)⟩

/-- A step loses nothing, and once it has given a value, it gives the same value again and leaves
everything as it is, at once or later. -/
def Repeatable (x : Compiling α) : Prop :=
  ∀ s a t, Yields x s a t → Grown s t ∧ ∀ u, Grown t u → Yields x u a u

theorem repeatable_pure (a : α) : Repeatable (pure a) := by
  intro s b t h
  obtain ⟨rfl, rfl⟩ := yields_pure.mp h
  exact ⟨.refl t, fun u _ => yields_pure.mpr ⟨rfl, rfl⟩⟩

theorem repeatable_lift (e : Except Fault α) : Repeatable (liftM e) := by
  intro s a t h
  obtain ⟨he, rfl⟩ := yields_lift.mp h
  exact ⟨.refl t, fun u _ => yields_lift.mpr ⟨he, rfl⟩⟩

theorem Repeatable.bind {x : Compiling α} {f : α → Compiling β} (hx : Repeatable x)
    (hf : ∀ a, Repeatable (f a)) : Repeatable (x >>= f) := by
  intro s b t h
  obtain ⟨a, v, ha, hb⟩ := yields_bind.mp h
  obtain ⟨hfirst, hagain⟩ := hx s a v ha
  obtain ⟨hsecond, hagain'⟩ := hf a v b t hb
  refine ⟨hfirst.trans hsecond, fun u hu => ?_⟩
  exact yields_bind.mpr ⟨a, u, hagain u (hsecond.trans hu), hagain' u hu⟩

/-- What comes after a step that does not hang on the state only needs to be repeatable for the
value of that step. -/
theorem repeatable_lift_bind {e : Except Fault α} {f : α → Compiling β}
    (hf : ∀ a, e = .ok a → Repeatable (f a)) : Repeatable (liftM e >>= f) := by
  intro s b t h
  obtain ⟨a, ha, hb⟩ := yields_lift_bind.mp h
  obtain ⟨hgrown, hagain⟩ := hf a ha s b t hb
  exact ⟨hgrown, fun u hu => yields_lift_bind.mpr ⟨a, ha, hagain u hu⟩⟩

theorem repeatable_mapM {f : α → Compiling β} {xs : List α} (hf : ∀ x, Repeatable (f x)) :
    Repeatable (xs.mapM f) := by
  induction xs with
  | nil =>
      rw [List.mapM_nil]
      exact repeatable_pure []
  | cons x xs ih =>
      rw [List.mapM_cons]
      exact (hf x).bind fun b => ih.bind fun bs => repeatable_pure (b :: bs)

/-! ## Compiling an operation -/

/-- A class for a response is not made up if its name is the one of a named schema, or if it was
made up before. -/
def IsKnown (c : EndpointCompiler) (s : EndpointState) (name : String) : Prop :=
  (c.mapper.names.schemaOf? name).isSome = true ∨ ∃ p ∈ s.responseModels, p.1 = name

theorem isKnown_iff {name : String} : c.IsKnown s name ↔
    ((c.mapper.names.schemaOf? name).isNone && !s.responseModels.any (·.1 == name)) = false := by
  simp only [IsKnown, Bool.and_eq_false_iff, Option.isNone_eq_false_iff, Bool.not_eq_false',
    List.any_eq_true, beq_iff_eq]

theorem IsKnown.grown {name : String} (h : c.IsKnown s name) (hgrown : Grown s t) :
    c.IsKnown t name :=
  h.imp_right fun ⟨p, hp, hname⟩ => ⟨p, hgrown.models p hp, hname⟩

theorem yields_claimResponse_known {base name : String} {schema : Node}
    (hclaim : s.arena.claim base schema "response" = .ok (name, s.arena))
    (hknown : c.IsKnown s name) : Yields (c.claimResponse base schema) s name s := by
  refine yields_get_bind.mpr (yields_lift_bind.mpr ⟨_, hclaim, yields_set_bind.mpr ?_⟩)
  rw [isKnown_iff] at hknown
  simp only [hknown, Bool.false_eq_true, if_false]
  exact yields_pure.mpr ⟨rfl, rfl⟩

/-- Claiming a name for a response makes it known, and loses nothing. -/
theorem grown_claimResponse {base name : String} {schema : Node}
    (h : Yields (c.claimResponse base schema) s name t) : Grown s t ∧ c.IsKnown t name := by
  obtain ⟨arena, hclaim, rfl⟩ := yields_claimResponse h
  have hgrows := Registry.extends_claim hclaim
  split
  · refine ⟨⟨hgrows, fun p hp => List.mem_append_left _ hp⟩, .inr ⟨(name, schema), ?_, rfl⟩⟩
    exact List.mem_append_right _ (List.mem_singleton_self _)
  · next hknown =>
      rw [Bool.not_eq_true, ← isKnown_iff] at hknown
      exact ⟨⟨hgrows, fun p hp => hp⟩, hknown⟩

theorem repeatable_claimResponse {base : String} {schema : Node}
    (hthere : schema.isAbsent = false) : Repeatable (c.claimResponse base schema) := by
  intro s name t h
  obtain ⟨hgrown, hknown⟩ := grown_claimResponse h
  refine ⟨hgrown, fun u hu => yields_claimResponse_known ?_ (hknown.grown hu)⟩
  obtain ⟨arena, hclaim, rfl⟩ := yields_claimResponse h
  refine Registry.claim_again hthere hclaim ?_
  have harena := hu.arena
  split at harena <;> exact harena

theorem repeatable_compileResponse (operation : Json) (several : Bool) (raw : RawResponse) :
    Repeatable (c.compileResponse operation several raw) := by
  -- however the type was found, the rest hangs on the response only
  have hlast (typeExpression : String) (inPlace : Bool) : Repeatable (do
      let description := (← liftM (raw.response.get "description")).value
      liftM <| Record.finish .response
        ((fun description => { status := raw.status, typeExpression, description, inPlace })
          <$> field "description" (Record.optional Record.text) description) :
        Compiling Response) :=
    repeatable_lift_bind fun description _ => repeatable_lift _
  unfold compileResponse
  dsimp only
  split
  · exact hlast _ _
  · next schema _ =>
      refine repeatable_lift_bind fun inline hinline => ?_
      split
      · next hboth =>
          rw [Bool.and_eq_true] at hboth
          refine repeatable_lift_bind fun base _ => ?_
          have hthere : schema.isAbsent = false := not_isAbsent_of_inline (hboth.2 ▸ hinline)
          exact (repeatable_claimResponse hthere).bind fun name => hlast name true
      · exact repeatable_lift_bind fun type _ => hlast _ _

theorem repeatable_compileResponses (operation : Json) (responses : Node) :
    Repeatable (c.compileResponses operation responses) := by
  refine repeatable_lift_bind fun raw _ => repeatable_lift_bind fun madeUp _ => ?_
  exact repeatable_mapM fun r => repeatable_compileResponse operation _ r

theorem repeatable_compile (method : Method) (path : String) (operation : Node) :
    Repeatable (c.compile method path operation) := by
  refine repeatable_lift_bind fun source _ => repeatable_lift_bind fun id _ => ?_
  refine repeatable_lift_bind fun name _ => repeatable_lift_bind fun parameters _ => ?_
  refine repeatable_lift_bind fun body _ => repeatable_lift_bind fun node _ => ?_
  refine (repeatable_compileResponses _ _).bind fun responses => ?_
  refine repeatable_lift_bind fun summary _ => repeatable_lift_bind fun description _ => ?_
  refine repeatable_lift_bind fun deprecated _ => repeatable_lift_bind fun tags _ => ?_
  exact repeatable_lift_bind fun forced _ => repeatable_lift _

/-! ## Calls -/

/-- What a compiler of endpoints can be asked for. -/
inductive Call where
  | compile (method : Method) (path : String) (operation : Node)
  | compileAll

/-- What a call leaves behind, whether it gives something or fails. -/
def leaves (c : EndpointCompiler) (s : EndpointState) : Call → EndpointState
  | .compile method path operation => ((c.compile method path operation).run.run s).2
  | .compileAll => (c.compileAll.run.run s).2

/-- What calls leave behind, one after the other. -/
def after (c : EndpointCompiler) (calls : List Call) : EndpointState :=
  calls.foldl c.leaves c.start

/-- The state in which all operations are compiled is always the first one. -/
theorem run_compileAll (s : EndpointState) :
    c.compileAll.run.run s = c.compileAll.run.run c.start := rfl

theorem after_append_compile {calls : List Call} {method : Method} {path : String}
    {operation : Node} {e : Endpoint}
    (h : Yields (c.compile method path operation) (c.after calls) e t) :
    c.after (calls ++ [.compile method path operation]) = t := by
  rw [after, List.foldl_append]
  exact congrArg Prod.snd h

/-- Whatever a compiler was asked for before, and whether it failed, compiling all operations is the
same as with a new compiler, and leaves the same behind. Compiling an operation once more gives the
same endpoint, and leaves everything as it was. And a mapper that remembers the references that it
is following finds the types of bodies as one that hands them down, and remembers nothing afterwards
that it did not remember before. -/
theorem compileAll_afresh (c : EndpointCompiler) (calls : List Call) :
    c.compileAll.run.run (c.after calls) = c.compileAll.run.run c.start ∧
      (∀ method path operation e t,
        Yields (c.compile method path operation) (c.after calls) e t →
          c.after (calls ++ [.compile method path operation]) = t ∧
          Yields (c.compile method path operation) t e t) ∧
      ∀ fuel memory schema, (c.mapper.bodyRemembering fuel schema).run.run memory =
        (c.mapper.bodyWithin fuel memory schema, memory) := by
  refine ⟨run_compileAll _, ?_, c.mapper.bodyRemembering_restores⟩
  intro method path operation e t h
  obtain ⟨-, hagain⟩ := repeatable_compile method path operation _ e t h
  exact ⟨after_append_compile h, hagain t (.refl t)⟩

/-- An operation that answers with an object in place, with a summary and a property. -/
def flight (summary : Json) (property : String) : Json := .obj [
  ("operationId", .str "fly"),
  ("summary", summary),
  ("responses", .obj [("200", .obj [("content", .obj [("application/json", .obj [
    ("schema", .obj [("type", .str "object"), ("properties", .obj [(property, .obj [])])])])])])])]

/-- One operation. -/
def kites : Document where
  tag := 0
  root := .obj [
    ("paths", .obj [("/kites", .obj [("get", flight .null "length")])]),
    ("components", .obj [("schemas", .obj [])])]
  linked := false

/-- An operation whose summary is no text, so that compiling it fails, but only at the end. -/
def torn : Node := (Document.mk 1 (flight (.int 1) "hole") false).top

/-- Compiling `torn` fails, but leaves a class behind, so that the operation of `kites` has to take
another name. It keeps it when it is compiled once more, and together with all operations it has the
name that it would have had. -/
theorem kites_afresh :
    ∃ c e t, ofDocuments kites kites false true none = .ok c ∧
      Yields (c.compile .get "/kites" torn) (c.after [.compile .get "/torn" torn]) e t ∧
      (e.returnType, t.responseModels.map Prod.fst) =
        ("FlyResponse2Dto", ["FlyResponseDto", "FlyResponse2Dto"]) ∧
      Yields (c.compile .get "/kites" torn) t e t ∧
      c.compileAll.run.run t = c.compileAll.run.run c.start ∧
      (c.compileAll.run.run c.start).2.responseModels.map Prod.fst = ["FlyResponseDto"] := by
  have hrun : (do
      let c ← ofDocuments kites kites false true none
      let compiled := (c.compile .get "/kites" torn).run.run (c.after [.compile .get "/torn" torn])
      let e ← compiled.1
      pure ((e.returnType, compiled.2.responseModels.map Prod.fst),
        (c.compileAll.run.run c.start).2.responseModels.map Prod.fst)).toOption =
      some (("FlyResponse2Dto", ["FlyResponseDto", "FlyResponse2Dto"]), ["FlyResponseDto"]) := by
    with_unfolding_all decide
  obtain ⟨c, hc, h⟩ := bind_eq_ok.mp (eq_ok_of_toOption hrun)
  obtain ⟨e, he, h⟩ := bind_eq_ok.mp h
  obtain ⟨hnames, hall⟩ := Prod.mk.inj (pure_eq_ok.mp h)
  have hfirst : Yields (c.compile .get "/kites" torn) (c.after [.compile .get "/torn" torn]) e _ :=
    Prod.ext he rfl
  obtain ⟨-, hagain, -⟩ := compileAll_afresh c [.compile .get "/torn" torn]
  obtain ⟨hafter, hsecond⟩ := hagain _ _ _ e _ hfirst
  exact ⟨c, e, _, hc, hfirst, hnames, hsecond, hafter ▸ (compileAll_afresh c _).1, hall⟩

end ApiScaffold.EndpointCompiler
