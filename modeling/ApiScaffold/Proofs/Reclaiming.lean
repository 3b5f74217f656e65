import ApiScaffold.Proofs.Rereading

set_option autoImplicit false

/-! # Names claimed in a reordered document

Responses in place claim the names that their twins claim, whatever stands in a registry as long as
under every name there is the twin of what stands under it in the other (`Registry.Twin`). So
compiling responses one after the other leaves states behind that correspond (`StateTwin`). -/

namespace ApiScaffold

variable {sure : Prop} {free : List Step → Prop}

/-! ## Registries -/

/-- Models of the same name for twins. -/
def Entry.Twin (free : List Step → Prop) (e e' : Entry) : Prop :=
  Option.Rel (Node.Twin free) e.schema e'.schema

namespace Registry

/-- Registries with the same names for twins. -/
structure Twin (free : List Step → Prop) (r r' : Registry) : Prop where
  found : ∀ name, Option.Rel (Entry.Twin free) (r.find? name) (r'.find? name)
  size : r'.size = r.size

variable {r r' : Registry} {e e' : Entry} {schema schema' : Node}

theorem Twin.contains (h : Twin free r r') (name : String) :
    r'.contains name = r.contains name := by
  unfold Registry.contains
  rcases rel_cases (h.found name) with ⟨hx, hy⟩ | ⟨x, y, hx, hy, -⟩
  · rw [hx, hy]
  · rw [hx, hy, Option.isSome_some, Option.isSome_some]

theorem find?_register (r : Registry) (e : Entry) (name : String) :
    (r.register e).find? name = (r.find? name).or (if e.name = name then some e else none) := by
  by_cases hmem : e.name ∈ r.names
  · rw [register_of_mem hmem]
    split
    · next heq =>
        obtain ⟨known, hknown⟩ := Option.isSome_iff_exists.mp (contains_iff.mpr (heq ▸ hmem))
        rw [hknown, Option.some_or]
    · rw [Option.or_none]
  · unfold find?
    rw [entries_register_of_notMem hmem, List.find?_append, List.find?_singleton]
    simp only [beq_iff_eq]

theorem size_register (r : Registry) (e : Entry) :
    (r.register e).size = if r.contains e.name then r.size else r.size + 1 := by
  by_cases hmem : e.name ∈ r.names
  · rw [register_of_mem hmem, if_pos (contains_iff.mpr hmem)]
  · rw [if_neg (mt contains_iff.mp hmem), size, entries_register_of_notMem hmem,
      List.length_append]
    rfl

theorem Twin.register (h : Twin free r r') (hname : e'.name = e.name) (he : e.Twin free e') :
    Twin free (r.register e) (r'.register e') where
  found name := by
    rw [find?_register, find?_register, hname]
    rcases rel_cases (h.found name) with ⟨hx, hy⟩ | ⟨x, y, hx, hy, hxy⟩
    · rw [hx, hy, Option.none_or, Option.none_or]
      split
      · exact .some he
      · exact .none
    · rw [hx, hy, Option.some_or, Option.some_or]
      exact .some hxy
  size := by rw [size_register, size_register, hname, h.contains, h.size]

/-! ## Claiming names -/

theorem sameSchema_twin {known known' : Option Node}
    (hknown : Option.Rel (Node.Twin free) known known') (h : Node.Twin free schema schema')
    (hreadable : sure → Readable schema ∧ ∀ b, known = some b → Readable b) :
    Follows sure Eq (sameSchema known schema) (sameSchema known' schema') := by
  cases hknown with
  | none => exact follows_ok rfl
  | some hknown =>
      unfold sameSchema
      refine follows_ite (by rw [h.isAbsent]) (fun _ => follows_ok rfl) fun _ => ?_
      refine follows_ite (by rw [hknown.samePlace h]) (fun _ => follows_ok rfl) fun _ => ?_
      exact hknown.equal h fun hsure => ⟨(hreadable hsure).2 _ rfl, (hreadable hsure).1⟩

theorem freeName_twin (hr : Twin free r r') (h : Node.Twin free schema schema')
    (hreadable : sure → Readable schema ∧ ModelCompiler.SchemasIn Readable r) (base : String)
    (fuel attempt : Nat) :
    Follows sure Eq (r.freeName base schema fuel attempt)
      (r'.freeName base schema' fuel attempt) := by
  induction fuel generalizing attempt with
  | zero => exact follows_ok rfl
  | succ fuel ih =>
      rw [freeName, freeName]
      rcases rel_cases (hr.found (candidate base attempt)) with ⟨hx, hy⟩ | ⟨e, e', hx, hy, he⟩
      · rw [hx, hy]
        exact follows_ok rfl
      · rw [hx, hy]
        refine (sameSchema_twin he h fun hsure => ?_).bind_eq fun _ =>
          follows_ite Iff.rfl (fun _ => follows_pure rfl) fun _ => ih (attempt + 1)
        exact ⟨(hreadable hsure).1, fun b hb => (hreadable hsure).2 e (mem_of_find? hx) b hb⟩

/-- A schema claims the name that its twin claims. -/
theorem claim_twin (hr : Twin free r r') (h : Node.Twin free schema schema')
    (hreadable : sure → Readable schema ∧ ModelCompiler.SchemasIn Readable r)
    (base source : String) :
    Follows sure (fun p p' => p'.1 = p.1 ∧ Twin free p.2 p'.2) (r.claim base schema source)
      (r'.claim base schema' source) := by
  rw [claim, claim, hr.size]
  refine (freeName_twin hr h hreadable base r.size 1).bind_eq fun name => follows_pure ⟨rfl, ?_⟩
  refine hr.register rfl ?_
  unfold Entry.Twin
  dsimp only
  rw [h.isAbsent]
  split
  · exact .none
  · exact .some h

end Registry

/-! ## States -/

namespace EndpointCompiler

open Node (Twin)

variable {α β γ δ : Type} {c c' : EndpointCompiler} {n n' : Node}

/-- States after compiling in reordered documents: names belong to twins, and the classes made up so
far have the same names for twins, in the same order. -/
structure StateTwin (free : List Step → Prop) (s s' : EndpointState) : Prop where
  arena : Registry.Twin free s.arena s'.arena
  models : List.Forall₂ (Node.FieldTwin free) s.responseModels s'.responseModels

/-- States from which compiling goes on: if it is sure to, all schemas stand for finite values. -/
structure GoesOn (sure : Prop) (free : List Step → Prop) (s s' : EndpointState) : Prop
    extends StateTwin free s s' where
  readable : sure → ReadableArena s

theorem map_fst_of_fieldTwin {fs gs : List (String × Node)}
    (h : List.Forall₂ (Node.FieldTwin free) fs gs) : gs.map (·.1) = fs.map (·.1) := by
  rw [← List.forall₂_eq_eq_eq, List.forall₂_map_left_iff, List.forall₂_map_right_iff]
  exact h.flip.imp fun _ _ hfield => hfield.1

/-- Where one step of compiling gives a value, what another gives corresponds to it, and so do the
states left behind; if it is sure to, it does give one. -/
def Accompanies (sure : Prop) (free : List Step → Prop) (R : α → β → Prop) (x : Compiling α)
    (y : Compiling β) : Prop :=
  ∀ s s' a t, GoesOn sure free s s' → Yields x s a t →
    (sure → ∃ b t', Yields y s' b t') ∧
      ∀ b t', Yields y s' b t' → R a b ∧ GoesOn sure free t t'

variable {R : α → β → Prop} {S : γ → δ → Prop}

theorem accompanies_pure {a : α} {b : β} (h : R a b) :
    Accompanies sure free R (pure a) (pure b) := by
  intro s s' a' t hstate hrun
  obtain ⟨rfl, rfl⟩ := yields_pure.mp hrun
  refine ⟨fun _ => ⟨b, s', yields_pure.mpr ⟨rfl, rfl⟩⟩, fun b' t' hrun' => ?_⟩
  obtain ⟨rfl, rfl⟩ := yields_pure.mp hrun'
  exact ⟨h, hstate⟩

theorem Accompanies.imp {T : α → β → Prop} {x : Compiling α} {y : Compiling β}
    (h : Accompanies sure free R x y) (hT : ∀ a b, R a b → T a b) :
    Accompanies sure free T x y := by
  intro s s' a t hstate hrun
  obtain ⟨hgo, hgiven⟩ := h s s' a t hstate hrun
  exact ⟨hgo, fun b t' hrun' => (hgiven b t' hrun').imp_left (hT a b)⟩

theorem Accompanies.bind {x : Compiling α} {y : Compiling β} {f : α → Compiling γ}
    {g : β → Compiling δ} (h : Accompanies sure free R x y)
    (hfg : ∀ a b, R a b → Accompanies sure free S (f a) (g b)) :
    Accompanies sure free S (x >>= f) (y >>= g) := by
  intro s s' c t hstate hrun
  obtain ⟨a, u, ha, hc⟩ := yields_bind.mp hrun
  obtain ⟨hgo, hgiven⟩ := h s s' a u hstate ha
  constructor
  · intro hsure
    obtain ⟨b, u', hb⟩ := hgo hsure
    obtain ⟨hR, hstate'⟩ := hgiven b u' hb
    obtain ⟨d, t', hd⟩ := (hfg a b hR u u' c t hstate' hc).1 hsure
    exact ⟨d, t', yields_bind.mpr ⟨b, u', hb, hd⟩⟩
  · intro d t' hrun'
    obtain ⟨b, u', hb, hd⟩ := yields_bind.mp hrun'
    obtain ⟨hR, hstate'⟩ := hgiven b u' hb
    exact (hfg a b hR u u' c t hstate' hc).2 d t' hd

theorem accompanies_lift {x : Except Fault α} {y : Except Fault β} (h : Follows sure R x y) :
    Accompanies sure free R (liftM x) (liftM y) := by
  intro s s' a t hstate hrun
  obtain ⟨ha, rfl⟩ := yields_lift.mp hrun
  refine ⟨fun hsure => ?_, fun b t' hrun' => ?_⟩
  · obtain ⟨b, hb⟩ := (h a ha).1 hsure
    exact ⟨b, s', yields_lift.mpr ⟨hb, rfl⟩⟩
  · obtain ⟨hb, rfl⟩ := yields_lift.mp hrun'
    exact ⟨(h a ha).2 b hb, hstate⟩

theorem accompanies_lift_bind {x : Except Fault α} {y : Except Fault β} {f : α → Compiling γ}
    {g : β → Compiling δ} (h : Follows sure R x y)
    (hfg : ∀ a b, R a b → Accompanies sure free S (f a) (g b)) :
    Accompanies sure free S (liftM x >>= f) (liftM y >>= g) :=
  (accompanies_lift h).bind hfg

theorem accompanies_get_bind {f : EndpointState → Compiling γ} {g : EndpointState → Compiling δ}
    (h : ∀ s s', GoesOn sure free s s' → Accompanies sure free S (f s) (g s')) :
    Accompanies sure free S (get >>= f) (get >>= g) := by
  intro s s' c t hstate hrun
  simp only [yields_get_bind] at hrun ⊢
  exact h s s' hstate s s' c t hstate hrun

theorem accompanies_modify_bind {u u' : EndpointState → EndpointState} {f : PUnit → Compiling γ}
    {g : PUnit → Compiling δ}
    (hu : ∀ s s', GoesOn sure free s s' → GoesOn sure free (u s) (u' s'))
    (h : Accompanies sure free S (f ⟨⟩) (g ⟨⟩)) :
    Accompanies sure free S (modify u >>= f) (modify u' >>= g) := by
  intro s s' c t hstate hrun
  simp only [yields_modify_bind] at hrun ⊢
  exact h (u s) (u' s') c t (hu s s' hstate) hrun

theorem accompanies_mapM {f : α → Compiling γ} {g : β → Compiling δ} {xs : List α} {ys : List β}
    (h : List.Forall₂ R xs ys) (hfg : ∀ a b, R a b → Accompanies sure free S (f a) (g b)) :
    Accompanies sure free (List.Forall₂ S) (xs.mapM f) (ys.mapM g) := by
  induction h with
  | nil => exact accompanies_pure .nil
  | cons hfirst _ ih =>
      rw [List.mapM_cons, List.mapM_cons]
      exact (hfg _ _ hfirst).bind fun c d hcd => ih.bind fun cs ds hall =>
        accompanies_pure (.cons hcd hall)

/-! ## The named schemas -/

section Starting

variable {resolved written resolved' written' : Document} {includeErrors synthesize : Bool}
  {spec : Option String} {named named' : List (String × Node)} {name : String} {e : Entry}

theorem ofSchemas_twin (h : Twin free n n') :
    Follows sure (fun _ _ => True) (ModelNames.ofSchemas n) (ModelNames.ofSchemas n') := by
  refine h.entriesIfAny.bind fun entries entries' hall => ?_
  refine follows_foldlM (S := fun _ _ => True) hall trivial fun a a' _ _ ha _ => ?_
  rcases ha with ha | ⟨-, s, hs⟩
  · refine ha.opened.bind fun v w ⟨_, hvalue⟩ => ?_
    exact follows_ite (by rw [hvalue.isHashable]) (fun _ => follows_throw)
      fun _ => follows_pure trivial
  · refine follows_of_exists fun _ _ => ?_
    have hopened : a'.opened = .ok (.str s) :=
      Node.opened_eq_ok.mpr ⟨a', Node.settle_of_noLink (by rw [hs]; rfl), hs⟩
    exact ⟨_, ok_bind hopened, trivial⟩

/-- What stands under a name in the arena at the start: the named schema whose class has it. -/
theorem MadeFor.find?_arena (h : MadeFor c resolved written synthesize spec named)
    (honce : (named.map (·.1)).Nodup) : c.arena.find? name = some e ↔
      ∃ f ∈ named, name = c.mapper.names.classOf f.1 ∧ e = c.arenaEntry f := by
  have hfound : ∀ {e}, c.arena.find? name = some e →
      ∃ f ∈ named, name = c.mapper.names.classOf f.1 ∧ e = c.arenaEntry f := by
    intro e he
    have hmem := Registry.mem_of_find? he
    rw [h.arena] at hmem
    rcases Registry.mem_entries_foldl_register hmem with hnil | ⟨f, hf, rfl⟩
    · cases hnil
    · exact ⟨f, hf, (Registry.name_of_find? he).symm, rfl⟩
  refine ⟨hfound, ?_⟩
  rintro ⟨f, hf, hname, rfl⟩
  have hmem : name ∈ c.arena.names := h.mem_arena_names.mpr ⟨f, hf, hname⟩
  obtain ⟨e, he⟩ := Option.isSome_iff_exists.mp (Registry.contains_iff.mpr hmem)
  obtain ⟨g, hg, hname', rfl⟩ := hfound he
  have husual := Mapper.usual_of_ofDocument h.mapper h.fields
  rw [hname, husual.classOf, husual.classOf, Registry.ofBase_inj] at hname'
  rw [he, List.inj_on_of_nodup_map honce hf hg hname']

theorem MadeFor.nodup_arena (h : MadeFor c resolved written synthesize spec named) :
    c.arena.names.Nodup := by
  rw [h.arena]
  exact List.foldlRecOn (motive := fun r : Registry => r.names.Nodup) named _ List.nodup_nil
    fun r hr f _ => Registry.nodup_register hr

theorem includeErrors_of_ofDocuments
    (h : ofDocuments resolved written includeErrors synthesize spec = .ok c) :
    c.includeErrors = includeErrors := by
  obtain ⟨_, -, h⟩ := bind_eq_ok.mp h
  obtain ⟨_, -, h⟩ := bind_eq_ok.mp h
  obtain rfl := pure_eq_ok.mp h
  rfl

theorem MadeFor.classOf (h : MadeFor c resolved written synthesize spec named) (schema : String) :
    c.mapper.names.classOf schema = ModelName.ofBase schema :=
  (Mapper.usual_of_ofDocument h.mapper h.fields).classOf schema

section Twins

variable (h : MadeFor c resolved written synthesize spec named)
  (h' : MadeFor c' resolved' written' synthesize spec named')
  (hnamed : Regrouped (Node.FieldTwin free) named named')

include h h' hnamed

/-- The same names are those of the classes of named schemas. -/
theorem MadeFor.mem_names_iff : name ∈ c'.arena.names ↔ name ∈ c.arena.names := by
  rw [h.mem_arena_names, h'.mem_arena_names]
  simp only [h.classOf, h'.classOf]
  constructor
  · rintro ⟨f', hf', hname⟩
    obtain ⟨f, hf, hfield⟩ := hnamed.exists_left f' hf'
    exact ⟨f, hf, hfield.1 ▸ hname⟩
  · rintro ⟨f, hf, hname⟩
    obtain ⟨f', hf', hfield⟩ := hnamed.exists_right f hf
    exact ⟨f', hf', hfield.1.symm ▸ hname⟩

theorem MadeFor.arenaTwin (honce : (named'.map (·.1)).Nodup) :
    Registry.Twin free c.arena c'.arena where
  found name := by
    have honce' : (named.map (·.1)).Nodup := by
      obtain ⟨mid, hmid, hperm⟩ := hnamed
      rw [← map_fst_of_fieldTwin hmid]
      exact (hperm.map _).nodup_iff.mpr honce
    cases hfind : c.arena.find? name with
    | none =>
        have hnone : c'.arena.find? name = none := by
          rw [Registry.find?_eq_none_iff, h.mem_names_iff h' hnamed]
          exact Registry.find?_eq_none_iff.mp hfind
        rw [hnone]
        exact .none
    | some e =>
        obtain ⟨f, hf, hname, rfl⟩ := (h.find?_arena honce').mp hfind
        obtain ⟨f', hf', hfield⟩ := hnamed.exists_right f hf
        have hname' : name = c'.mapper.names.classOf f'.1 := by
          rw [hname, h.classOf, h'.classOf, hfield.1]
        rw [(h'.find?_arena honce).mpr ⟨f', hf', hname', rfl⟩]
        refine .some ?_
        unfold Entry.Twin arenaEntry
        dsimp only
        rw [hfield.2.isAbsent]
        split
        · exact .none
        · exact .some hfield.2
  size := by
    rw [← Registry.length_names, ← Registry.length_names]
    refine ((List.perm_ext_iff_of_nodup h'.nodup_arena h.nodup_arena).mpr fun name => ?_).length_eq
    exact h.mem_names_iff h' hnamed

theorem MadeFor.compilerTwin (hresolved : resolved.Reordered free resolved')
    (hwritten : written.Reordered free written')
    (hincludeErrors : c'.includeErrors = c.includeErrors) : CompilerTwin free c c' where
  resolved := by rwa [h.resolved, h'.resolved]
  written := by rwa [h.written, h'.written]
  mapper := by
    refine ⟨?_, fun schema => by rw [h.classOf, h'.classOf]⟩
    rw [(Mapper.ofDocument_eq_ok h.mapper).2.1, (Mapper.ofDocument_eq_ok h'.mapper).2.1]
    exact hwritten
  named name := by
    have hsome : (c'.mapper.names.schemaOf? name).isSome =
        (c.mapper.names.schemaOf? name).isSome := by
      rw [Bool.eq_iff_iff, h.isSome_schemaOf?, h'.isSome_schemaOf?]
      exact h.mem_names_iff h' hnamed
    rw [← Option.not_isSome, ← Option.not_isSome, hsome]
  synthesize := h'.synthesize.trans h.synthesize.symm
  includeErrors := hincludeErrors

end Twins

/-- Reordered documents have compilers that correspond. -/
theorem ofDocuments_twin (hresolved : resolved.Reordered free resolved')
    (hwritten : written.Reordered free written')
    (h : ofDocuments resolved written includeErrors synthesize spec = .ok c) :
    ∃ c', ofDocuments resolved' written' includeErrors synthesize spec = .ok c' ∧
      CompilerTwin free c c' ∧ Registry.Twin free c.arena c'.arena := by
  obtain ⟨named, hmade⟩ := ofDocuments_eq_ok h
  have htwins : Follows True (fun p p' : Mapper × List (String × Node) =>
      Regrouped (Node.FieldTwin free) p.2 p'.2 ∧ (p'.2.map (·.1)).Nodup)
      (do
        let mapper ← Mapper.ofDocument written spec
        return (mapper, ← mapper.components.fields))
      (do
        let mapper ← Mapper.ofDocument written' spec
        return (mapper, ← mapper.components.fields)) := by
    refine Follows.bind (R := fun m m' => Node.Twin free m.components m'.components) ?_
      fun m m' hm => hm.fields.bind fun fs gs hall => follows_pure ⟨hall.1, hall.2.1⟩
    exact (Schema.components_twin (Node.twin_top hwritten)).bind fun a a' ha =>
      (ofSchemas_twin ha).bind fun _ _ _ => follows_pure ha
  obtain ⟨hgo, hgiven⟩ := htwins (c.mapper, named)
    (bind_eq_ok.mpr ⟨_, hmade.mapper, bind_eq_ok.mpr ⟨_, hmade.fields, rfl⟩⟩)
  obtain ⟨⟨mapper', named'⟩, hrun⟩ := hgo trivial
  obtain ⟨hnamed, honce'⟩ := hgiven _ hrun
  obtain ⟨_, hmapper, hrun⟩ := bind_eq_ok.mp hrun
  obtain ⟨_, hfields, hrun⟩ := bind_eq_ok.mp hrun
  obtain ⟨rfl, rfl⟩ := Prod.mk.inj (pure_eq_ok.mp hrun)
  obtain ⟨c', hc'⟩ : ∃ c', ofDocuments resolved' written' includeErrors synthesize spec = .ok c' :=
    ⟨_, bind_eq_ok.mpr ⟨_, hmapper, bind_eq_ok.mpr ⟨_, hfields, rfl⟩⟩⟩
  obtain ⟨found, hmade'⟩ := ofDocuments_eq_ok hc'
  obtain rfl := Except.ok.inj (hmapper.symm.trans hmade'.mapper)
  obtain rfl := Except.ok.inj (hfields.symm.trans hmade'.fields)
  exact ⟨c', hc', hmade.compilerTwin hmade' hnamed hresolved hwritten
    ((includeErrors_of_ofDocuments hc').trans (includeErrors_of_ofDocuments h).symm),
    hmade.arenaTwin hmade' hnamed honce'⟩

end Starting

/-! ## Responses -/

theorem claimResponse_twin (hc : CompilerTwin free c c') (base : String) (h : Twin free n n')
    (hreadable : sure → Readable n) :
    Accompanies sure free Eq (c.claimResponse base n) (c'.claimResponse base n') := by
  refine accompanies_get_bind fun s s' hstate => ?_
  have hclaim := Registry.claim_twin hstate.arena h
    (fun hsure => ⟨hreadable hsure, hstate.readable hsure⟩) base "response"
  refine accompanies_lift_bind hclaim.given ?_
  rintro ⟨name, arena⟩ ⟨name', arena'⟩ ⟨hgiven, -, hname, harena⟩
  obtain rfl : name' = name := hname
  have hstate' : GoesOn sure free { s with arena } { s' with arena := arena' } :=
    ⟨⟨harena, hstate.models⟩, fun hsure =>
      Registry.claim_schemasIn (hstate.readable hsure) (hreadable hsure) hgiven⟩
  have hnew : s'.responseModels.any (·.1 == name') = s.responseModels.any (·.1 == name') := by
    have hany : ∀ models : List (String × Node),
        models.any (·.1 == name') = (models.map (·.1)).any (· == name') :=
      fun models => by rw [List.any_map]; rfl
    rw [hany, hany, map_fst_of_fieldTwin hstate.models]
  refine accompanies_modify_bind (fun _ _ _ => hstate') ?_
  dsimp only
  rw [hc.named, hnew]
  split
  · refine accompanies_modify_bind (fun t t' ht => ?_) (accompanies_pure rfl)
    exact ⟨⟨ht.arena, List.rel_append ht.models (.cons ⟨rfl, h⟩ .nil)⟩, ht.readable⟩
  · exact accompanies_pure rfl

theorem isMadeUp_twin {schema? schema?' : Option Node}
    (h : Option.Rel (Twin free) schema? schema?') :
    Follows sure Eq (isMadeUp schema?) (isMadeUp schema?') := by
  cases h with
  | none => exact follows_ok rfl
  | some h => exact isInlineResponse_twin h

theorem operationBase_twin {v w : Json} (h : Json.Restated free v w) :
    Follows sure Eq (operationBase v) (operationBase w) := by
  obtain ⟨_, hvalue⟩ := h
  rcases hvalue.shapes with ⟨-, rfl⟩ | ⟨_, _, rfl, rfl, -⟩ | ⟨_, _, rfl, rfl, -⟩
  · exact follows_refl _
  · exact follows_error
  · exact follows_error

/-- Responses of the same status that are twins. -/
structure RawTwin (free : List Step → Prop) (raw raw' : RawResponse) : Prop where
  key : raw'.key = raw.key
  status : raw'.status = raw.status
  response : Twin free raw.response raw'.response
  schema : Option.Rel (Twin free) raw.schema raw'.schema

/-- A response is compiled like its twin. -/
theorem compileResponse_twin (hc : CompilerTwin free c c') {operation operation' : Json}
    (hoperation : Json.Restated free operation operation') (several : Bool)
    {raw raw' : RawResponse} (h : RawTwin free raw raw')
    (hreadable : sure → ∀ n, raw.schema = some n → Readable n) :
    Accompanies sure free Eq (c.compileResponse operation several raw)
      (c'.compileResponse operation' several raw') := by
  -- whatever its type is, the record is filled in the same way
  have hrest : ∀ type : String × Bool, Accompanies sure free Eq
      (do
        let description := (← liftM (raw.response.get "description")).value
        liftM <| Record.finish .response
          ((fun description =>
              ({ status := raw.status, typeExpression := type.1, description,
                 inPlace := type.2 } : Response))
            <$> field "description" (Record.optional Record.text) description))
      (do
        let description := (← liftM (raw'.response.get "description")).value
        liftM <| Record.finish .response
          ((fun description =>
              ({ status := raw'.status, typeExpression := type.1, description,
                 inPlace := type.2 } : Response))
            <$> field "description" (Record.optional Record.text) description)) := by
    intro type
    refine accompanies_lift_bind (h.response.get "description") fun d d' hd => ?_
    dsimp only
    rw [h.status, field_optional_restated ⟨_, hd.value⟩]
    exact accompanies_lift (follows_refl _)
  obtain ⟨key, status, response, schema?⟩ := raw
  obtain ⟨key', status', response', schema?'⟩ := raw'
  obtain ⟨-, rfl, -, hschema⟩ := h
  unfold compileResponse
  cases hschema with
  | none => exact hrest ("void", false)
  | @some n n' hn =>
      dsimp only
      rw [hc.synthesize]
      refine accompanies_lift_bind (isInlineResponse_twin hn) ?_
      rintro inline _ rfl
      split
      · refine accompanies_lift_bind (operationBase_twin hoperation) ?_
        rintro base _ rfl
        refine (claimResponse_twin hc _ hn fun hsure => hreadable hsure n rfl).bind ?_
        rintro name _ rfl
        exact hrest (name, true)
      · refine accompanies_lift_bind (hc.mapper.mapBody hn) ?_
        rintro type _ rfl
        exact hrest (type.text, false)

end EndpointCompiler

end ApiScaffold
