import ApiScaffold.Proofs.Reaching
import ApiScaffold.Proofs.Remembering
import ApiScaffold.Proofs.Rules

set_option autoImplicit false

/-! # Following references

A mapper goes down into the parts of a schema, which are smaller, and along references to schemas
that are no models, which can be larger. It follows no reference while it is following it. So what
it needs is bounded: with every reference that it follows there is one text fewer to follow, and in
between it goes down inside one schema (`need`).

The references that are being followed can be handed down (`mapWithin`), or remembered and forgotten
again (`mapRemembering`). From any state, and whatever is remembered, both come to an end with one
outcome, the same with any fuel that is enough, and a mapper that remembers comes to remember what
it did in the beginning. The same holds of the types of bodies (`descents_conclude`). -/

namespace ApiScaffold

open Node (Plain Within Inner closed_plain)

/-! ## Coming to the same end -/

section Agreement

variable {α β : Type}

/-- Two pieces of work come to the same end. -/
def Agree (e e' : Except Fault α) : Prop := Concludes e ∧ e' = e

theorem agree_pure (a : α) : Agree (pure a) (pure a) := ⟨concludes_pure a, rfl⟩

theorem Concludes.agree_bind {e : Except Fault α} {f g : α → Except Fault β} (he : Concludes e)
    (hf : ∀ a, e = .ok a → Agree (f a) (g a)) : Agree (e >>= f) (e >>= g) := by
  cases e with
  | error fault => exact ⟨he.bind nofun, rfl⟩
  | ok a => exact hf a rfl

theorem Agree.bind {e e' : Except Fault α} {f g : α → Except Fault β} (he : Agree e e')
    (hf : ∀ a, Agree (f a) (g a)) : Agree (e >>= f) (e' >>= g) := by
  obtain ⟨he, rfl⟩ := he
  exact he.agree_bind fun a _ => hf a

theorem Agree.ite {c : Prop} [Decidable c] {x x' y y' : Except Fault α} (hx : c → Agree x x')
    (hy : ¬ c → Agree y y') : Agree (if c then x else y) (if c then x' else y') := by
  split
  · next h => exact hx h
  · next h => exact hy h

end Agreement

/-! ## Keeping pace -/

section Pace

variable {α β σ τ : Type} {Q : σ → Prop} {memory : τ} {s : σ}

/-- From a state, a step comes to an end, and one that remembers something besides does the same and
remembers the same afterwards, also if it fails. -/
structure KeepsPace (Q : σ → Prop) (memory : τ) (x : ExceptT Fault (StateM σ) α)
    (y : ExceptT Fault (StateM (σ × τ)) α) (s : σ) : Prop where
  concludes : ConcludesFrom Q x s
  same : y.run.run (s, memory) = ((x.run.run s).1, (x.run.run s).2, memory)

/-- Steps that keep pace with the same step do the same. -/
theorem KeepsPace.unique {x x' : ExceptT Fault (StateM σ) α}
    {y : ExceptT Fault (StateM (σ × τ)) α} (h : KeepsPace Q memory x y s)
    (h' : KeepsPace Q memory x' y s) : x.run.run s = x'.run.run s := by
  have heq := h.same.symm.trans h'.same
  obtain ⟨houtcome, hrest⟩ := Prod.mk.inj heq
  exact Prod.ext houtcome (Prod.mk.inj hrest).1

theorem keepsPace_pure (hs : Q s) (a : α) : KeepsPace Q memory (pure a) (pure a) s :=
  ⟨concludesFrom_pure hs a, rfl⟩

theorem keepsPace_lift {e : Except Fault α} (he : Concludes e) (hs : Q s) :
    KeepsPace Q memory (liftM e) (liftM e) s := by
  refine ⟨concludesFrom_lift he hs, ?_⟩
  cases e <;> rfl

theorem KeepsPace.bind {x : ExceptT Fault (StateM σ) α} {y : ExceptT Fault (StateM (σ × τ)) α}
    {f : α → ExceptT Fault (StateM σ) β} {g : α → ExceptT Fault (StateM (σ × τ)) β}
    (hx : KeepsPace Q memory x y s) (hf : ∀ a t, Q t → KeepsPace Q memory (f a) (g a) t) :
    KeepsPace Q memory (x >>= f) (y >>= g) s := by
  refine ⟨hx.concludes.bind fun a t _ ht => (hf a t ht).concludes, ?_⟩
  have hstate := hx.concludes.2
  rw [ExceptT.run_bind, StateT.run_bind, ExceptT.run_bind, StateT.run_bind, hx.same]
  rcases hrun : x.run.run s with ⟨outcome, t⟩
  rw [hrun] at hstate
  cases outcome with
  | error fault => rfl
  | ok a => exact (hf a t hstate).same

theorem keepsPace_lift_bind {e : Except Fault α} {f : α → ExceptT Fault (StateM σ) β}
    {g : α → ExceptT Fault (StateM (σ × τ)) β} (he : Concludes e) (hs : Q s)
    (hf : ∀ a, e = .ok a → KeepsPace Q memory (f a) (g a) s) :
    KeepsPace Q memory (liftM e >>= f) (liftM e >>= g) s := by
  cases e with
  | error fault => exact ⟨⟨fun heq => he (by cases heq; rfl), hs⟩, rfl⟩
  | ok a => exact ⟨(hf a rfl).concludes, (hf a rfl).same⟩

/-- What a step that remembers does may hang on what it remembers. -/
theorem keepsPace_get_bind {x : ExceptT Fault (StateM σ) α}
    {f : σ × τ → ExceptT Fault (StateM (σ × τ)) α} (h : KeepsPace Q memory x (f (s, memory)) s) :
    KeepsPace Q memory x (get >>= f) s :=
  ⟨h.concludes, h.same⟩

theorem KeepsPace.ite {c : Prop} [Decidable c] {x x' : ExceptT Fault (StateM σ) α}
    {y y' : ExceptT Fault (StateM (σ × τ)) α} (hx : c → KeepsPace Q memory x y s)
    (hx' : ¬ c → KeepsPace Q memory x' y' s) :
    KeepsPace Q memory (if c then x else x') (if c then y else y') s := by
  split
  · next h => exact hx h
  · next h => exact hx' h

/-- A step that does not touch what is remembered. -/
def apart (x : ExceptT Fault (StateM σ) α) : ExceptT Fault (StateM (σ × τ)) α :=
  ExceptT.mk fun s => ((x.run.run s.1).1, (x.run.run s.1).2, s.2)

theorem keepsPace_apart {x : ExceptT Fault (StateM σ) α} (hx : ConcludesFrom Q x s) :
    KeepsPace Q memory x (apart x) s :=
  ⟨hx, rfl⟩

end Pace

namespace Mapper

/-! ## Mapping that remembers -/

/-- A step of a mapper that remembers the references that it is following. -/
abbrev MappingRemembering := ExceptT Fault (StateM (MapperState × List String))

/-- Do something while following a reference. The reference is forgotten afterwards, also if what
was done failed. -/
def whileMapping {α : Type} (pointer : String) (x : MappingRemembering α) :
    MappingRemembering α := do
  modify fun s => (s.1, pointer :: s.2)
  tryFinally x (modify fun s => (s.1, s.2.erase pointer))

/-- The type that a reference to a simple schema stands for. -/
def aliasRemembering (descend : Node → MappingRemembering MappedType) (pointer : String)
    (target : Node) : MappingRemembering MappedType := do
  if ← liftM (Schema.isStringEnum target) then
    let values ← liftM (do (← (← target.get "enum").entries).mapM Node.excerpt)
    return textsType pointer values
  if (← get).2.contains pointer then return .any
  whileMapping pointer (descend target)

/-- The type that a reference stands for. -/
def referenceRemembering (m : Mapper) (descend : Node → MappingRemembering MappedType)
    (pointer : String) (ctx : MappingContext) : MappingRemembering MappedType := do
  let target ← liftM (m.resolver.find pointer)
  if let some schema := target then
    if !(← liftM (Schema.isModel schema)) then
      return ← aliasRemembering descend pointer schema
  apart (m.mapClass target pointer ctx)

/-- The types of the variants of a union that are not the null type. -/
def variantsRemembering (descend : Node → MappingRemembering MappedType) :
    List Node → MappingRemembering (List MappedType)
  | [] => return []
  | variant :: rest => do
    if (← liftM (Schema.typeOf variant)) = .str "null" then variantsRemembering descend rest
    else
      let mapped ← descend variant
      return mapped :: (← variantsRemembering descend rest)

/-- The type of a list. -/
def arrayRemembering (descend : Node → MappingRemembering MappedType) (schema : Node)
    (ctx : MappingContext) : MappingRemembering MappedType := do
  let items ← liftM (schema.get "items")
  if !(← liftM items.isObject) then return unknownList
  if ← liftM (Schema.isInlineObject items) then
    match ← apart (synthesize items ctx "Item") with
    | none => return unknownList
    | some name => return listOfClassType name
  return listType (← descend items)

/-- The type of an object of which no properties are known. -/
def freeObjectRemembering (descend : Node → MappingRemembering MappedType) (schema : Node) :
    MappingRemembering MappedType := do
  let values ← liftM (schema.get "additionalProperties")
  if (← liftM values.isObject) && (← liftM values.truthy) then
    return { type := .record (← descend values).type }
  return { type := .named "object" }

/-- The type of a property, found by a mapper that remembers the references that it is following. -/
def mapRemembering (m : Mapper) (ctx : MappingContext) :
    Nat → Node → MappingRemembering MappedType
  | 0, _ => throw .endless
  | fuel + 1, schema => do
    if !(← liftM schema.isObject) then return .any
    if let some pointer ← liftM schema.pointer? then
      return ← m.referenceRemembering (m.mapRemembering ctx fuel) pointer ctx
    if let some member ← liftM (onlyMember? schema) then
      return ← m.mapRemembering ctx fuel member
    match ← liftM (variants schema) with
    | first :: rest =>
      return unionType (← variantsRemembering (m.mapRemembering ctx fuel) (first :: rest))
    | [] =>
      let type ← liftM (Schema.typeOf schema)
      if type = .str "array" then
        return ← arrayRemembering (m.mapRemembering ctx fuel) schema ctx
      if ← liftM (Schema.isInlineObject schema) then
        return ← apart (m.mapInlineObject schema ctx)
      match type with
      | .str "string" => liftM (mapString schema ctx)
      | .str "number" => liftM (mapNumber schema false)
      | .str "integer" => liftM (mapNumber schema true)
      | .str "boolean" => return { type := .named "boolean", constraints := [{ kind := .boolean }] }
      | .str "object" => freeObjectRemembering (m.mapRemembering ctx fuel) schema
      | _ => return .any

/-! ## What mapping needs -/

/-- How much fuel a descent into a schema needs: with every reference there is one text fewer to
follow, and a schema of the document is to be gone through. -/
def need (m : Mapper) (texts following : List String) (n : Node) : Nat :=
  (unfollowed texts following).length * (m.resolver.document.root.size + 1) + n.value.size

section Need

variable {m : Mapper} {texts following : List String} {n b : Node} {pointer : String}

theorem need_pos (m : Mapper) (texts following : List String) (n : Node) :
    0 < m.need texts following n :=
  Nat.lt_of_lt_of_le n.value.size_pos (Nat.le_add_left _ _)

theorem need_inner (h : Inner n b) : m.need texts following b < m.need texts following n :=
  Nat.add_lt_add_left h.smaller _

/-- The target of a reference that is not being followed needs less than the reference. -/
theorem need_target (hpointer : pointer ∈ texts) (hnew : following.contains pointer = false)
    (h : Within m.resolver.document.top b) :
    m.need texts (pointer :: following) b < m.need texts following n := by
  have hless := length_unfollowed_cons_lt hpointer hnew
  have hsize : b.value.size ≤ m.resolver.document.root.size := h.size
  unfold need
  calc (unfollowed texts (pointer :: following)).length * (m.resolver.document.root.size + 1) +
        b.value.size
      < ((unfollowed texts (pointer :: following)).length + 1) *
          (m.resolver.document.root.size + 1) := by rw [Nat.succ_mul]; omega
    _ ≤ (unfollowed texts following).length * (m.resolver.document.root.size + 1) :=
        Nat.mul_le_mul_right _ hless
    _ ≤ _ := Nat.le_add_right _ _

end Need

/-! ## Steps of a mapping -/

/-- The schemas that are registered stand for finite values. -/
def ReadableState (s : MapperState) : Prop := ModelCompiler.SchemasIn Readable s.registry

section Steps

variable {m : Mapper} {ctx : MappingContext} {s : MapperState} {n : Node}

theorem concludesFrom_register {e : Entry} (hs : ReadableState s)
    (he : ∀ n, e.schema = some n → Readable n) : ConcludesFrom ReadableState (register e) s :=
  concludesFrom_modify (ModelCompiler.SchemasIn.register hs he)

theorem concludesFrom_useClass (hs : ReadableState s) (name : String) :
    ConcludesFrom ReadableState (useClass name) s :=
  concludesFrom_modify_bind (concludesFrom_pure hs _)

theorem concludesFrom_claim (hs : ReadableState s) (hn : Readable n) (base source : String) :
    ConcludesFrom ReadableState (claim base n source) s := by
  refine concludesFrom_get_bind ?_
  refine concludesFrom_lift_bind (Registry.concludes_claim hs hn base source) hs ?_
  rintro ⟨name, registry⟩ hclaim
  refine concludesFrom_modify_bind (concludesFrom_pure ?_ name)
  exact Registry.claim_schemasIn hs hn hclaim

theorem concludesFrom_synthesize (hs : ReadableState s) (hn : Readable n) (suffix : String) :
    ConcludesFrom ReadableState (synthesize n ctx suffix) s := by
  refine (concludesFrom_claim hs hn _ _).bind fun name t _ ht => ?_
  split
  · exact concludesFrom_pure ht _
  · exact concludesFrom_modify_bind (concludesFrom_pure ht _)

theorem concludesFrom_mapClass {target : Option Node} {pointer : String} (hs : ReadableState s)
    (htarget : ∀ n, target = some n → Readable n) :
    ConcludesFrom ReadableState (m.mapClass target pointer ctx) s := by
  unfold mapClass
  split
  · split
    · exact concludesFrom_pure hs _
    · exact (concludesFrom_register hs htarget).bind fun _ t _ ht => concludesFrom_useClass ht _
  · split
    · exact concludesFrom_pure hs _
    · next schema =>
        refine (concludesFrom_claim hs (htarget schema rfl) _ _).bind fun name t _ ht => ?_
        split
        · exact concludesFrom_pure ht _
        · exact concludesFrom_useClass ht _

theorem concludesFrom_mapInlineObject (hm : m.components.Plain) (hs : ReadableState s)
    (hn : n.Plain) : ConcludesFrom ReadableState (m.mapInlineObject n ctx) s := by
  refine concludesFrom_lift_bind (concludes_structuralMatch hm hn) hs fun found _ => ?_
  cases found with
  | some component =>
      dsimp only
      split
      · exact concludesFrom_pure hs _
      · refine concludesFrom_lift_bind (hm.concludes_get component) hs fun schema hschema => ?_
        refine (concludesFrom_register hs ?_).bind fun _ t _ ht => concludesFrom_useClass ht _
        intro known hknown
        dsimp only at hknown
        split at hknown
        · cases hknown
        · obtain rfl := Option.some.inj hknown
          exact Node.Plain.readable (closed_plain.get hm hschema)
  | none =>
      refine (concludesFrom_synthesize hs hn.readable "").bind fun made t _ ht => ?_
      cases made with
      | some name => exact concludesFrom_pure ht _
      | none => exact concludesFrom_pure ht _

end Steps

/-! ## Going down -/

section Descents

variable {m : Mapper} {ctx : MappingContext} {texts following : List String} {n : Node}
  {s : MapperState} {descend : Descent} {descend' : Node → MappingRemembering MappedType}
  {pointer : String}

theorem whileMapping_keepsPace {α : Type} {x : Mapping α} {y : MappingRemembering α}
    (h : KeepsPace ReadableState (pointer :: following) x y s) :
    KeepsPace ReadableState following x (whileMapping pointer y) s := by
  refine ⟨h.concludes, ?_⟩
  have hrun : (whileMapping pointer y).run.run (s, following) =
      (tryFinally y (modify fun s => (s.1, s.2.erase pointer))).run.run
        (s, pointer :: following) := rfl
  rw [hrun, run_tryFinally_modify, h.same, List.erase_cons_head]

/-- A schema of a document that is not linked, with texts that are known. -/
structure Covered (texts : List String) (n : Node) : Prop where
  plain : n.Plain
  texts : n.value.texts ⊆ texts

theorem Covered.within {b : Node} (h : Covered texts n) (hb : Within n b) : Covered texts b :=
  ⟨hb.plain h.plain, List.Subset.trans hb.texts h.texts⟩

theorem Covered.inner {b : Node} (h : Covered texts n) (hb : Inner n b) : Covered texts b :=
  h.within hb.toWithin

/-- Both ways down keep pace on schemas that need less than `bound`. -/
def KeepsPaceBelow (m : Mapper) (texts : List String) (bound : Nat) (descend : Descent)
    (descend' : Node → MappingRemembering MappedType) : Prop :=
  ∀ following n s, m.need texts following n < bound → Covered texts n → ReadableState s →
    KeepsPace ReadableState following (descend following n) (descend' n) s

theorem mapAlias_keepsPace {target : Node}
    (h : KeepsPaceBelow m texts (m.need texts following n) descend descend')
    (hpointer : pointer ∈ texts) (ht : Within m.resolver.document.top target)
    (hcovered : Covered texts target) (hs : ReadableState s) :
    KeepsPace ReadableState following (mapAlias descend following pointer target)
      (aliasRemembering descend' pointer target) s := by
  refine keepsPace_lift_bind (Schema.concludes_isStringEnum hcovered.plain) hs fun isEnum _ => ?_
  refine KeepsPace.ite (fun _ => ?_) (fun _ => ?_)
  · have hvalues : Concludes (do (← (← target.get "enum").entries).mapM Node.excerpt) := by
      refine (hcovered.plain.concludes_get _).bind fun listed hlisted => ?_
      have hplain : listed.Plain := closed_plain.get hcovered.plain hlisted
      exact hplain.concludes_entries.bind fun entries hentries =>
        hplain.concludes_excerpts hentries
    exact keepsPace_lift_bind hvalues hs fun values _ => keepsPace_pure hs _
  · refine keepsPace_get_bind (KeepsPace.ite (fun _ => keepsPace_pure hs _) (fun hnew => ?_))
    refine whileMapping_keepsPace (h _ _ _ ?_ hcovered hs)
    exact need_target hpointer (by simpa using hnew) ht

theorem mapReference_keepsPace (hr : Covered texts m.resolver.document.top)
    (h : KeepsPaceBelow m texts (m.need texts following n) descend descend')
    (hpointer : pointer ∈ texts) (hs : ReadableState s) :
    KeepsPace ReadableState following (m.mapReference descend following pointer ctx)
      (m.referenceRemembering descend' pointer ctx) s := by
  refine keepsPace_lift_bind (m.resolver.concludes_find pointer) hs fun target? htarget => ?_
  cases target? with
  | none => exact keepsPace_apart (concludesFrom_mapClass hs nofun)
  | some target =>
      have ht : Within m.resolver.document.top target := Node.within_find htarget
      have hcovered : Covered texts target := hr.within ht
      refine keepsPace_lift_bind (Schema.concludes_isModel hcovered.plain) hs fun isModel _ => ?_
      refine KeepsPace.ite (fun _ => mapAlias_keepsPace h hpointer ht hcovered hs) (fun _ => ?_)
      refine keepsPace_apart (concludesFrom_mapClass hs fun b hb => ?_)
      obtain rfl := Option.some.inj hb
      exact hcovered.plain.readable

theorem mapVariants_keepsPace {nodes : List Node}
    (h : KeepsPaceBelow m texts (m.need texts following n) descend descend')
    (hcovered : Covered texts n) (hnodes : ∀ b ∈ nodes, Inner n b) (hs : ReadableState s) :
    KeepsPace ReadableState following (mapVariants descend following nodes)
      (variantsRemembering descend' nodes) s := by
  induction nodes generalizing s with
  | nil => exact keepsPace_pure hs _
  | cons b nodes ih =>
      have hb := hnodes b List.mem_cons_self
      have hrest : ∀ {t}, ReadableState t → KeepsPace ReadableState following
          (mapVariants descend following nodes) (variantsRemembering descend' nodes) t :=
        fun ht => ih (fun b hb => hnodes b (List.mem_cons_of_mem _ hb)) ht
      refine keepsPace_lift_bind (Schema.concludes_typeOf (hcovered.inner hb).plain) hs
        fun type _ => ?_
      refine KeepsPace.ite (fun _ => hrest hs) (fun _ => ?_)
      refine (h following b s (need_inner hb) (hcovered.inner hb) hs).bind fun mapped t ht => ?_
      exact (hrest ht).bind fun types u hu => keepsPace_pure hu _

theorem mapUnion_keepsPace {nodes : List Node}
    (h : KeepsPaceBelow m texts (m.need texts following n) descend descend')
    (hcovered : Covered texts n) (hnodes : ∀ b ∈ nodes, Inner n b) (hs : ReadableState s) :
    KeepsPace ReadableState following (mapUnion descend following nodes)
      (do return unionType (← variantsRemembering descend' nodes)) s := by
  rw [mapUnion_eq]
  exact (mapVariants_keepsPace h hcovered hnodes hs).bind fun types t ht => keepsPace_pure ht _

theorem mapArray_keepsPace (h : KeepsPaceBelow m texts (m.need texts following n) descend descend')
    (hcovered : Covered texts n) (hs : ReadableState s) :
    KeepsPace ReadableState following (mapArray descend following n ctx)
      (arrayRemembering descend' n ctx) s := by
  refine keepsPace_lift_bind (hcovered.plain.concludes_get _) hs fun items hitems => ?_
  have hplain : items.Plain := closed_plain.get hcovered.plain hitems
  refine keepsPace_lift_bind hplain.concludes_isObject hs fun isObject hobject => ?_
  refine KeepsPace.ite (fun _ => keepsPace_pure hs _) (fun hnot => ?_)
  have hthere : items.isObject = .ok true := by simpa [hobject] using hnot
  have hinner : Inner n items := hcovered.plain.inner_of_get hitems (isAbsent_of_isObject hthere)
  refine keepsPace_lift_bind (Schema.concludes_isInlineObject hplain) hs fun inPlace _ => ?_
  refine KeepsPace.ite (fun _ => ?_) (fun _ => ?_)
  · refine (keepsPace_apart (concludesFrom_synthesize hs hplain.readable "Item")).bind
      fun made t ht => ?_
    cases made with
    | some name => exact keepsPace_pure ht _
    | none => exact keepsPace_pure ht _
  · refine (h following items s (need_inner hinner) (hcovered.inner hinner) hs).bind
      fun item t ht => keepsPace_pure ht _

theorem mapFreeObject_keepsPace
    (h : KeepsPaceBelow m texts (m.need texts following n) descend descend')
    (hcovered : Covered texts n) (hs : ReadableState s) :
    KeepsPace ReadableState following (mapFreeObject descend following n)
      (freeObjectRemembering descend' n) s := by
  refine keepsPace_lift_bind (hcovered.plain.concludes_get _) hs fun values hvalues => ?_
  have hplain : values.Plain := closed_plain.get hcovered.plain hvalues
  refine keepsPace_lift_bind hplain.concludes_isObject hs fun isObject hobject => ?_
  refine keepsPace_lift_bind hplain.concludes_truthy hs fun truthy _ => ?_
  refine KeepsPace.ite (fun hboth => ?_) (fun _ => keepsPace_pure hs _)
  have hthere : values.isObject = .ok true := by
    rw [hobject, (Bool.and_eq_true_iff.mp hboth).1]
  have hinner : Inner n values := hcovered.plain.inner_of_get hvalues (isAbsent_of_isObject hthere)
  exact (h following values s (need_inner hinner) (hcovered.inner hinner) hs).bind
    fun value t ht => keepsPace_pure ht _

theorem inner_onlyMember? {b : Node} (hn : n.Plain) (h : onlyMember? n = .ok (some b)) :
    Inner n b := by
  obtain ⟨listed, hlisted, h⟩ := bind_eq_ok.mp h
  have hplain : listed.Plain := closed_plain.get hn hlisted
  rw [ok_bind (Node.settle_of_plain hplain)] at h
  split at h
  · next member hmember =>
      obtain rfl := Option.some.inj (pure_eq_ok.mp h)
      have hinner := hn.inner_of_get hlisted (by rw [Node.isAbsent, hmember])
      exact hinner.trans_within
        (Node.inner_item hmember (List.mem_singleton_self member)).toWithin
  · cases pure_eq_ok.mp h

theorem inner_variants {all : List Node} (hn : n.Plain) (h : variants n = .ok all) :
    ∀ b ∈ all, Inner n b := by
  obtain ⟨oneOf, honeOf, h⟩ := bind_eq_ok.mp h
  obtain ⟨truthy, -, h⟩ := bind_eq_ok.mp h
  obtain ⟨listed, hlisted, h⟩ := ite_bind_eq_ok.mp h
  obtain ⟨key, hkey⟩ : ∃ key, n.get key = .ok listed := by
    split at hlisted
    · exact ⟨_, pure_eq_ok.mp hlisted ▸ honeOf⟩
    · exact ⟨_, hlisted⟩
  have hplain : listed.Plain := closed_plain.get hn hkey
  dsimp only at h
  rw [ok_bind (Node.settle_of_plain hplain)] at h
  split at h
  · next items hitems =>
      cases pure_eq_ok.mp h
      have hinner := hn.inner_of_get hkey (by rw [Node.isAbsent, hitems])
      exact fun b hb => hinner.trans_within (Node.inner_itemNodes hitems b hb).toWithin
  · cases pure_eq_ok.mp h
    exact fun b hb => absurd hb List.not_mem_nil

/-- With fuel that is enough, the two ways to map keep pace, and each has the outcome that it has
with any other fuel that is enough. -/
theorem mapWithin_keepsPace (hm : m.components.Plain) (hr : Covered texts m.resolver.document.top)
    {k l : Nat} (hk : m.need texts following n ≤ k) (hl : m.need texts following n ≤ l)
    (hn : Covered texts n) (hs : ReadableState s) :
    KeepsPace ReadableState following (m.mapWithin ctx k following n) (m.mapRemembering ctx l n)
      s := by
  have hpos := m.need_pos texts following n
  induction k generalizing l following n s with
  | zero => omega
  | succ k ih =>
      cases l with
      | zero => omega
      | succ l =>
          have hbelow : KeepsPaceBelow m texts (m.need texts following n) (m.mapWithin ctx k)
              (m.mapRemembering ctx l) :=
            fun following b t hneed hb ht => ih (by omega) (by omega) hb ht (m.need_pos _ _ _)
          refine keepsPace_lift_bind hn.plain.concludes_isObject hs fun isObject _ => ?_
          refine KeepsPace.ite (fun _ => keepsPace_pure hs _) (fun _ => ?_)
          refine keepsPace_lift_bind hn.plain.concludes_pointer? hs fun pointer? hpointer => ?_
          cases pointer? with
          | some pointer =>
              have hmem := hn.texts (hn.plain.pointer_mem_texts hpointer)
              exact mapReference_keepsPace hr hbelow hmem hs
          | none =>
              refine keepsPace_lift_bind (concludes_onlyMember? hn.plain) hs
                fun member? hmember => ?_
              cases member? with
              | some member =>
                  have hinner := inner_onlyMember? hn.plain hmember
                  exact hbelow following member s (need_inner hinner) (hn.inner hinner) hs
              | none =>
                  refine keepsPace_lift_bind (concludes_variants hn.plain) hs fun all hall => ?_
                  cases all with
                  | cons first rest =>
                      exact mapUnion_keepsPace hbelow hn (inner_variants hn.plain hall) hs
                  | nil =>
                      refine keepsPace_lift_bind (Schema.concludes_typeOf hn.plain) hs
                        fun type _ => ?_
                      refine KeepsPace.ite (fun _ => mapArray_keepsPace hbelow hn hs) (fun _ => ?_)
                      refine keepsPace_lift_bind (Schema.concludes_isInlineObject hn.plain) hs
                        fun inPlace _ => ?_
                      refine KeepsPace.ite (fun _ => keepsPace_apart
                        (concludesFrom_mapInlineObject hm hs hn.plain)) (fun _ => ?_)
                      split
                      · exact keepsPace_lift (concludes_mapString hn.plain ctx) hs
                      · exact keepsPace_lift (concludes_mapNumber hn.plain false) hs
                      · exact keepsPace_lift (concludes_mapNumber hn.plain true) hs
                      · exact keepsPace_pure hs _
                      · exact mapFreeObject_keepsPace hbelow hn hs
                      · repeat' split
                        all_goals first | exact keepsPace_pure hs _ | contradiction

/-! ## Bodies -/

/-- Both ways down agree on schemas that need less than `bound`. -/
def AgreesBelow (m : Mapper) (texts : List String) (bound : Nat)
    (descend descend' : List String → Node → Except Fault TypeExpr) : Prop :=
  ∀ following n, m.need texts following n < bound → Covered texts n →
    Agree (descend following n) (descend' following n)

section Bodies

variable {down down' : List String → Node → Except Fault TypeExpr}

theorem bodyTarget_agree {target : Node}
    (h : AgreesBelow m texts (m.need texts following n) down down') (hpointer : pointer ∈ texts)
    (ht : Within m.resolver.document.top target) (hcovered : Covered texts target) :
    Agree (do
        if ← Schema.isStringEnum target then
          return .named (Naming.enumName (Pointer.name pointer))
        if !(← Schema.isModel target) then
          if following.contains pointer then return .any
          return ← down (pointer :: following) target
        if Pointer.isComponent pointer then
          return .named (m.names.classOf (Pointer.name pointer))
        return .any)
      (do
        if ← Schema.isStringEnum target then
          return .named (Naming.enumName (Pointer.name pointer))
        if !(← Schema.isModel target) then
          if following.contains pointer then return .any
          return ← down' (pointer :: following) target
        if Pointer.isComponent pointer then
          return .named (m.names.classOf (Pointer.name pointer))
        return .any) := by
  refine (Schema.concludes_isStringEnum hcovered.plain).agree_bind fun isEnum _ => ?_
  refine Agree.ite (fun _ => agree_pure _) (fun _ => ?_)
  refine (Schema.concludes_isModel hcovered.plain).agree_bind fun isModel _ => ?_
  refine Agree.ite (fun _ => ?_) (fun _ => ?_)
  · refine Agree.ite (fun _ => agree_pure _) (fun hnew => ?_)
    exact h _ _ (need_target hpointer (by simpa using hnew) ht) hcovered
  · exact Agree.ite (fun _ => agree_pure _) (fun _ => agree_pure _)

theorem bodyItems_agree (h : AgreesBelow m texts (m.need texts following n) down down')
    (hn : Covered texts n) :
    Agree (do
        let items ← n.get "items"
        if !(← items.isObject) then return TypeExpr.list .any
        if ← Schema.isInlineObject items then return .list .any
        return .list (← down following items))
      (do
        let items ← n.get "items"
        if !(← items.isObject) then return .list .any
        if ← Schema.isInlineObject items then return .list .any
        return .list (← down' following items)) := by
  refine (hn.plain.concludes_get _).agree_bind fun items hitems => ?_
  have hplain : items.Plain := closed_plain.get hn.plain hitems
  refine hplain.concludes_isObject.agree_bind fun isObject hobject => ?_
  refine Agree.ite (fun _ => agree_pure _) (fun hnot => ?_)
  have hthere : items.isObject = .ok true := by simpa [hobject] using hnot
  have hinner : Inner n items := hn.plain.inner_of_get hitems (isAbsent_of_isObject hthere)
  refine (Schema.concludes_isInlineObject hplain).agree_bind fun inPlace _ => ?_
  refine Agree.ite (fun _ => agree_pure _) (fun _ => ?_)
  exact (h _ _ (need_inner hinner) (hn.inner hinner)).bind fun item => agree_pure _

end Bodies

/-- With fuel that is enough, the type of a body is found, the same with any other fuel that is
enough. -/
theorem bodyWithin_agree (hr : Covered texts m.resolver.document.top) {k l : Nat}
    (hk : m.need texts following n ≤ k) (hl : m.need texts following n ≤ l)
    (hn : Covered texts n) :
    Agree (m.bodyWithin k following n) (m.bodyWithin l following n) := by
  have hpos := m.need_pos texts following n
  induction k generalizing l following n with
  | zero => omega
  | succ k ih =>
      cases l with
      | zero => omega
      | succ l =>
          have hbelow : AgreesBelow m texts (m.need texts following n) (m.bodyWithin k)
              (m.bodyWithin l) :=
            fun following b hneed hb => ih (by omega) (by omega) hb (m.need_pos _ _ _)
          refine hn.plain.concludes_isObject.agree_bind fun isObject _ => ?_
          refine Agree.ite (fun _ => agree_pure _) (fun _ => ?_)
          refine hn.plain.concludes_pointer?.agree_bind fun pointer? hpointer => ?_
          cases pointer? with
          | some pointer =>
              refine (m.resolver.concludes_locate pointer).agree_bind fun target? htarget => ?_
              cases target? with
              | none => exact agree_pure _
              | some target =>
                  have ht : Within m.resolver.document.top target := Node.within_locate htarget
                  have hmem := hn.texts (hn.plain.pointer_mem_texts hpointer)
                  exact bodyTarget_agree hbelow hmem ht (hr.within ht)
          | none =>
              refine (Schema.concludes_typeOf hn.plain).agree_bind fun type _ => ?_
              refine Agree.ite (fun _ => bodyItems_agree hbelow hn) (fun _ => ?_)
              refine ⟨?_, rfl⟩
              split
              · exact concludes_pure _
              · exact concludes_throw (by decide)
              · exact concludes_throw (by decide)
              · exact concludes_pure _

end Descents

/-! ## Enough fuel -/

/-- The depth of mapping is enough, whatever is being followed. -/
theorem need_le_depth (m : Mapper) (schema : Node) (following : List String) :
    m.need (m.resolver.document.root.texts ++ schema.value.texts) following schema ≤
      m.depth schema := by
  have hroot := m.resolver.document.root.length_texts_le
  have hschema := schema.value.length_texts_le
  have hunfollowed := length_unfollowed_le (m.resolver.document.root.texts ++ schema.value.texts)
    following
  rw [List.length_append] at hunfollowed
  unfold need depth
  dsimp only
  generalize m.resolver.document.root.size = root at *
  generalize schema.value.size = own at *
  generalize (unfollowed _ following).length = left at *
  calc left * (root + 1) + own
      ≤ (root + own) * (root + 1) + (root + own) := by
        have := Nat.mul_le_mul_right (root + 1) (show left ≤ root + own by omega)
        omega
    _ = (root + own) * (root + 2) := (Nat.mul_succ _ _).symm
    _ ≤ _ := Nat.mul_le_mul (by omega) (by omega)

theorem concludes_mapBody {m : Mapper} {n : Node} (hr : m.resolver.document.linked = false)
    (hn : n.Plain) : Concludes (m.mapBody n) := by
  have hdepth := m.need_le_depth n []
  refine (bodyWithin_agree ⟨hr, ?_⟩ hdepth hdepth ⟨hn, ?_⟩).1
  · exact List.subset_append_left _ _
  · exact List.subset_append_right _ _

/-- A document in which lists of twigs are twigs again. -/
def wreath : Document where
  tag := 0
  root := .obj [("components", .obj [("schemas", .obj [
    ("Wreath", .obj [("type", .str "array"),
      ("items", .obj [("$ref", .str "#/components/schemas/Twig")])]),
    ("Twig", .obj [("oneOf", .arr [.obj [("$ref", .str "#/components/schemas/Wreath")],
      .obj [("type", .str "string")]])])])])]
  linked := false

/-- The nodes of `wreath`, by their trails. -/
def wreathNode (trail : List Step) : Node :=
  ⟨wreath, trail, (wreath.valueAt? trail).getD .null⟩

/-- The mapper of `wreath`. -/
def wreathMapper : Mapper where
  components := wreathNode [.key "schemas", .key "components"]
  resolver := ⟨wreath, none⟩
  names := ⟨[("Wreath", "WreathDto"), ("Twig", "TwigDto")]⟩

/-- The reference to `Wreath` among the variants of `Twig`. -/
def wreathLink : Node :=
  wreathNode [.index 0, .key "oneOf", .key "Twig", .key "schemas", .key "components"]

/-- A property of gates. -/
def gateWreath : MappingContext := { model := "GateDto", base := "Gate", property := "wreath" }

end Mapper

end ApiScaffold
