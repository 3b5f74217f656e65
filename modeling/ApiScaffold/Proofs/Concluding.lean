import ApiScaffold.Proofs.Claiming
import ApiScaffold.Proofs.Pointers

set_option autoImplicit false

/-! # Work that comes to an end

Work concludes when it gives a value, or fails otherwise than by going down for ever. A sequence of
steps concludes when each of its steps does. Looking into a document that is not linked always
concludes, and so does everything that is found out about one schema: its type, its kind, what a
simple schema is written as, and the named schema that it looks like. -/

namespace ApiScaffold

variable {α β : Type}

/-- Work comes to an end, with a value or with a fault. -/
def Concludes (e : Except Fault α) : Prop := e ≠ .error .endless

instance (e : Except Fault α) : Decidable (Concludes e) :=
  match e with
  | .ok _ => isTrue nofun
  | .error fault => decidable_of_iff (fault ≠ .endless)
      ⟨fun h heq => h (Except.error.inj heq), fun h heq => h (congrArg Except.error heq)⟩

theorem concludes_ok (a : α) : Concludes (.ok a) := fun h => nomatch h

theorem concludes_pure (a : α) : Concludes (pure a) := concludes_ok a

theorem concludes_error {fault : Fault} (h : fault ≠ .endless) :
    Concludes (.error fault : Except Fault α) :=
  fun heq => h (Except.error.inj heq)

theorem concludes_throw {fault : Fault} (h : fault ≠ .endless) :
    Concludes (throw fault : Except Fault α) :=
  concludes_error h

theorem Concludes.bind {e : Except Fault α} {f : α → Except Fault β} (h : Concludes e)
    (hf : ∀ a, e = .ok a → Concludes (f a)) : Concludes (e >>= f) := by
  cases e with
  | error fault => exact fun heq => h (by cases heq; rfl)
  | ok a => exact hf a rfl

/-- What never ends does not end in a step after one that concludes. -/
theorem Concludes.bind_eq_endless {e : Except Fault α} {f : α → Except Fault β} (he : Concludes e)
    (h : (e >>= f) = .error .endless) : ∃ a, e = .ok a ∧ f a = .error .endless :=
  (bind_eq_error.mp h).resolve_left he

theorem Concludes.map {e : Except Fault α} (h : Concludes e) (f : α → β) :
    Concludes (e.map f) := by
  cases e with
  | error fault => exact fun heq => h (by cases heq; rfl)
  | ok a => exact concludes_ok _

theorem concludes_mapM {f : α → Except Fault β} {xs : List α} (h : ∀ x ∈ xs, Concludes (f x)) :
    Concludes (xs.mapM f) := by
  intro heq
  obtain ⟨before, x, after, rfl, -, hx⟩ := mapM_eq_error.mp heq
  exact h x (List.mem_append_right _ List.mem_cons_self) hx

theorem concludes_filterMapM {f : α → Except Fault (Option β)} {xs : List α}
    (h : ∀ x ∈ xs, Concludes (f x)) : Concludes (xs.filterMapM f) := by
  induction xs with
  | nil => exact concludes_pure _
  | cons x xs ih =>
      rw [List.filterMapM_cons]
      have hlater := ih fun x hx => h x (List.mem_cons_of_mem _ hx)
      refine (h x List.mem_cons_self).bind fun b? _ => ?_
      cases b? with
      | none => exact hlater
      | some b => exact hlater.bind fun bs _ => concludes_pure _

theorem concludes_filterM {f : α → Except Fault Bool} {xs : List α}
    (h : ∀ x ∈ xs, Concludes (f x)) : Concludes (xs.filterM f) := by
  have hkept : ∀ kept, Concludes (xs.filterAuxM f kept) := by
    induction xs with
    | nil => exact fun kept => concludes_pure _
    | cons x xs ih =>
        intro kept
        refine (h x List.mem_cons_self).bind fun holds _ => ?_
        exact ih (fun x hx => h x (List.mem_cons_of_mem _ hx)) _
  exact (hkept []).bind fun kept _ => concludes_pure _

theorem concludes_foldlM {f : β → α → Except Fault β} {xs : List α}
    (h : ∀ b, ∀ x ∈ xs, Concludes (f b x)) {b : β} : Concludes (xs.foldlM f b) := by
  induction xs generalizing b with
  | nil => exact concludes_pure _
  | cons x xs ih =>
      rw [List.foldlM_cons]
      refine (h b x List.mem_cons_self).bind fun b' _ => ?_
      exact ih fun b x hx => h b x (List.mem_cons_of_mem _ hx)

/-- Two ways to a value from which the same steps go on. -/
theorem Concludes.ite_bind {c : Prop} [Decidable c] {x y : Except Fault α}
    {f : α → Except Fault β} (hx : c → Concludes x) (hy : ¬ c → Concludes y)
    (hf : ∀ a, (if c then x else y) = .ok a → Concludes (f a)) :
    Concludes (if c then x >>= f else y >>= f) := by
  split
  · next h => exact (hx h).bind fun a ha => hf a (by rw [if_pos h, ha])
  · next h => exact (hy h).bind fun a ha => hf a (by rw [if_neg h, ha])

/-! ## Steps with a state -/

section States

variable {σ : Type} {Q : σ → Prop} {s : σ}

/-- From a state, a step comes to an end, in a state of some kind. -/
def ConcludesFrom (Q : σ → Prop) (x : ExceptT Fault (StateM σ) α) (s : σ) : Prop :=
  Concludes (x.run.run s).1 ∧ Q (x.run.run s).2

theorem concludesFrom_pure (hs : Q s) (a : α) :
    ConcludesFrom Q (pure a : ExceptT Fault (StateM σ) α) s :=
  ⟨concludes_ok a, hs⟩

theorem concludesFrom_lift {e : Except Fault α} (he : Concludes e) (hs : Q s) :
    ConcludesFrom Q (liftM e : ExceptT Fault (StateM σ) α) s := by
  cases e with
  | error fault => exact ⟨he, hs⟩
  | ok a => exact ⟨he, hs⟩

theorem ConcludesFrom.bind {x : ExceptT Fault (StateM σ) α} {f : α → ExceptT Fault (StateM σ) β}
    (hx : ConcludesFrom Q x s) (hf : ∀ a t, Yields x s a t → Q t → ConcludesFrom Q (f a) t) :
    ConcludesFrom Q (x >>= f) s := by
  obtain ⟨houtcome, hstate⟩ := hx
  unfold ConcludesFrom
  rw [ExceptT.run_bind, StateT.run_bind]
  rcases hrun : x.run.run s with ⟨outcome, t⟩
  rw [hrun] at houtcome hstate
  cases outcome with
  | error fault => exact ⟨fun heq => houtcome (by cases heq; rfl), hstate⟩
  | ok a => exact hf a t hrun hstate

theorem concludesFrom_lift_bind {e : Except Fault α} {f : α → ExceptT Fault (StateM σ) β}
    (he : Concludes e) (hs : Q s) (hf : ∀ a, e = .ok a → ConcludesFrom Q (f a) s) :
    ConcludesFrom Q (liftM e >>= f) s := by
  refine (concludesFrom_lift he hs).bind fun a t ha _ => ?_
  obtain ⟨heq, rfl⟩ := yields_lift.mp ha
  exact hf a heq

theorem concludesFrom_mapM {f : α → ExceptT Fault (StateM σ) β} {xs : List α}
    (h : ∀ x ∈ xs, ∀ s, Q s → ConcludesFrom Q (f x) s) (hs : Q s) :
    ConcludesFrom Q (xs.mapM f) s := by
  induction xs generalizing s with
  | nil => exact concludesFrom_pure hs _
  | cons x xs ih =>
      rw [List.mapM_cons]
      refine (h x List.mem_cons_self s hs).bind fun b t _ ht => ?_
      refine (ih (fun x hx => h x (List.mem_cons_of_mem _ hx)) ht).bind fun bs u _ hu => ?_
      exact concludesFrom_pure hu _

/-- Before steps that conclude, only the first one can fail to. -/
theorem endless_lift_bind_iff {e : Except Fault α} {f : α → ExceptT Fault (StateM σ) β}
    (hf : ∀ a, e = .ok a → ConcludesFrom Q (f a) s) :
    ((liftM e >>= f).run.run s).1 = .error .endless ↔ e = .error .endless := by
  cases e with
  | error fault =>
      refine ⟨fun h => ?_, fun h => ?_⟩
      · cases h
        rfl
      · cases h
        rfl
  | ok a => exact ⟨fun h => absurd h (hf a rfl).1, nofun⟩

theorem concludesFrom_modify {f : σ → σ} (hs : Q (f s)) :
    ConcludesFrom Q (modify f : ExceptT Fault (StateM σ) PUnit) s :=
  ⟨concludes_ok _, hs⟩

theorem concludesFrom_get_bind {f : σ → ExceptT Fault (StateM σ) β}
    (hf : ConcludesFrom Q (f s) s) : ConcludesFrom Q (get >>= f) s := hf

theorem concludesFrom_modify_bind {f : σ → σ} {g : PUnit → ExceptT Fault (StateM σ) β}
    (hg : ConcludesFrom Q (g ⟨⟩) (f s)) : ConcludesFrom Q (modify f >>= g) s := hg

end States

/-! ## Looking into a node -/

namespace Node

/-- A node of a document that is not linked. -/
def Plain (n : Node) : Prop := n.document.linked = false

theorem closed_plain : Closed Plain where
  top h := h
  field _ h _ := h
  listed h _ _ _ := h
  item h _ _ := h
  char h _ _ := h
  name h _ _ := h

variable {n : Node}

theorem Plain.concludes_settle_bind (h : n.Plain) {f : Node → Except Fault α}
    (hf : Concludes (f n)) : Concludes (n.settle >>= f) := by
  rwa [ok_bind (settle_of_plain h)]

theorem Plain.concludes_opened (h : n.Plain) : Concludes n.opened := by
  rw [opened, settle_of_plain h]
  exact concludes_ok _

theorem Plain.concludes_truthy (h : n.Plain) : Concludes n.truthy := h.concludes_opened.map _

theorem Plain.concludes_isObject (h : n.Plain) : Concludes n.isObject := by
  refine h.concludes_settle_bind ?_
  split
  · exact concludes_pure _
  · exact concludes_pure _

theorem Plain.concludes_get (h : n.Plain) (key : String) : Concludes (n.get key) := by
  refine h.concludes_settle_bind ?_
  split
  · exact concludes_pure _
  · exact concludes_throw (by decide)

/-- All fields of an object are there to be read. -/
theorem Plain.exists_get (h : n.Plain) {key : String} {b : Node} (hb : n.get key = .ok b)
    (other : String) : ∃ b, n.get other = .ok b := by
  obtain ⟨fields, hfields, -⟩ := get_of_plain h hb
  rw [get, ok_bind (settle_of_plain h), hfields]
  exact ⟨_, rfl⟩

theorem Plain.concludes_has (h : n.Plain) (key : String) : Concludes (n.has key) := by
  refine h.concludes_settle_bind ?_
  split
  · exact concludes_pure _
  · exact concludes_throw (by decide)

theorem Plain.concludes_fields (h : n.Plain) : Concludes n.fields := by
  refine h.concludes_settle_bind ?_
  split
  · exact concludes_pure _
  · exact concludes_throw (by decide)

theorem Plain.concludes_entries (h : n.Plain) : Concludes n.entries := by
  refine h.concludes_settle_bind ?_
  split
  · exact concludes_pure _
  · exact concludes_pure _
  · exact concludes_pure _
  · exact concludes_throw (by decide)

theorem Plain.concludes_entriesIfAny (h : n.Plain) : Concludes n.entriesIfAny := by
  refine h.concludes_truthy.bind fun truthy _ => ?_
  split
  · exact h.concludes_entries
  · exact concludes_pure _

theorem Plain.concludes_fieldsIfAny (h : n.Plain) : Concludes n.fieldsIfAny := by
  refine h.concludes_truthy.bind fun truthy _ => ?_
  split
  · exact h.concludes_fields
  · exact concludes_pure _

theorem Plain.concludes_members (h : n.Plain) : Concludes n.members := by
  refine h.concludes_entries.bind fun entries hentries => concludes_mapM fun entry hentry => ?_
  have hplain : entry.Plain := closed_plain.entries h hentries entry hentry
  refine hplain.concludes_opened.bind fun value _ => ?_
  split
  · exact concludes_pure _
  · exact concludes_throw (by decide)

theorem Plain.concludes_excerpt (h : n.Plain) : Concludes n.excerpt := by
  rw [excerpt_of_plain h]
  exact concludes_ok _

theorem Plain.concludes_excerpts (h : n.Plain) {entries : List Node}
    (hentries : n.entries = .ok entries) : Concludes (entries.mapM Node.excerpt) :=
  concludes_mapM fun entry hentry =>
    Plain.concludes_excerpt (closed_plain.entries h hentries entry hentry)

theorem Plain.concludes_pointer? (h : n.Plain) : Concludes n.pointer? := by
  refine h.concludes_isObject.bind fun isObject _ => ?_
  split
  · refine (h.concludes_get _).bind fun ref href => ?_
    refine (Plain.concludes_opened (closed_plain.get h href)).bind fun value _ => ?_
    split
    · exact concludes_pure _
    · exact concludes_pure _
  · exact concludes_pure _

theorem Plain.concludes_isReference (h : n.Plain) : Concludes n.isReference :=
  h.concludes_pointer?.map _

theorem concludes_pointed (n : Node) (segment : String) : Concludes (n.pointed segment) := by
  unfold pointed
  split
  · split
    · exact concludes_ok _
    · split
      · exact concludes_error (by decide)
      · exact concludes_ok _
  · exact concludes_ok _
  · exact concludes_ok _

theorem concludes_descend (n : Node) (segments : List String) :
    Concludes (n.descend segments) := by
  induction segments generalizing n with
  | nil => exact concludes_ok _
  | cons segment segments ih =>
      rw [descend]
      refine (concludes_pointed n segment).bind fun next? _ => ?_
      split
      · exact ih _
      · exact concludes_pure _

end Node

open Node (Plain closed_plain)

variable {n : Node}

theorem Resolver.concludes_locate (r : Resolver) (pointer : String) :
    Concludes (r.locate pointer) := by
  unfold locate
  split
  · exact Node.concludes_descend _ _
  · exact concludes_ok _

theorem Resolver.concludes_find (r : Resolver) (pointer : String) :
    Concludes (r.find pointer) :=
  (r.concludes_locate pointer).map _

/-! ## Kinds of schemas -/

theorem Mapper.plain_components {m : Mapper} {document : Document} {spec : Option String}
    (hplain : document.linked = false) (h : Mapper.ofDocument document spec = .ok m) :
    m.components.Plain := by
  obtain ⟨parts, schemas, hparts, hschemas, hlast⟩ :=
    Schema.components_eq_ok (Mapper.ofDocument_eq_ok h).1
  have htop : document.top.Plain := hplain
  have hin : parts.Plain := closed_plain.get htop hparts
  have hlisted : schemas.Plain := by
    rcases hschemas with ⟨-, hget⟩ | ⟨-, rfl⟩
    · exact closed_plain.get hin hget
    · exact hin
  rcases hlast with ⟨-, heq⟩ | ⟨-, heq⟩
  · exact heq ▸ hlisted
  · exact heq ▸ hlisted

namespace Schema

theorem concludes_firstType {types : List Node} (h : ∀ n ∈ types, n.Plain) :
    Concludes (firstType types) := by
  induction types with
  | nil => exact concludes_ok _
  | cons type types ih =>
      rw [firstType]
      refine (Plain.concludes_opened (h type List.mem_cons_self)).bind fun value _ => ?_
      split
      · exact ih fun n hn => h n (List.mem_cons_of_mem _ hn)
      · exact concludes_pure _

theorem concludes_typeOf (h : n.Plain) : Concludes (typeOf n) := by
  refine h.concludes_isObject.bind fun isObject _ => ?_
  split
  · refine (h.concludes_get _).bind fun type htype => ?_
    have hplain : type.Plain := closed_plain.get h htype
    refine hplain.concludes_settle_bind ?_
    split
    · next items hitems =>
        exact concludes_firstType (closed_plain.itemNodes hplain hitems)
    · exact concludes_pure _
  · exact concludes_pure _

theorem concludes_isInlineObject (h : n.Plain) : Concludes (isInlineObject n) := by
  refine h.concludes_isObject.bind fun isObject _ => ?_
  split
  · exact concludes_pure _
  refine h.concludes_isReference.bind fun isReference _ => ?_
  split
  · exact concludes_pure _
  refine (h.concludes_get _).bind fun properties hproperties => ?_
  refine (Plain.concludes_truthy (closed_plain.get h hproperties)).bind fun truthy _ => ?_
  split
  · exact concludes_pure _
  exact (concludes_typeOf h).bind fun type _ => concludes_pure _

theorem concludes_isStringEnum (h : n.Plain) : Concludes (isStringEnum n) := by
  refine (concludes_typeOf h).bind fun type _ => ?_
  split
  · refine (h.concludes_get _).bind fun values hvalues => ?_
    exact Plain.concludes_truthy (closed_plain.get h hvalues)
  · exact concludes_pure _

theorem concludes_isModel (h : n.Plain) : Concludes (isModel n) := by
  refine h.concludes_isObject.bind fun isObject _ => ?_
  split
  · exact concludes_pure _
  refine h.concludes_isReference.bind fun isReference _ => ?_
  split
  · exact concludes_pure _
  refine (concludes_typeOf h).bind fun type _ => ?_
  split
  · exact concludes_pure _
  refine (h.concludes_has _).bind fun hasProperties _ => ?_
  split
  · exact concludes_pure _
  · exact h.concludes_has _

end Schema

/-! ## Mapping one schema -/

namespace Mapper

theorem concludes_onlyMember? (h : n.Plain) : Concludes (onlyMember? n) := by
  refine (h.concludes_get _).bind fun allOf hallOf => ?_
  refine Plain.concludes_settle_bind (closed_plain.get h hallOf) ?_
  split
  · exact concludes_pure _
  · exact concludes_pure _

theorem concludes_variants (h : n.Plain) : Concludes (variants n) := by
  refine (h.concludes_get _).bind fun oneOf honeOf => ?_
  have hplain : oneOf.Plain := closed_plain.get h honeOf
  refine hplain.concludes_truthy.bind fun truthy _ => ?_
  split
  · refine hplain.concludes_settle_bind ?_
    split
    · exact concludes_pure _
    · exact concludes_pure _
  · refine (h.concludes_get _).bind fun anyOf hanyOf => ?_
    refine Plain.concludes_settle_bind (closed_plain.get h hanyOf) ?_
    split
    · exact concludes_pure _
    · exact concludes_pure _

theorem concludes_bound (h : n.Plain) (field : String) (kind : ConstraintKind) :
    Concludes (bound n field kind) := by
  refine (h.concludes_get _).bind fun value hvalue => ?_
  split
  · exact concludes_pure _
  · refine (Plain.concludes_excerpt (closed_plain.get h hvalue)).bind fun excerpt _ => ?_
    exact concludes_pure _

/-- What a text is bound by, after its constraints so far. -/
theorem concludes_text (h : n.Plain) (email enum : List Constraint) (enumValues : List Excerpt) :
    Concludes (do
      let minLength ← bound n "minLength" .minLength
      let maxLength ← bound n "maxLength" .maxLength
      let pattern ← n.get "pattern"
      let patterns ← if ← pattern.truthy then bound n "pattern" .pattern else pure []
      return ({ type := .named "string"
                constraints := [{ kind := .string }] ++ email ++ enum ++ minLength ++ maxLength ++
                  patterns
                enumValues } : MappedType)) := by
  refine (concludes_bound h _ _).bind fun minLength _ => ?_
  refine (concludes_bound h _ _).bind fun maxLength _ => ?_
  refine (h.concludes_get _).bind fun pattern hpattern => ?_
  refine (Plain.concludes_truthy (closed_plain.get h hpattern)).bind fun present _ => ?_
  exact .ite_bind (fun _ => concludes_bound h _ _) (fun _ => concludes_pure _)
    fun patterns _ => concludes_pure _

theorem concludes_mapString (h : n.Plain) (ctx : MappingContext) : Concludes (mapString n ctx) := by
  refine (h.concludes_get _).bind fun format hformat => ?_
  refine (Plain.concludes_opened (closed_plain.get h hformat)).bind fun form _ => ?_
  refine .ite_bind (fun _ => concludes_pure _) (fun _ => concludes_pure _) fun email _ => ?_
  refine (h.concludes_get _).bind fun values hvalues => ?_
  have hlist : values.Plain := closed_plain.get h hvalues
  refine hlist.concludes_truthy.bind fun truthy _ => ?_
  dsimp only
  split
  · refine hlist.concludes_entries.bind fun entries hentries => ?_
    exact (hlist.concludes_excerpts hentries).bind fun excerpts _ => concludes_text h _ _ _
  · exact concludes_text h _ _ _

theorem concludes_mapNumber (h : n.Plain) (isInteger : Bool) :
    Concludes (mapNumber n isInteger) := by
  refine (concludes_bound h _ _).bind fun minimum _ => ?_
  exact (concludes_bound h _ _).bind fun maximum _ => concludes_pure _

theorem concludes_firstMatch {names : List Json} {named : List (String × Node)}
    (h : ∀ f ∈ named, f.2.Plain) : Concludes (firstMatch n names named) := by
  induction named with
  | nil => exact concludes_ok _
  | cons f named ih =>
      obtain ⟨name, component⟩ := f
      have hplain : component.Plain := h _ List.mem_cons_self
      have hlater := ih fun f hf => h f (List.mem_cons_of_mem _ hf)
      rw [firstMatch]
      refine hplain.concludes_isObject.bind fun isObject _ => ?_
      split
      · exact hlater
      refine (hplain.concludes_get _).bind fun properties hproperties => ?_
      have hin : properties.Plain := closed_plain.get hplain hproperties
      refine hin.concludes_truthy.bind fun truthy _ => ?_
      refine .ite_bind (fun _ => hin.concludes_members) (fun _ => concludes_pure _)
        fun found _ => ?_
      dsimp only
      split
      · exact concludes_pure _
      · exact hlater

theorem concludes_structuralMatch {m : Mapper} (hm : m.components.Plain) (h : n.Plain) :
    Concludes (m.structuralMatch n) := by
  refine (h.concludes_get _).bind fun properties hproperties => ?_
  have hin : properties.Plain := closed_plain.get h hproperties
  refine hin.concludes_truthy.bind fun truthy _ => ?_
  refine .ite_bind (fun _ => hin.concludes_members) (fun _ => concludes_pure _) fun names _ => ?_
  dsimp only
  split
  · exact concludes_pure _
  · exact hm.concludes_fields.bind fun named hnamed =>
      concludes_firstMatch (closed_plain.fields hm hnamed)

end Mapper

/-! ## Claiming names -/

theorem Node.Plain.readable (h : n.Plain) : Readable n := by
  refine ⟨n.value, ?_⟩
  rw [Node.unfolded, if_neg (by simp [show n.document.linked = false from h])]

namespace Registry

open ModelCompiler (SchemasIn)

variable {r r' : Registry} {base name source : String}

theorem sameSchema_total {known : Option Node} (hknown : ∀ b, known = some b → Readable b)
    (hn : Readable n) : ∃ v, sameSchema known n = .ok v := by
  unfold sameSchema
  split
  · exact ⟨_, rfl⟩
  · next left =>
      split
      · exact ⟨_, rfl⟩
      · split
        · exact ⟨_, rfl⟩
        · obtain ⟨v, hv, -⟩ := equal_decides (hknown left rfl) hn
          exact ⟨v, hv⟩

/-- A schema that stands for a finite value gets a name among schemas that do. -/
theorem concludes_claim (hr : SchemasIn Readable r) (hn : Readable n) (base source : String) :
    Concludes (r.claim base n source) := by
  obtain ⟨name, hname⟩ :=
    freeName_total (fun e he => sameSchema_total (hr e he) hn) base r.size 1
  rw [claim, ok_bind hname]
  exact concludes_pure _

theorem claim_schemasIn {P : Node → Prop} (hr : SchemasIn P r) (hn : P n)
    (h : r.claim base n source = .ok (name, r')) : SchemasIn P r' := by
  obtain ⟨rfl, -⟩ := claim_spec h
  refine hr.register fun known hknown => ?_
  rw [schema_claimed hknown]
  exact hn

end Registry

end ApiScaffold
