import ApiScaffold.Proofs.ClassNames
import ApiScaffold.Proofs.Operations

set_option autoImplicit false

/-! # The names that responses claim

Responses in place claim names for their schemas. A name that is the name of the class of a named
schema is claimed for that schema only; every other name claimed is handed on with its schema, once
(`Kept`). -/

namespace ApiScaffold

/-! ## Registering one model after the other -/

namespace Registry

variable {α : Type} {g : α → Entry} {xs : List α} {r : Registry} {e : Entry} {name : String}

theorem mem_names_foldl_register :
    name ∈ (xs.foldl (fun r x => r.register (g x)) r).names ↔
      name ∈ r.names ∨ ∃ x ∈ xs, name = (g x).name := by
  induction xs generalizing r with
  | nil => simp
  | cons x xs ih =>
      rw [List.foldl_cons, ih, mem_names_register]
      simp [or_assoc]

theorem mem_entries_foldl_register
    (h : e ∈ (xs.foldl (fun r x => r.register (g x)) r).entries) :
    e ∈ r.entries ∨ ∃ x ∈ xs, e = g x := by
  induction xs generalizing r with
  | nil => exact Or.inl h
  | cons x xs ih =>
      rcases ih h with h | ⟨x', hx', rfl⟩
      · rcases Mapper.mem_entries_register h with h | ⟨rfl, -⟩
        · exact Or.inl h
        · exact Or.inr ⟨x, List.mem_cons_self, rfl⟩
      · exact Or.inr ⟨x', List.mem_cons_of_mem _ hx', rfl⟩

theorem exists_mem_entries (h : name ∈ r.names) : ∃ e ∈ r.entries, e.name = name := by
  simpa [names] using h

end Registry

/-! ## Claims -/

namespace EndpointCompiler

variable {c : EndpointCompiler} {resolved written : Document} {includeErrors synthesize : Bool}
  {spec : Option String} {s t : EndpointState} {schema : Node} {name : String}

/-- The model that a named schema has in the arena. -/
def arenaEntry (c : EndpointCompiler) (f : String × Node) : Entry where
  name := c.mapper.names.classOf f.1
  schema := if f.2.isAbsent then none else some f.2
  pointer := some (Pointer.toSchema f.1)

/-- A compiler of endpoints has the mapper of the document as it was written, and its arena has the
named schemas. -/
structure MadeFor (c : EndpointCompiler) (resolved written : Document) (synthesize : Bool)
    (spec : Option String) (named : List (String × Node)) : Prop where
  mapper : Mapper.ofDocument written spec = .ok c.mapper
  fields : c.mapper.components.fields = .ok named
  resolved : c.resolved = resolved
  written : c.written = written
  synthesize : c.synthesize = synthesize
  arena : c.arena = named.foldl (fun r f => r.register (c.arenaEntry f)) {}

theorem ofDocuments_eq_ok
    (h : ofDocuments resolved written includeErrors synthesize spec = .ok c) :
    ∃ named, MadeFor c resolved written synthesize spec named := by
  obtain ⟨mapper, hmapper, h⟩ := bind_eq_ok.mp h
  obtain ⟨fields, hfields, h⟩ := bind_eq_ok.mp h
  obtain rfl := pure_eq_ok.mp h
  exact ⟨fields, hmapper, hfields, rfl, rfl, rfl, rfl⟩

variable {named : List (String × Node)}

theorem MadeFor.mem_arena_names (h : MadeFor c resolved written synthesize spec named) :
    name ∈ c.arena.names ↔ ∃ f ∈ named, name = c.mapper.names.classOf f.1 := by
  rw [h.arena, Registry.mem_names_foldl_register]
  simp [Registry.names, Registry.entries, arenaEntry]

/-- The names of the arena are those of the classes of named schemas. -/
theorem MadeFor.isSome_schemaOf? (h : MadeFor c resolved written synthesize spec named) :
    (c.mapper.names.schemaOf? name).isSome = true ↔ name ∈ c.arena.names := by
  have husual := Mapper.usual_of_ofDocument h.mapper h.fields
  rw [husual.isSome_schemaOf?, h.mem_arena_names]
  simp [husual.classOf]

/-- What stays while names are claimed: the names of the arena are those of named schemas and those
of the models to hand on, which are handed on once, with the schema that the arena has. -/
structure Kept (c : EndpointCompiler) (s : EndpointState) : Prop where
  extends_ : Registry.Extends c.arena s.arena
  nodup : (s.responseModels.map (·.1)).Nodup
  names : ∀ name ∈ s.arena.names, name ∈ c.arena.names ∨ name ∈ s.responseModels.map (·.1)
  models : ∀ p ∈ s.responseModels, p.1 ∉ c.arena.names ∧
    (∃ e, s.arena.find? p.1 = some e ∧ e.schema = some p.2) ∧ c.Answerable p.2 ∧
    isInlineResponse p.2 = .ok true
  named : ∀ p ∈ s.responseModels, ∃ operation status k, c.Answers operation status ∧
    p.1 = Registry.candidate (responseBase operation status) k

theorem start_kept : Kept c c.start where
  extends_ := Registry.Extends.refl _
  nodup := List.nodup_nil
  names _ h := Or.inl h
  models _ h := absurd h List.not_mem_nil
  named _ h := absurd h List.not_mem_nil

/-- A response claims a new name, which is handed on, or one that has its schema. -/
theorem Kept.claimResponse (hc : MadeFor c resolved written synthesize spec named)
    (h : Kept c s) {base : String} (hclaim : Yields (c.claimResponse base schema) s name t) :
    (name ∉ s.arena.names ∧
      t = { responseModels := s.responseModels ++ [(name, schema)],
            arena := s.arena.register (Registry.claimed name schema "response") }) ∨
      t = s ∧ ∃ e, s.arena.find? name = some e ∧
        Registry.sameSchema e.schema schema = .ok true := by
  obtain ⟨arena, hnamed, rfl⟩ := yields_claimResponse hclaim
  obtain ⟨rfl, hfits, -⟩ := Registry.claim_spec hnamed
  rcases hfits with hfree | ⟨e, he, hsame⟩
  · left
    refine ⟨hfree, if_pos ?_⟩
    -- a name that is free in the arena belongs to no named schema, and was not handed on before
    have hnone : c.mapper.names.schemaOf? name = none := by
      rw [← Option.not_isSome_iff_eq_none, hc.isSome_schemaOf?]
      exact fun hnamed => hfree (h.extends_.mem hnamed)
    have hnew : ∀ p ∈ s.responseModels, p.1 ≠ name := by
      rintro p hp rfl
      obtain ⟨-, ⟨e, he, -⟩, -⟩ := h.models p hp
      exact hfree (Registry.mem_names_of_find? he)
    simpa using ⟨hnone, fun a b hab => hnew (a, b) hab⟩
  · right
    have hmem : name ∈ s.arena.names := Registry.mem_names_of_find? he
    refine ⟨?_, e, he, hsame⟩
    rw [Registry.register_of_mem hmem]
    refine if_neg ?_
    -- a name that the arena has belongs to a named schema or was handed on, so nothing is added
    rcases h.names name hmem with hnamed | hhanded
    · have hsome := hc.isSome_schemaOf?.mpr hnamed
      rw [Option.isSome_iff_ne_none] at hsome
      simp [hsome]
    · simpa using fun _ => hhanded

theorem not_isAbsent_of_inline (h : isInlineResponse schema = .ok true) :
    schema.isAbsent = false :=
  Mapper.isAbsent_of_isObject (describesObject_of_inline h).object

theorem Kept.claimsOne (hc : MadeFor c resolved written synthesize spec named) (h : Kept c s)
    (hone : c.ClaimsOne s t) : Kept c t ∧ Registry.Extends s.arena t.arena := by
  obtain ⟨operation, status, schema, name, hnamed, hanswer, hinline, hclaim⟩ := hone
  rcases h.claimResponse hc hclaim with ⟨hfree, rfl⟩ | ⟨rfl, -⟩
  · have hgrows : Registry.Extends s.arena
        (s.arena.register (Registry.claimed name schema "response")) := Registry.extends_register
    refine ⟨⟨h.extends_.trans hgrows, ?_, ?_, ?_, ?_⟩, hgrows⟩
    · rw [List.map_append]
      refine h.nodup.append (List.nodup_singleton _) (List.disjoint_singleton.mpr fun hmem => ?_)
      obtain ⟨p, hp, rfl⟩ := List.mem_map.mp hmem
      obtain ⟨-, ⟨e, he, -⟩, -⟩ := h.models p hp
      exact hfree (Registry.mem_names_of_find? he)
    · intro other hother
      rcases Registry.mem_names_register.mp hother with hother | rfl
      · exact (h.names other hother).imp_right fun hmem => by simp [hmem]
      · exact Or.inr (by simp)
    · intro p hp
      rcases List.mem_append.mp hp with hp | hp
      · obtain ⟨hnew, ⟨e, he, hschema⟩, hrest⟩ := h.models p hp
        exact ⟨hnew, ⟨e, hgrows.find? he, hschema⟩, hrest⟩
      · obtain rfl := List.mem_singleton.mp hp
        refine ⟨fun hmem => hfree (h.extends_.mem hmem), ⟨_,
          Registry.find?_register_of_notMem (e := Registry.claimed name schema "response") hfree, ?_⟩,
          hanswer, hinline⟩
        simp [Registry.claimed, not_isAbsent_of_inline hinline]
    · intro p hp
      rcases List.mem_append.mp hp with hp | hp
      · exact h.named p hp
      · obtain rfl := List.mem_singleton.mp hp
        obtain ⟨arena, hclaimed, -⟩ := yields_claimResponse hclaim
        obtain ⟨-, -, k, -, -, hk, -⟩ := Registry.claim_spec hclaimed
        exact ⟨operation, status, k, hnamed, hk⟩
  · exact ⟨h, Registry.Extends.refl _⟩

theorem Kept.claims (hc : MadeFor c resolved written synthesize spec named) (h : Kept c s)
    (hrun : c.Claims s t) : Kept c t ∧ Registry.Extends s.arena t.arena := by
  induction hrun with
  | refl => exact ⟨h, Registry.Extends.refl _⟩
  | tail _ hone ih =>
      obtain ⟨hlast, hgrows⟩ := ih.1.claimsOne hc hone
      exact ⟨hlast, ih.2.trans hgrows⟩

/-- A name has the model of a schema, or of one that the program takes for the same. -/
def NamedFor (s : EndpointState) (name : String) (schema : Node) : Prop :=
  ∃ e known, s.arena.find? name = some e ∧ e.schema = some known ∧
    Registry.sameSchema (some known) schema = .ok true

theorem Kept.namedFor (hc : MadeFor c resolved written synthesize spec named) (h : Kept c s)
    (hinline : isInlineResponse schema = .ok true) {base : String}
    (hclaim : Yields (c.claimResponse base schema) s name t) : NamedFor t name schema := by
  rcases h.claimResponse hc hclaim with ⟨hfree, rfl⟩ | ⟨rfl, e, he, hsame⟩
  · have hthere := not_isAbsent_of_inline hinline
    refine ⟨_, schema,
      Registry.find?_register_of_notMem (e := Registry.claimed name schema "response") hfree, ?_,
      Registry.sameSchema_self hthere⟩
    simp [Registry.claimed, hthere]
  · cases hschema : e.schema with
    | none =>
        rw [hschema] at hsame
        cases hsame
    | some known => exact ⟨e, known, he, hschema, hschema ▸ hsame⟩

theorem NamedFor.mono (h : NamedFor s name schema) (hgrows : Registry.Extends s.arena t.arena) :
    NamedFor t name schema := by
  obtain ⟨e, known, he, hrest⟩ := h
  exact ⟨e, known, hgrows.find? he, hrest⟩

/-- The model of a name is that of a named schema, or it is handed on. -/
theorem Kept.source (hc : MadeFor c resolved written synthesize spec named) (h : Kept c s)
    {e : Entry} {known : Node} (he : s.arena.find? name = some e) (hknown : e.schema = some known) :
    (∃ f ∈ named, name = c.mapper.names.classOf f.1 ∧ f.2 = known) ∨
      (name, known) ∈ s.responseModels := by
  have hmem : name ∈ s.arena.names := Registry.mem_names_of_find? he
  rcases h.names name hmem with hfirst | hhanded
  · left
    -- the first model of a name stays, so it is the one that the named schema had from the start
    obtain ⟨e', he'⟩ := Option.isSome_iff_exists.mp (Registry.contains_iff.mpr hfirst)
    obtain rfl : e' = e := Option.some.inj ((h.extends_.find? he').symm.trans he)
    have hentry := Registry.mem_of_find? he'
    rw [hc.arena] at hentry
    rcases Registry.mem_entries_foldl_register hentry with hnone | ⟨f, hf, rfl⟩
    · exact absurd hnone List.not_mem_nil
    · refine ⟨f, hf, (Registry.name_of_find? he').symm, ?_⟩
      simp only [arenaEntry] at hknown
      split at hknown
      · cases hknown
      · exact Option.some.inj hknown
  · right
    obtain ⟨p, hp, rfl⟩ := List.mem_map.mp hhanded
    obtain ⟨-, ⟨e', he', hschema⟩, -⟩ := h.models p hp
    obtain rfl : e' = e := Option.some.inj (he'.symm.trans he)
    obtain rfl : p.2 = known := Option.some.inj (hschema.symm.trans hknown)
    exact hp

/-- A response in place has the name that was claimed for its schema. -/
theorem CompiledBetween.namedFor (hc : MadeFor c resolved written synthesize spec named)
    {raw : RawResponse} {response : Response} (h : CompiledBetween c c.start t raw response)
    (hplace : response.inPlace = true) (hschema : raw.schema = some schema)
    (hanswer : c.Answerable schema) :
    isInlineResponse schema = .ok true ∧ NamedFor t response.typeExpression schema := by
  obtain ⟨u, v, hu, hresponse, hv⟩ := h.run
  have hkept := (start_kept.claims hc hu).1
  cases hresponse with
  | empty _ _ hno => cases hplace.symm.trans hno
  | typed _ _ _ _ hno => cases hplace.symm.trans hno
  | inPlace hschema' hinline _ hnamed hclaim =>
      obtain rfl := Option.some.inj (hschema.symm.trans hschema')
      obtain ⟨hkept', -⟩ := hkept.claimsOne hc ⟨_, _, schema, _, hnamed, hanswer, hinline, hclaim⟩
      exact ⟨hinline, (hkept.namedFor hc hinline hclaim).mono (hkept'.claims hc hv).2⟩

end EndpointCompiler

end ApiScaffold
