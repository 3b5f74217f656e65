import ApiScaffold.Proofs.Equality
import ApiScaffold.Proofs.Histories
import ApiScaffold.Proofs.Runs

set_option autoImplicit false

/-! # Names for schemas

A name claimed for a schema is the first candidate that is free or whose model is of a schema like
it (`FirstFitting`). The model under the name stays, and so do those under the candidates in front
of it. So whatever is done later, the name is claimed again for a schema like the first from the
same base, and never for any other (`claim_stable`). -/

namespace ApiScaffold

variable {D : Set Document} {schema schema' known : Node} {e : Entry}

/-- A model is of a schema: it has one that is like it. -/
def Entry.IsOf (e : Entry) (schema : Node) : Prop :=
  ∃ known, e.schema = some known ∧ Alike known schema

/-- A schema that a registry can compare: it stands at its place and for a finite value. -/
structure Comparable (D : Set Document) (schema : Node) : Prop where
  stands : Stands D schema
  readable : Readable schema

/-- A schema that a name can be claimed for: it is not null, and it stands for a finite value, whose
numbers are numbers. -/
structure Claimable (D : Set Document) (schema : Node) : Prop where
  stands : Stands D schema
  there : schema.isAbsent = false
  valid : ∃ v, schema.unfolded = .ok v ∧ v.hasInvalid = false

theorem comparable_of_plain (hn : Stands D schema) (hplain : schema.document.linked = false) :
    Comparable D schema := by
  refine ⟨hn, schema.value, ?_⟩
  rw [Node.unfolded, hplain]
  rfl

theorem claimable_of_plain (hn : Stands D schema) (hplain : schema.document.linked = false)
    (hthere : schema.isAbsent = false) (hvalid : schema.value.hasInvalid = false) :
    Claimable D schema := by
  refine ⟨hn, hthere, schema.value, ?_, hvalid⟩
  rw [Node.unfolded, hplain]
  rfl

theorem Claimable.comparable (h : Claimable D schema) : Comparable D schema := by
  obtain ⟨v, hv, -⟩ := h.valid
  exact ⟨h.stands, v, hv⟩

theorem Claimable.alike_self (hD : Sources D) (h : Claimable D schema) : Alike schema schema := by
  obtain ⟨v, hv, hvalid⟩ := h.valid
  exact ApiScaffold.alike_self hD h.stands hv hvalid

theorem Entry.IsOf.congr (h : e.IsOf schema) (halike : Alike schema schema') : e.IsOf schema' := by
  obtain ⟨known, hknown, hsame⟩ := h
  exact ⟨known, hknown, hsame.trans halike⟩

namespace Registry

open ModelCompiler (SchemasIn)

variable {r r' : Registry} {base base' name name' source : String}

/-! ## Finding out whether a model is of a schema -/

theorem sameSchema_decides (hD : Sources D)
    (he : ∀ known, e.schema = some known → Comparable D known) (hschema : Claimable D schema) :
    Decides (sameSchema e.schema schema) (e.IsOf schema) := by
  unfold sameSchema
  split
  · next hnone =>
      refine ⟨false, rfl, fun h => absurd h Bool.false_ne_true, ?_⟩
      rintro ⟨known, hknown, -⟩
      cases hnone.symm.trans hknown
  · next known hknown =>
      have hiff : Alike known schema ↔ e.IsOf schema := by
        refine ⟨fun h => ⟨known, hknown, h⟩, ?_⟩
        rintro ⟨known', hknown', h⟩
        cases hknown.symm.trans hknown'
        exact h
      have hin := he known hknown
      rw [if_neg (by simp [hschema.there])]
      split
      · next hplace =>
          obtain rfl := Stands.eq_of_samePlace hD hin.stands hschema.stands hplace
          exact ⟨true, rfl, fun _ => hiff.mp (hschema.alike_self hD), fun _ => rfl⟩
      · exact (equal_decides hin.readable hschema.comparable.readable).congr hiff

/-! ## The first candidate that fits -/

/-- A name is the first candidate for a schema that is free or whose model is of the schema. There
are not more candidates in front of it than models. -/
def FirstFitting (r : Registry) (base : String) (schema : Node) (name : String) : Prop :=
  ∃ k, 1 ≤ k ∧ k ≤ r.size + 1 ∧ name = candidate base k ∧
    (∀ i, 1 ≤ i → i < k → ∃ e, r.find? (candidate base i) = some e ∧ ¬ e.IsOf schema) ∧
    (name ∉ r.names ∨ ∃ e, r.find? name = some e ∧ e.IsOf schema)

theorem freeName_total (h : ∀ e ∈ r.entries, ∃ v, sameSchema e.schema schema = .ok v)
    (base : String) (fuel attempt : Nat) :
    ∃ name, r.freeName base schema fuel attempt = .ok name := by
  induction fuel generalizing attempt with
  | zero => exact ⟨_, rfl⟩
  | succ fuel ih =>
      rw [freeName]
      split
      · exact ⟨_, rfl⟩
      · next e he =>
          obtain ⟨same, hsame⟩ := h e (mem_of_find? he)
          rw [ok_bind hsame]
          cases same with
          | true => exact ⟨_, rfl⟩
          | false => exact ih (attempt + 1)

/-- Claiming a name for a schema gives one, the first that fits. -/
theorem claim_firstFitting (hD : Sources D) (hr : SchemasIn (Comparable D) r)
    (hschema : Claimable D schema) (base source : String) :
    ∃ name, r.claim base schema source = .ok (name, r.register (claimed name schema source)) ∧
      FirstFitting r base schema name := by
  have hdecides : ∀ e ∈ r.entries, Decides (sameSchema e.schema schema) (e.IsOf schema) :=
    fun e he => sameSchema_decides hD (hr e he) hschema
  obtain ⟨name, hname⟩ :=
    freeName_total (fun e he => (hdecides e he).imp fun v hv => hv.1) base r.size 1
  have hclaim : r.claim base schema source =
      .ok (name, r.register (claimed name schema source)) := by
    rw [claim, ok_bind hname]
    rfl
  obtain ⟨-, hfits, k, hpos, hle, hk, ht⟩ := claim_spec hclaim
  refine ⟨name, hclaim, k, hpos, hle, hk, fun i hi hlt => ?_, hfits.imp_right ?_⟩
  · obtain ⟨e, he, hsame⟩ := ht i hi hlt
    obtain ⟨v, hv, hiff⟩ := hdecides e (mem_of_find? he)
    cases hsame.symm.trans hv
    exact ⟨e, he, fun h => Bool.false_ne_true (hiff.mpr h)⟩
  · rintro ⟨e, he, hsame⟩
    obtain ⟨v, hv, hiff⟩ := hdecides e (mem_of_find? he)
    cases hsame.symm.trans hv
    exact ⟨e, he, hiff.mp rfl⟩

/-- The model of a name that was claimed is of the schema. -/
theorem FirstFitting.isOf (hD : Sources D) (hschema : Claimable D schema)
    (h : FirstFitting r base schema name) (source : String) :
    ∃ e, (r.register (claimed name schema source)).find? name = some e ∧ e.IsOf schema := by
  obtain ⟨k, -, -, -, -, hfree | ⟨e, he, hof⟩⟩ := h
  · have hnew := find?_register_of_notMem (e := claimed name schema source) hfree
    refine ⟨_, hnew, schema, ?_, hschema.alike_self hD⟩
    simp [claimed, hschema.there]
  · exact ⟨e, extends_register.find? he, hof⟩

/-- From one base, the first name that fits a schema and the first one that fits a schema like it
are the same, once there is a model of the schema under the former. -/
theorem FirstFitting.eq_of_alike (h : FirstFitting r base schema name)
    (h' : FirstFitting r' base schema' name') (hext : Extends r r')
    (hthere : ∃ e, r'.find? name = some e ∧ e.IsOf schema)
    (halike : Alike schema schema') (hsymm : Alike schema' schema) : name' = name := by
  obtain ⟨k, hk, -, rfl, hother, -⟩ := h
  obtain ⟨k', hk', -, rfl, hother', hfits'⟩ := h'
  obtain ⟨e, he, hof⟩ := hthere
  rcases Nat.lt_trichotomy k' k with hlt | rfl | hgt
  · -- the candidate belongs to a model that is of neither schema
    obtain ⟨e', he', hnot⟩ := hother k' hk' hlt
    have hlater := hext.find? he'
    rcases hfits' with hfree | ⟨e'', he'', hof'⟩
    · exact absurd (mem_names_of_find? hlater) hfree
    · cases hlater.symm.trans he''
      exact absurd (hof'.congr hsymm) hnot
  · rfl
  · obtain ⟨e', he', hnot⟩ := hother' k hk hgt
    cases he.symm.trans he'
    exact absurd (hof.congr halike) hnot

/-! ## Whatever is done in between -/

theorem schema_claimed (h : (claimed name schema source).schema = some known) : known = schema := by
  simp only [claimed] at h
  split at h
  · cases h
  · exact (Option.some.inj h).symm

/-- The schemas that an operation brings can be compared. -/
def Operation.Brings (D : Set Document) : Operation → Prop
  | .register e => ∀ schema, e.schema = some schema → Comparable D schema
  | .claim _ schema _ => Comparable D schema
  | .pop => True

theorem Performs.schemasIn {o : Operation} {answer : Answer} (h : Performs r o answer r')
    (hr : SchemasIn (Comparable D) r) (ho : o.Brings D) : SchemasIn (Comparable D) r' := by
  cases h with
  | register e => exact hr.register ho
  | @claim base name source schema hclaim =>
      refine hr.register fun known hknown => ?_
      obtain rfl := schema_claimed hknown
      exact ho
  | fail hclaim => exact hr
  | hand hpop =>
      intro e he
      rw [entries_pop? hpop] at he
      exact hr e he
  | empty hpop => exact hr

theorem run_schemasIn (hr : SchemasIn (Comparable D) r) {operations : List Operation}
    (h : ∀ o ∈ operations, o.Brings D) : SchemasIn (Comparable D) (r.run operations).2 := by
  induction operations generalizing r with
  | nil => exact hr
  | cons o rest ih =>
      rw [run_cons]
      exact ih ((performs r o).schemasIn hr (h o List.mem_cons_self))
        fun o' ho' => h o' (List.mem_cons_of_mem _ ho')

theorem after_schemasIn {operations : List Operation} (h : ∀ o ∈ operations, o.Brings D) :
    SchemasIn (Comparable D) (after operations) :=
  run_schemasIn (fun _ he => absurd he List.not_mem_nil) h

/-- After what was done before, a name is the one that is claimed for a schema. -/
def Gives (before : List Operation) (base : String) (schema : Node) (source name : String) : Prop :=
  ∃ next, (after before).claim base schema source = .ok (name, next)

variable {before between : List Operation}

theorem Gives.after (h : Gives before base schema source name) :
    after (before ++ [.claim base schema source]) =
      (after before).register (claimed name schema source) := by
  obtain ⟨next, h⟩ := h
  rw [after_append, run_cons, perform, h, (claim_spec h).1]
  rfl

/-- There is a model under a name that was claimed. If it has a schema, then the one that the name
was claimed for, or one like it. -/
theorem Gives.entry (hD : Sources D) (hbefore : ∀ o ∈ before, o.Brings D)
    (hschema : Comparable D schema) (h : Gives before base schema source name) :
    ∃ e, (Registry.after (before ++ [.claim base schema source])).find? name = some e ∧
      ∀ known, e.schema = some known → known = schema ∨ Alike known schema := by
  rw [h.after]
  obtain ⟨next, h⟩ := h
  obtain ⟨-, hfree | ⟨e, he, hsame⟩, -⟩ := claim_spec h
  · refine ⟨_, find?_register_of_notMem (e := claimed name schema source) hfree,
      fun known hknown => .inl (schema_claimed hknown)⟩
  · refine ⟨e, extends_register.find? he, fun known hknown => ?_⟩
    have hin := after_schemasIn hbefore e (mem_of_find? he) known hknown
    rw [hknown] at hsame
    simp only [sameSchema] at hsame
    split at hsame
    · cases hsame
    · split at hsame
      · next hplace => exact .inl (Stands.eq_of_samePlace hD hin.stands hschema.stands hplace)
      · exact .inr (alike_of_equal hsame)

/-- A name is claimed for every schema that a name can be claimed for. It is the first that fits. -/
theorem exists_gives (hD : Sources D) (hbefore : ∀ o ∈ before, o.Brings D)
    (hschema : Claimable D schema) (base source : String) :
    ∃ name, Gives before base schema source name ∧
      FirstFitting (after before) base schema name := by
  obtain ⟨name, hclaim, hfirst⟩ :=
    claim_firstFitting hD (after_schemasIn hbefore) hschema base source
  exact ⟨name, ⟨_, hclaim⟩, hfirst⟩

theorem Gives.firstFitting (hD : Sources D) (hbefore : ∀ o ∈ before, o.Brings D)
    (hschema : Claimable D schema) (h : Gives before base schema source name) :
    FirstFitting (Registry.after before) base schema name := by
  obtain ⟨name', ⟨next', h'⟩, hfirst⟩ := exists_gives hD hbefore hschema base source
  obtain ⟨next, h⟩ := h
  cases h.symm.trans h'
  exact hfirst

theorem Gives.isOf (hD : Sources D) (hbefore : ∀ o ∈ before, o.Brings D)
    (hschema : Claimable D schema) (h : Gives before base schema source name) :
    ∃ e, (Registry.after (before ++ [.claim base schema source])).find? name = some e ∧
      e.IsOf schema := by
  rw [h.after]
  exact (h.firstFitting hD hbefore hschema).isOf hD hschema source

/-- Two claims of one name, one after the other, are for schemas that are alike, if for one of them
a name can be claimed. -/
theorem Gives.alike (hD : Sources D) {base₁ base₂ source₁ source₂ : String} {first second : Node}
    (hall : ∀ o ∈ before ++ .claim base₁ first source₁ :: between, o.Brings D)
    (hsecond : Comparable D second) (h₁ : Gives before base₁ first source₁ name)
    (h₂ : Gives (before ++ .claim base₁ first source₁ :: between) base₂ second source₂ name)
    (hclaimable : Claimable D first ∨ Claimable D second) : Alike first second := by
  have hbefore := fun o ho => hall o (List.mem_append_left _ ho)
  have hfirst : Comparable D first := hall _ (List.mem_append_right _ List.mem_cons_self)
  obtain ⟨e, he, hknown₁⟩ := h₁.entry hD hbefore hfirst
  obtain ⟨e₂, he₂, hknown₂⟩ := h₂.entry hD hall hsecond
  -- the model stays from the one claim to the other
  have hlater := extends_after_cons before (.claim base₁ first source₁)
    (between ++ [.claim base₂ second source₂])
  rw [← List.cons_append, ← List.append_assoc] at hlater
  cases (hlater.find? he).symm.trans he₂
  have hclaimed : ∀ o ∈ before ++ [.claim base₁ first source₁], o.Brings D := by
    simpa [or_imp, forall_and] using ⟨hbefore, hfirst⟩
  have hends (known : Node) (hknown : e.schema = some known) : Stands D known :=
    (after_schemasIn hclaimed e (mem_of_find? he) known hknown).stands
  rcases hclaimable with hclaimable | hclaimable
  · obtain ⟨e', he', known, hknown, hsame⟩ := h₁.isOf hD hbefore hclaimable
    cases he.symm.trans he'
    have hback := hsame.symm hD (hends known hknown) hclaimable.stands
    rcases hknown₂ known hknown with rfl | hsame₂
    · exact hback
    · exact hback.trans hsame₂
  · obtain ⟨e', he', known, hknown, hsame⟩ := h₂.isOf hD hall hclaimable
    cases he₂.symm.trans he'
    rcases hknown₁ known hknown with rfl | hsame₁
    · exact hsame
    · exact (hsame₁.symm hD (hends known hknown) hfirst.stands).trans hsame

/-- Whatever was done before, claiming a name for a schema gives one. It is the first that fits, its
model is of the schema, and no other model changes. It was claimed for no other schema before, and
whatever is done in between, it is claimed for no other later. When the base is the same, it is
claimed again for every schema that is like this one. -/
theorem claim_stable (hD : Sources D) (hbefore : ∀ o ∈ before, o.Brings D)
    (hschema : Claimable D schema) (base source : String) :
    ∃ name, Gives before base schema source name ∧ FirstFitting (after before) base schema name ∧
      (∃ e, (after (before ++ [.claim base schema source])).find? name = some e ∧
        e.IsOf schema) ∧
      (∀ other e, (after before).find? other = some e →
        (after (before ++ [.claim base schema source])).find? other = some e) ∧
      (∀ earlier base' schema' source' between,
        before = earlier ++ .claim base' schema' source' :: between →
          Gives earlier base' schema' source' name → Alike schema' schema) ∧
      ∀ between : List Operation, (∀ o ∈ between, o.Brings D) → ∀ schema' source',
        (∀ base', Comparable D schema' →
          Gives (before ++ .claim base schema source :: between) base' schema' source' name →
            Alike schema schema') ∧
        (Claimable D schema' → Alike schema schema' →
          Gives (before ++ .claim base schema source :: between) base schema' source' name) := by
  obtain ⟨name, hgives, hfirst⟩ := exists_gives hD hbefore hschema base source
  have hof := hgives.isOf hD hbefore hschema
  refine ⟨name, hgives, hfirst, hof, fun other e he => ?_, ?_, ?_⟩
  · exact (extends_after before _).find? he
  · rintro earlier base' schema' source' between rfl hearlier
    exact hearlier.alike hD hbefore hschema.comparable hgives (.inr hschema)
  · intro between hbetween schema' source'
    have hall : ∀ o ∈ before ++ .claim base schema source :: between, o.Brings D := by
      simpa [or_imp, forall_and] using ⟨hbefore, hschema.comparable, hbetween⟩
    refine ⟨fun base' hschema' hlater => ?_, fun hschema' halike => ?_⟩
    · exact hgives.alike hD hall hschema' hlater (.inl hschema)
    · obtain ⟨name', hgives', hfirst'⟩ := exists_gives hD hall hschema' base source'
      obtain ⟨e, he, hsame⟩ := hof
      have hlater := extends_after_cons before (.claim base schema source) between
      have hname := hfirst.eq_of_alike hfirst' (extends_after before _) ⟨e, hlater.find? he, hsame⟩
        halike (halike.symm hD hschema.stands hschema'.stands)
      exact hname ▸ hgives'

/-- The content of three crates. Two of them are equal, though they are written differently. -/
def crates : Document where
  tag := 0
  root := .obj [("apples", .obj [("type", .str "object"), ("maxProperties", .int 1)]),
    ("pears", .obj [("type", .str "object")]),
    ("plums", .obj [("maxProperties", .bool true), ("type", .str "object")])]
  linked := false

/-- A crate by its content. -/
def crate (content : String) : Node :=
  crates.top.part (.key content) ((crates.valueAt? [.key content]).getD .null)

theorem stands_crate (content : String) : Stands {crates} (crate content) := ⟨rfl, rfl⟩

theorem comparable_crate (content : String) : Comparable {crates} (crate content) :=
  comparable_of_plain (stands_crate content) rfl

/-- A crate of plums shares the model of the crate of apples, which had to leave its first name to a
crate of pears. -/
theorem crates_stable :
    let before := [.register { name := "CrateDto", schema := some (crate "pears") }]
    let between := [.pop, .claim "Crate2" (crate "pears") "inline",
      .register { name := "Crate3Dto" }]
    ∃ name, Gives before "Crate" (crate "apples") "inline" name ∧ name = "Crate2Dto" ∧
      Gives (before ++ .claim "Crate" (crate "apples") "inline" :: between) "Crate"
        (crate "plums") "inline" name := by
  intro before between
  have happles : Claimable {crates} (crate "apples") :=
    claimable_of_plain (stands_crate _) rfl rfl rfl
  have hplums : Claimable {crates} (crate "plums") :=
    claimable_of_plain (stands_crate _) rfl rfl rfl
  have hbefore : ∀ o ∈ before, o.Brings {crates} := by
    simp [before, Operation.Brings, comparable_crate]
  have hbetween : ∀ o ∈ between, o.Brings {crates} := by
    simp [between, Operation.Brings, comparable_crate]
  have halike : Alike (crate "apples") (crate "plums") := alike_of_same rfl rfl (by decide)
  obtain ⟨name, hgives, -, -, -, -, hlater⟩ :=
    claim_stable (sources_singleton (d := crates) (by decide)) hbefore happles "Crate"
      "inline"
  refine ⟨name, hgives, ?_, (hlater between hbetween _ "inline").2 hplums halike⟩
  obtain ⟨next, hnext⟩ := hgives
  have hname : ((after before).claim "Crate" (crate "apples") "inline").map (·.1) =
    .ok "Crate2Dto" := by decide
  rw [hnext] at hname
  exact Except.ok.inj hname

end Registry

end ApiScaffold
