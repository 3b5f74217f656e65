import ApiScaffold.Proofs.Recompiling

set_option autoImplicit false

/-! # What a batch of models is

The models of a batch are those that the worklist compiled, in an order in which each stands behind
the models that it uses. Compared with the worklist they lost the uses of models left out, and the
uses that no order can respect together with the rest: each of them alone closes a cycle with those
that were kept. -/

namespace ApiScaffold.ModelCompiler

open Mapper ModelOrder

variable {c : ModelCompiler} {done : Worklist} {found cut : List Compiled}

/-! ## Uses before and after -/

/-- What the models of a worklist use, before any is compiled again. -/
def FirstUses (w : Worklist) : String → String → Prop := Requires (modelsOf w.compiled)

/-- What the models of a worklist use, without the models left out. -/
def PresentUses (w : Worklist) (a b : String) : Prop := FirstUses w a b ∧ b ∉ w.skipped

/-- The models with what they use, by their names. -/
def usesOf (models : List Model) : List (String × List String) :=
  models.map fun m => (m.name, m.dependsOn)

theorem dependsOn_iff_usesOf {models : List Model} {a b : String} :
    Requires models a b ↔ ∃ u ∈ usesOf models, u.1 = a ∧ b ∈ u.2 := by
  simp [Requires, usesOf]

theorem Reworked.dependsOn_iff {blockedOf : String → List String}
    {compiled compiled' : List Compiled} (h : Reworked blockedOf compiled compiled')
    {a b : String} :
    Requires (modelsOf compiled') a b ↔ Requires (modelsOf compiled) a b ∧ b ∉ blockedOf a := by
  unfold Requires modelsOf
  induction h with
  | nil => simp
  | cons hm _ ih =>
      simp only [List.map_cons, List.exists_mem_cons_iff, ih, hm.2.name, hm.2.dependsOn,
        mem_without, or_and_right]
      refine or_congr ?_ Iff.rfl
      constructor
      · rintro ⟨rfl, hb, hopen⟩
        exact ⟨⟨rfl, hb⟩, hopen⟩
      · rintro ⟨⟨rfl, hb⟩, hopen⟩
        exact ⟨rfl, hb, hopen⟩

theorem mem_blockedFor_dangling (h : Consistent c done) {a b : String} (hab : FirstUses done a b) :
    b ∈ blockedFor (dangling done) a ↔ b ∈ done.skipped := by
  obtain ⟨model, hmodel, rfl, hb⟩ := hab
  obtain ⟨m, hm, rfl⟩ := List.mem_map.mp hmodel
  have hlist : blockedFor (dangling done) m.model.name =
      m.model.dependsOn.filter done.skipped.contains :=
    blockedFor_danglingFrom h.nodup_names.of_append_left hm
  simp [hlist, hb]

namespace Arranged

theorem found_iff (h : Arranged c done found cut) (hdone : Consistent c done) {a b : String} :
    Requires (modelsOf found) a b ↔ PresentUses done a b := by
  rw [h.foundFrom.dependsOn_iff, PresentUses]
  refine and_congr_right fun hab => ?_
  rw [mem_blockedFor_dangling hdone hab]

theorem cut_iff (h : Arranged c done found cut) (hdone : Consistent c done) {a b : String} :
    Requires (modelsOf cut) a b ↔
      PresentUses done a b ∧ (a, b) ∉ (orderOf (found, done.registry)).backEdges := by
  rw [h.cutFrom.dependsOn_iff, PresentUses, and_assoc]
  refine and_congr_right fun hab => ?_
  rw [mem_blockedFor_forbid, mem_blockedFor_dangling hdone hab, not_or]

theorem names_found (h : Arranged c done found cut) :
    (modelsOf found).map (·.name) = compiledNames done.compiled := by
  rw [modelsOf, List.map_map]
  exact h.foundFrom.names

theorem names_cut (h : Arranged c done found cut) :
    (modelsOf cut).map (·.name) = compiledNames done.compiled := by
  rw [modelsOf, List.map_map]
  exact h.cutFrom.names

theorem nodup_found (h : Arranged c done found cut) (hdone : Consistent c done) :
    ((modelsOf found).map (·.name)).Nodup := by
  rw [h.names_found]
  exact hdone.nodup_names.of_append_left

theorem nodup_cut (h : Arranged c done found cut) (hdone : Consistent c done) :
    ((modelsOf cut).map (·.name)).Nodup := by
  rw [h.names_cut]
  exact hdone.nodup_names.of_append_left

/-- A model in order is a model of the second round. -/
theorem mem_models_iff (h : Arranged c done found cut) (hdone : Consistent c done) {m : Model} :
    m ∈ (orderOf (cut, done.registry)).models ↔ m ∈ modelsOf cut :=
  mem_models_ofModels (h.nodup_cut hdone)

theorem dependsOn_iff (h : Arranged c done found cut) (hdone : Consistent c done) {a b : String} :
    Requires (orderOf (cut, done.registry)).models a b ↔ Requires (modelsOf cut) a b := by
  unfold Requires
  simp only [h.mem_models_iff hdone]

/-- A model that is used by a present one is there itself. -/
theorem mem_names_of_present (hdone : Consistent c done) (hend : done.registry.waiting = [])
    {a b : String} (hab : PresentUses done a b) : b ∈ compiledNames done.compiled := by
  obtain ⟨⟨model, hmodel, -, hb⟩, hthere⟩ := hab
  obtain ⟨m, hm, rfl⟩ := List.mem_map.mp hmodel
  exact (hdone.mem_of_used hend hm hb).resolve_right hthere

theorem edge_found_iff (h : Arranged c done found cut) (hdone : Consistent c done)
    (hend : done.registry.waiting = []) {a b : String} :
    Edge (modelsOf found) a b ↔ PresentUses done a b := by
  rw [edge_iff (h.nodup_found hdone), h.found_iff hdone, h.names_found, and_iff_left_iff_imp]
  exact mem_names_of_present hdone hend

theorem edge_cut_iff (h : Arranged c done found cut) (hdone : Consistent c done)
    (hend : done.registry.waiting = []) {a b : String} :
    Edge (modelsOf cut) a b ↔ Requires (orderOf (cut, done.registry)).models a b := by
  rw [edge_iff (h.nodup_cut hdone), h.dependsOn_iff hdone, h.names_cut, and_iff_left_iff_imp]
  intro hab
  exact mem_names_of_present hdone hend ((h.cut_iff hdone).mp hab).1

/-- Every model that is used stands in front of those that use it. -/
theorem earlier (h : Arranged c done found cut) (hdone : Consistent c done)
    (hend : done.registry.waiting = []) {a b : String}
    (hab : Requires (orderOf (cut, done.registry)).models a b) :
    Earlier (orderOf (cut, done.registry)).placedNames b a :=
  earlier_of_edge h.backEdges_nil ((h.edge_cut_iff hdone hend).mpr hab)

/-- The models of the batch have the names of the models compiled. -/
theorem names_perm (h : Arranged c done found cut) (hdone : Consistent c done) :
    (orderOf (cut, done.registry)).placedNames.Perm (compiledNames done.compiled) := by
  refine (List.perm_ext_iff_of_nodup ofModels_sound.nodup
    hdone.nodup_names.of_append_left).mpr fun name => ?_
  rw [← h.names_cut, ← find?_isSome]
  exact mem_placedNames_ofModels

/-- A use that is present and was cut closes a cycle with the uses that were kept. -/
theorem closes_cycle (h : Arranged c done found cut) (hdone : Consistent c done)
    (hend : done.registry.waiting = []) {a b : String} (hab : PresentUses done a b)
    (hcut : ¬ Requires (orderOf (cut, done.registry)).models a b) :
    Relation.ReflTransGen (Requires (orderOf (cut, done.registry)).models) b a := by
  have hback : (a, b) ∈ (orderOf (found, done.registry)).backEdges := by
    by_contra hnot
    exact hcut ((h.dependsOn_iff hdone).mpr ((h.cut_iff hdone).mpr ⟨hab, hnot⟩))
  exact Relation.ReflTransGen.mono (fun x y hxy => (h.edge_cut_iff hdone hend).mp hxy)
    _ _ (ofModels_cycle h.pruned hback)

theorem acyclic (h : Arranged c done found cut) (hdone : Consistent c done)
    (hend : done.registry.waiting = []) (a : String) :
    ¬ Relation.TransGen (Requires (orderOf (cut, done.registry)).models) a a := by
  have hearlier : ∀ {x y}, Relation.TransGen (Requires (orderOf (cut, done.registry)).models) x y →
      Earlier (orderOf (cut, done.registry)).placedNames y x := by
    intro x y hxy
    induction hxy with
    | single hxy => exact h.earlier hdone hend hxy
    | tail _ hyz ih => exact (h.earlier hdone hend hyz).trans ih
  intro hcycle
  exact Earlier.irrefl (hearlier hcycle)

/-- What is blocked for a model is what it used first and does not use in the end. -/
theorem cut_of_blocked (h : Arranged c done found cut) (hdone : Consistent c done)
    (hend : done.registry.waiting = []) {m : Compiled} (hm : m ∈ done.compiled) {d : String}
    (hd : d ∈ blockedFor (forbid (orderOf (found, done.registry)).backEdges (dangling done))
      m.model.name) :
    FirstUses done m.model.name d ∧
      ¬ Requires (orderOf (cut, done.registry)).models m.model.name d := by
  refine ⟨?_, ?_⟩
  · rcases mem_blockedFor_forbid.mp hd with hd | hd
    · have hlist : blockedFor (dangling done) m.model.name =
          m.model.dependsOn.filter done.skipped.contains :=
        blockedFor_danglingFrom hdone.nodup_names.of_append_left hm
      rw [hlist] at hd
      exact ⟨m.model, List.mem_map_of_mem hm, rfl, List.mem_of_mem_filter hd⟩
    · exact ((h.edge_found_iff hdone hend).mp (leadsBack_of_mem hd).1).1
  · intro hab
    exact (h.cutFrom.dependsOn_iff.mp ((h.dependsOn_iff hdone).mp hab)).2 hd

end Arranged

/-! ## Batches -/

theorem finish_eq_ok {enums : EnumCollection} {batch : ModelBatch}
    (h : c.finish enums done = .ok batch) :
    done.registry.waiting = [] ∧ c.arrange done = .ok batch.models ∧
      batch.skipped = done.skipped := by
  unfold finish at h
  dsimp only at h
  split at h
  · cases h
  · next hend =>
      obtain ⟨models, hmodels, h⟩ := bind_eq_ok.mp h
      split at h
      · cases pure_eq_ok.mp h
        exact ⟨by simpa using hend, hmodels, rfl⟩
      · exact absurd h throw_ne_ok

theorem compileWithin_of_parts {limit : Nat} {extra : List (String × Node)} {w : Worklist}
    {enums : EnumCollection} {batch : ModelBatch} (hstart : c.start extra = .ok (w, enums))
    (hdrain : c.drain limit w = .ok done) (hfinish : c.finish enums done = .ok batch) :
    c.compileWithin limit extra = .ok batch :=
  bind_eq_ok.mpr ⟨_, hstart, bind_eq_ok.mpr ⟨done, hdrain, hfinish⟩⟩

/-- What a batch is made from. -/
theorem compileWithin_eq_ok {limit : Nat} {extra : List (String × Node)} {batch : ModelBatch}
    (h : c.compileWithin limit extra = .ok batch) :
    ∃ w enums done, c.start extra = .ok (w, enums) ∧ c.drain limit w = .ok done ∧
      c.finish enums done = .ok batch := by
  obtain ⟨⟨w, enums⟩, hstart, h⟩ := bind_eq_ok.mp h
  obtain ⟨done, hdrain, h⟩ := bind_eq_ok.mp h
  exact ⟨w, enums, done, hstart, hdrain, h⟩

/-- A batch comes from a worklist that was drained, and from two rounds of compiling again. -/
theorem exists_arranged_of_batch {limit : Nat} {extra : List (String × Node)} {w : Worklist}
    {enums : EnumCollection} {batch : ModelBatch} (hstart : c.start extra = .ok (w, enums))
    (hdrain : c.drain limit w = .ok done) (hfinish : c.finish enums done = .ok batch) :
    ∃ found cut, Arranged c done found cut ∧ Consistent c done ∧ done.registry.waiting = [] ∧
      batch.models = (orderOf (cut, done.registry)).models ∧ batch.skipped = done.skipped := by
  have hdone : Consistent c done := drain_consistent (start_consistent hstart) hdrain
  obtain ⟨hend, harrange, hskipped⟩ := finish_eq_ok hfinish
  obtain ⟨found, cut, h⟩ := exists_arranged hdone
  rw [h.arrange_eq] at harrange
  exact ⟨found, cut, h, hdone, hend, (Except.ok.inj harrange).symm, hskipped⟩

/-! ## A document with a cycle -/

/-- A reference to a named schema. -/
def referenceTo (name : String) : Json := .obj [("$ref", .str (Pointer.toSchema name))]

/-- A document of two models that use each other, of which the first also uses a model that is not
there. -/
def entangled : Document where
  tag := 0
  root := .obj [("components", .obj [("schemas", .obj [
    ("User", .obj [("properties", .obj [
      ("team", referenceTo "Team"),
      ("badge", referenceTo "Badge"),
      ("nick", .obj [("type", .str "string")])])]),
    ("Team", .obj [("properties", .obj [
      ("members", .obj [("type", .str "array"), ("items", referenceTo "User")])])])])])]
  linked := false

/-- What the models of `entangled` use, behind the worklist and in the batch. -/
theorem entangled_runs :
    ∃ c w enums done batch, ofDocument entangled false none = .ok c ∧
      c.start [] = .ok (w, enums) ∧ c.drain modelLimit w = .ok done ∧
      c.finish enums done = .ok batch ∧
      usesOf (modelsOf done.compiled) =
        [("UserDto", ["TeamDto", "BadgeDto"]), ("TeamDto", ["UserDto"])] ∧
      done.skipped = ["BadgeDto"] ∧
      usesOf batch.models = [("TeamDto", []), ("UserDto", ["TeamDto"])] := by
  have hrun : (do
      let c ← ofDocument entangled false none
      let s ← c.start []
      let done ← c.drain modelLimit s.1
      let batch ← c.finish s.2 done
      pure (usesOf (modelsOf done.compiled), done.skipped, usesOf batch.models)).toOption =
      some ([("UserDto", ["TeamDto", "BadgeDto"]), ("TeamDto", ["UserDto"])], ["BadgeDto"],
        [("TeamDto", []), ("UserDto", ["TeamDto"])]) := by
    decide +kernel
  obtain ⟨c, hc, h⟩ := bind_eq_ok.mp (eq_ok_of_toOption hrun)
  obtain ⟨⟨w, enums⟩, hstart, h⟩ := bind_eq_ok.mp h
  obtain ⟨done, hdrain, h⟩ := bind_eq_ok.mp h
  obtain ⟨batch, hfinish, h⟩ := bind_eq_ok.mp h
  obtain ⟨hfirst, hrest⟩ := Prod.mk.inj (pure_eq_ok.mp h)
  obtain ⟨hskipped, hlast⟩ := Prod.mk.inj hrest
  exact ⟨c, w, enums, done, batch, hc, hstart, hdrain, hfinish, hfirst, hskipped, hlast⟩

/-! ## Order -/

/-- The models of a batch have different names, stand behind the models that they use, never use
themselves, and have nothing to do with the models left out. -/
theorem compileWithin_ordered {limit : Nat} {extra : List (String × Node)} {batch : ModelBatch}
    (h : c.compileWithin limit extra = .ok batch) :
    batch.names.Nodup ∧
      (∀ (i : Nat) (m : Model) (d : String), batch.models[i]? = some m → d ∈ m.dependsOn →
        ∃ j < i, batch.names[j]? = some d) ∧
      (∀ m ∈ batch.models, m.name ∉ m.dependsOn) ∧
      (∀ name ∈ batch.skipped, name ∉ batch.names ∧
        ∀ m ∈ batch.models, name ∉ m.dependsOn) := by
  obtain ⟨w, enums, done, hstart, hdrain, hfinish⟩ := compileWithin_eq_ok h
  obtain ⟨found, cut, harranged, hdone, hend, hmodels, hskipped⟩ :=
    exists_arranged_of_batch hstart hdrain hfinish
  have hnames : batch.names = (orderOf (cut, done.registry)).placedNames := by
    rw [ModelBatch.names, hmodels]
    rfl
  have hnodup : (orderOf (cut, done.registry)).placedNames.Nodup := ofModels_sound.nodup
  have huses : ∀ m ∈ batch.models, ∀ d ∈ m.dependsOn,
      Requires (orderOf (cut, done.registry)).models m.name d := by
    intro m hm d hd
    exact ⟨m, hmodels ▸ hm, rfl, hd⟩
  have hearlier : ∀ m ∈ batch.models, ∀ d ∈ m.dependsOn,
      Earlier (orderOf (cut, done.registry)).placedNames d m.name :=
    fun m hm d hd => harranged.earlier hdone hend (huses m hm d hd)
  rw [hnames, hskipped]
  refine ⟨hnodup, ?_, ?_, ?_⟩
  · intro i m d hm hd
    refine (hearlier m (List.mem_of_getElem? hm) d hd).exists_lt hnodup ?_
    rw [ModelOrder.placedNames, List.getElem?_map, ← hmodels, hm]
    rfl
  · intro m hm hself
    exact Earlier.irrefl (hearlier m hm m.name hself)
  · intro name hname
    refine ⟨?_, ?_⟩
    · intro hmem
      exact List.disjoint_of_nodup_append hdone.nodup_names
        ((harranged.names_perm hdone).subset hmem) hname
    · intro m hm hd
      have hpresent := (harranged.cut_iff hdone).mp
        ((harranged.dependsOn_iff hdone).mp (huses m hm name hd))
      exact hpresent.1.2 hname

/-- The models of `entangled` in order. -/
theorem entangled_ordered :
    ∃ c batch, ofDocument entangled false none = .ok c ∧ c.compileAll [] = .ok batch ∧
      usesOf batch.models = [("TeamDto", []), ("UserDto", ["TeamDto"])] ∧
      batch.names.Nodup ∧
      (∀ (i : Nat) (m : Model) (d : String), batch.models[i]? = some m → d ∈ m.dependsOn →
        ∃ j < i, batch.names[j]? = some d) ∧
      (∀ m ∈ batch.models, m.name ∉ m.dependsOn) ∧
      (∀ name ∈ batch.skipped, name ∉ batch.names ∧
        ∀ m ∈ batch.models, name ∉ m.dependsOn) := by
  obtain ⟨c, w, enums, done, batch, hc, hstart, hdrain, hfinish, -, -, hlast⟩ := entangled_runs
  have hbatch : c.compileAll [] = .ok batch := compileWithin_of_parts hstart hdrain hfinish
  exact ⟨c, batch, hc, hbatch, hlast, compileWithin_ordered hbatch⟩

/-! ## Cuts -/

/-- A property of a batch is that of the worklist, in its place and with its name, marks and
example; it is the same altogether unless its type mentions a use that was cut. -/
structure KeptProperty (cut : String → Prop) (p p' : Property) : Prop where
  name : p'.name = p.name
  required : p'.required = p.required
  description : p'.description = p.description
  sample : p'.sample = p.sample
  same : (∀ d, cut d → ¬ Mentions p.typeExpression d) → p' = p

/-- Cutting uses is exact and minimal: a batch has no use that the worklist did not have, no uses
that go round, and lacks none but those that close a cycle with the uses that it has. -/
theorem compileWithin_cuts {limit : Nat} {extra : List (String × Node)} {batch : ModelBatch}
    (h : c.compileWithin limit extra = .ok batch) :
    ∃ w enums done, c.start extra = .ok (w, enums) ∧ c.drain limit w = .ok done ∧
      c.finish enums done = .ok batch ∧
      (∀ a b, Requires batch.models a b → PresentUses done a b) ∧
      (∀ a, ¬ Relation.TransGen (Requires batch.models) a a) ∧
      (∀ a b, PresentUses done a b → ¬ Requires batch.models a b →
        Relation.ReflTransGen (PresentUses done) b a ∧
          Relation.TransGen (fun x y => Requires batch.models x y ∨ x = a ∧ y = b) a a) ∧
      batch.names.Perm (compiledNames done.compiled) ∧
      (∀ m ∈ modelsOf done.compiled, ∃ m' ∈ batch.models, m'.name = m.name ∧
        List.Forall₂ (KeptProperty fun d => FirstUses done m.name d ∧
          ¬ Requires batch.models m.name d) m.properties m'.properties) := by
  obtain ⟨w, enums, done, hstart, hdrain, hfinish⟩ := compileWithin_eq_ok h
  obtain ⟨found, cut, harranged, hdone, hend, hmodels, -⟩ :=
    exists_arranged_of_batch hstart hdrain hfinish
  refine ⟨w, enums, done, hstart, hdrain, hfinish, ?_⟩
  rw [ModelBatch.names, hmodels]
  refine ⟨?_, harranged.acyclic hdone hend, ?_, harranged.names_perm hdone, ?_⟩
  · intro a b hab
    exact ((harranged.cut_iff hdone).mp ((harranged.dependsOn_iff hdone).mp hab)).1
  · intro a b hab hcut
    have hback := harranged.closes_cycle hdone hend hab hcut
    refine ⟨Relation.ReflTransGen.mono (fun x y hxy => ?_) _ _ hback, ?_⟩
    · exact ((harranged.cut_iff hdone).mp ((harranged.dependsOn_iff hdone).mp hxy)).1
    · refine Relation.TransGen.head' (Or.inr ⟨rfl, rfl⟩) ?_
      exact Relation.ReflTransGen.mono (fun x y hxy => Or.inl hxy) _ _ hback
  · intro model hmodel
    obtain ⟨m, hm, rfl⟩ := List.mem_map.mp hmodel
    obtain ⟨m', hm', hagain⟩ := harranged.cutFrom.exists_again hm
    refine ⟨m'.model, (harranged.mem_models_iff hdone).mpr (List.mem_map_of_mem hm'),
      hagain.name, hagain.properties.imp ?_⟩
    intro p p' hretyped
    refine ⟨hretyped.name, hretyped.required, hretyped.description, hretyped.sample, ?_⟩
    intro hnone
    refine hretyped.same fun d hd => hnone d ?_
    exact harranged.cut_of_blocked hdone hend hm hd

/-- In `entangled` the use of the second model by the first one is cut, and closes a cycle. -/
theorem entangled_cuts :
    ∃ c w enums done batch, ofDocument entangled false none = .ok c ∧
      c.start [] = .ok (w, enums) ∧ c.drain modelLimit w = .ok done ∧
      c.compileAll [] = .ok batch ∧
      PresentUses done "TeamDto" "UserDto" ∧ ¬ Requires batch.models "TeamDto" "UserDto" ∧
      Relation.ReflTransGen (PresentUses done) "UserDto" "TeamDto" ∧
      Relation.TransGen (fun x y => Requires batch.models x y ∨ x = "TeamDto" ∧ y = "UserDto")
        "TeamDto" "TeamDto" := by
  obtain ⟨c, w, enums, done, batch, hc, hstart, hdrain, hfinish, hfirst, hskipped, hlast⟩ :=
    entangled_runs
  have hbatch : c.compileAll [] = .ok batch := compileWithin_of_parts hstart hdrain hfinish
  obtain ⟨w', enums', done', hstart', hdrain', -, -, -, hcuts, -⟩ := compileWithin_cuts hbatch
  cases hstart.symm.trans hstart'
  cases hdrain.symm.trans hdrain'
  have hpresent : PresentUses done "TeamDto" "UserDto" := by
    refine ⟨dependsOn_iff_usesOf.mpr ?_, ?_⟩
    · rw [hfirst]
      decide
    · rw [hskipped]
      decide
  have hcut : ¬ Requires batch.models "TeamDto" "UserDto" := by
    rw [dependsOn_iff_usesOf, hlast]
    decide
  exact ⟨c, w, enums, done, batch, hc, hstart, hdrain, hbatch, hpresent, hcut,
    hcuts _ _ hpresent hcut⟩

/-! ## Rounds -/

/-- One round of cutting back edges is always enough: it succeeds, the order of the models has no
back edges then and is otherwise the same, and no model is registered on the way. -/
theorem arrange_ends {limit : Nat} {extra : List (String × Node)} {w : Worklist}
    {enums : EnumCollection} (hstart : c.start extra = .ok (w, enums))
    (hdrain : c.drain limit w = .ok done) :
    ∃ found cut : List Compiled,
      c.withoutMissing done = .ok (found, done.registry) ∧
      c.cutEdges (orderOf (found, done.registry)).backEdges (dangling done)
        (found, done.registry) = .ok (cut, done.registry) ∧
      (orderOf (cut, done.registry)).backEdges = [] ∧
      (orderOf (cut, done.registry)).placedNames = (orderOf (found, done.registry)).placedNames ∧
      (∀ fuel, c.breakCycles (fuel + 2) (dangling done) (found, done.registry) =
        .ok (orderOf (cut, done.registry)).models) ∧
      c.arrange done = .ok (orderOf (cut, done.registry)).models := by
  obtain ⟨found, cut, h⟩ :=
    exists_arranged (drain_consistent (start_consistent hstart) hdrain)
  exact ⟨found, cut, h.missing, h.cycles, h.backEdges_nil, h.placedNames, h.breakCycles_eq,
    h.arrange_eq⟩

/-- The models of `entangled` are arranged in one round. -/
theorem entangled_arrange_ends :
    ∃ c w enums done, ofDocument entangled false none = .ok c ∧ c.start [] = .ok (w, enums) ∧
      c.drain modelLimit w = .ok done ∧
      ∃ found cut : List Compiled,
        c.withoutMissing done = .ok (found, done.registry) ∧
        c.cutEdges (orderOf (found, done.registry)).backEdges (dangling done)
          (found, done.registry) = .ok (cut, done.registry) ∧
        (orderOf (cut, done.registry)).backEdges = [] ∧
        (orderOf (cut, done.registry)).placedNames =
          (orderOf (found, done.registry)).placedNames ∧
        (∀ fuel, c.breakCycles (fuel + 2) (dangling done) (found, done.registry) =
          .ok (orderOf (cut, done.registry)).models) ∧
        c.arrange done = .ok (orderOf (cut, done.registry)).models := by
  obtain ⟨c, w, enums, done, -, hc, hstart, hdrain, -⟩ := entangled_runs
  exact ⟨c, w, enums, done, hc, hstart, hdrain, arrange_ends hstart hdrain⟩

end ApiScaffold.ModelCompiler
