import ApiScaffold.Proofs.Strict

set_option autoImplicit false

/-! # References to absent schemas

A reference to a named schema that is not there stands for the class that the schema would have. No
schema is found for that class when its turn comes, so it is left out, and the properties that would
use it become `any`; a strict compiler complains instead. The exception are classes of other schemas
that already go by the name: nothing tells them from the class that is missing
(`mistaken_typed`). -/

namespace ApiScaffold.ModelCompiler

open Mapper

variable {c : ModelCompiler} {w done : Worklist}

/-! ## The type of an absent schema -/

/-- The pointer of a property of a schema, by its place, if it is to a named schema that is not
there. -/
def absentReference? (c : ModelCompiler) (schema : Node) (i : Nat) :
    Except Fault (Option String) := do
  match (← Gathered.ofSchema c.mapper.resolver schema).properties[i]? with
  | none => return none
  | some p =>
    match ← p.2.pointer? with
    | none => return none
    | some pointer =>
      let found ← c.mapper.resolver.find pointer
      if Pointer.isComponent pointer && found.isNone then return some pointer else return none

theorem absentReference?_eq_some {schema : Node} {i : Nat} {pointer : String}
    (h : c.absentReference? schema i = .ok (some pointer)) :
    ∃ gathered p, Gathered.ofSchema c.mapper.resolver schema = .ok gathered ∧
      gathered.properties[i]? = some p ∧ p.2.pointer? = .ok (some pointer) ∧
      Pointer.isComponent pointer = true ∧ c.mapper.resolver.find pointer = .ok none := by
  obtain ⟨gathered, hgathered, h⟩ := bind_eq_ok.mp h
  split at h
  · cases pure_eq_ok.mp h
  · next p hp =>
      obtain ⟨pointer?, hpointer, h⟩ := bind_eq_ok.mp h
      cases pointer? with
      | none => cases pure_eq_ok.mp h
      | some pointer' =>
          obtain ⟨found, hfind, h⟩ := bind_eq_ok.mp h
          split at h
          · next hboth =>
              cases pure_eq_ok.mp h
              rw [Bool.and_eq_true, Option.isNone_iff_eq_none] at hboth
              exact ⟨gathered, p, hgathered, hp, hpointer, hboth.1, hboth.2 ▸ hfind⟩
          · cases pure_eq_ok.mp h

/-- An absent schema has the type of its class, which is noted, or any type if the class is
blocked. -/
theorem mapProperty_absent {m : Mapper} {ctx : MappingContext} {schema : Node} {s t : MapperState}
    {a : MappedType} {pointer : String} (hpointer : schema.pointer? = .ok (some pointer))
    (hcomponent : Pointer.isComponent pointer = true) (hfind : m.resolver.find pointer = .ok none)
    (h : Yields (m.mapProperty schema ctx) s a t) :
    (isBlocked ctx (m.names.classOf (Pointer.name pointer)) = true ∧ a = .any) ∨
      m.names.classOf (Pointer.name pointer) ∈ t.dependencies := by
  have hdepth : 0 < m.depth schema := Nat.mul_pos (by omega) (by omega)
  obtain ⟨fuel, hfuel⟩ := Nat.exists_eq_succ_of_ne_zero hdepth.ne'
  rw [mapProperty, hfuel] at h
  obtain ⟨isObject, hobject, h⟩ := yields_lift_bind.mp h
  obtain rfl : true = isObject :=
    Except.ok.inj ((isObject_of_pointer? hpointer).symm.trans hobject)
  obtain ⟨found?, hfound, h⟩ := yields_lift_bind.mp h
  obtain rfl : some pointer = found? := Except.ok.inj (hpointer.symm.trans hfound)
  rcases yields_mapReference h with ⟨target, hthere, -⟩ | ⟨target, hnone, -, h⟩
  · cases hfind.symm.trans hthere
  · obtain rfl : none = target := Except.ok.inj (hfind.symm.trans hnone)
    rw [mapClass, if_pos hcomponent] at h
    split at h
    · next hblocked =>
        obtain ⟨rfl, -⟩ := yields_pure.mp h
        exact Or.inl ⟨hblocked, rfl⟩
    · obtain ⟨-, rfl⟩ := yields_register_use.mp h
      exact Or.inr (mem_addNew.mpr (Or.inr rfl))

/-! ## What a batch makes of it -/

theorem exists_of_forall₂ {α β : Type} {R : α → β → Prop} {xs : List α} {ys : List β}
    (h : List.Forall₂ R xs ys) {i : Nat} {x : α} (hx : xs[i]? = some x) :
    ∃ y, ys[i]? = some y ∧ R x y := by
  induction h generalizing i with
  | nil => simp at hx
  | cons hxy _ ih =>
      cases i with
      | zero =>
          obtain rfl : _ = x := by simpa using hx
          exact ⟨_, rfl, hxy⟩
      | succ i => exact ih (by simpa using hx)

/-- A class is left out of a batch: it is listed among the models left out, the property at a place
of a model has any type, and a strict compiler gives no batch but a complaint about a model without
a schema. -/
structure LeftOut (c : ModelCompiler) (limit : Nat) (extra : List (String × Node))
    (batch : ModelBatch) (missing model : String) (i : Nat) : Prop where
  skipped : missing ∈ batch.skipped
  any : ∃ m ∈ batch.models, m.name = model ∧ ∃ p, m.properties[i]? = some p ∧
    p.typeExpression = "any"
  strict : ∃ first, c.strictly.compileWithin limit extra =
    .error (.complaint (.missingSchema first) c.mapper.resolver.spec)

/-- A class is left out when a compiled model refers to its schema, the schema is not there, and no
other schema has a class of that name. -/
theorem compileWithin_absent {limit : Nat} {extra : List (String × Node)} {batch : ModelBatch}
    (h : c.compileWithin limit extra = .ok batch) :
    ∃ w enums done, c.start extra = .ok (w, enums) ∧ c.drain limit w = .ok done ∧
      c.finish enums done = .ok batch ∧
      ∀ m ∈ done.compiled, ∀ i pointer, c.absentReference? m.schema i = .ok (some pointer) →
        c.mapper.names.classOf (Pointer.name pointer) ∉ batch.names →
        LeftOut c limit extra batch (c.mapper.names.classOf (Pointer.name pointer))
          m.model.name i := by
  obtain ⟨w, enums, done, hstart, hdrain, hfinish⟩ := compileWithin_eq_ok h
  refine ⟨w, enums, done, hstart, hdrain, hfinish, ?_⟩
  intro m hm i pointer habsent hother
  have hdone : Consistent c done := drain_consistent (start_consistent hstart) hdrain
  obtain ⟨hend, -, hskippedEq⟩ := finish_eq_ok hfinish
  obtain ⟨hnames, -, hbuilt⟩ := built_of_finish hdone hfinish
  obtain ⟨gathered, q, hgathered, hq, hpointer, hcomponent, hfind⟩ := absentReference?_eq_some habsent
  have hproperty : ∀ {blocked : List String} {gathered' : Gathered} {model : Model},
      Gathered.ofSchema c.mapper.resolver m.schema = .ok gathered' →
      List.Forall₂ (MadeFrom c.mapper blocked model) gathered'.properties model.properties →
      ∃ p, model.properties[i]? = some p ∧ MadeFrom c.mapper blocked model q p := by
    intro blocked gathered' model hgathered' hall
    obtain rfl : gathered = gathered' := Except.ok.inj (hgathered.symm.trans hgathered')
    exact exists_of_forall₂ hall hq
  have hskipped : c.mapper.names.classOf (Pointer.name pointer) ∈ batch.skipped := by
    -- when the model was compiled first nothing was blocked, so the class was noted and registered
    obtain ⟨r, r', hcompile, -⟩ := hdone.compiled m hm
    obtain ⟨gathered', hgathered', hall⟩ := compileOn_properties hcompile
    obtain ⟨p, -, required, mapped, description, sample, s, t, hmapped, hnoted, -⟩ :=
      hproperty hgathered' hall
    have hused : c.mapper.names.classOf (Pointer.name pointer) ∈ m.model.dependsOn := by
      rcases mapProperty_absent hpointer hcomponent hfind hmapped with ⟨hblocked, -⟩ | hmem
      · rw [(isBlocked_free rfl).mp hblocked] at hother
        exact absurd (hnames.symm.subset (List.mem_map_of_mem hm)) hother
      · exact hnoted hmem
    rw [hskippedEq]
    refine (hdone.mem_of_used hend hm hused).resolve_left fun hmem => ?_
    exact hother (hnames.symm.subset hmem)
  refine ⟨hskipped, ?_, ?_⟩
  · obtain ⟨model, hmodel, hname, hmade⟩ := hbuilt m hm
    obtain ⟨gathered', blocked, hgathered', hall⟩ := hmade.properties
    obtain ⟨p, hp, required, mapped, description, sample, s, t, hmapped, hnoted, rfl⟩ :=
      hproperty hgathered' hall
    refine ⟨model, hmodel, hname, _, hp, ?_⟩
    rcases mapProperty_absent hpointer hcomponent hfind hmapped with ⟨-, rfl⟩ | hmem
    · rfl
    · exact absurd (mem_names_of_used hdone hfinish hmodel (hnoted hmem)) hother
  · rw [hskippedEq] at hskipped
    cases hlist : done.skipped with
    | nil => simp [hlist] at hskipped
    | cons first rest => exact ⟨first, compileWithin_strictly hstart hdrain hlist⟩

/-- In `entangled` the class of the badge is left out. -/
theorem entangled_absent :
    ∃ c batch, ofDocument entangled false none = .ok c ∧ c.compileAll [] = .ok batch ∧
      LeftOut c modelLimit [] batch "BadgeDto" "UserDto" 1 := by
  have hrun : (do
      let c ← ofDocument entangled false none
      let s ← c.start []
      let done ← c.drain modelLimit s.1
      let batch ← c.finish s.2 done
      match done.compiled with
      | [] => throw Fault.endless
      | m :: _ => do
        let pointer ← c.absentReference? m.schema 1
        pure (pointer, m.model.name, c.mapper.names.classOf "Badge", batch.names)).toOption =
      some (some (Pointer.toSchema "Badge"), "UserDto", "BadgeDto", ["TeamDto", "UserDto"]) := by
    decide +kernel
  obtain ⟨c, hc, h⟩ := bind_eq_ok.mp (eq_ok_of_toOption hrun)
  obtain ⟨⟨w, enums⟩, hstart, h⟩ := bind_eq_ok.mp h
  obtain ⟨done, hdrain, h⟩ := bind_eq_ok.mp h
  obtain ⟨batch, hfinish, h⟩ := bind_eq_ok.mp h
  split at h
  · exact absurd h throw_ne_ok
  · next m rest hcompiled =>
      obtain ⟨pointer, habsent, h⟩ := bind_eq_ok.mp h
      obtain ⟨rfl, hfacts⟩ := Prod.mk.inj (pure_eq_ok.mp h)
      obtain ⟨hname, hfacts⟩ := Prod.mk.inj hfacts
      obtain ⟨hclass, hnames⟩ := Prod.mk.inj hfacts
      have hbatch : c.compileAll [] = .ok batch := compileWithin_of_parts hstart hdrain hfinish
      obtain ⟨w', enums', done', hstart', hdrain', -, hleft⟩ := compileWithin_absent hbatch
      cases hstart.symm.trans hstart'
      cases hdrain.symm.trans hdrain'
      have hbadge : c.mapper.names.classOf (Pointer.name (Pointer.toSchema "Badge")) = "BadgeDto" := by
        rw [show Pointer.name (Pointer.toSchema "Badge") = "Badge" by decide]
        exact hclass
      have hthis := hleft m (by simp [hcompiled]) 1 _ habsent
      rw [hbadge, hname] at hthis
      exact ⟨c, batch, hc, hbatch, hthis (by rw [hnames]; decide)⟩

/-! ## The name of another class -/

/-- A document in which the profile of a user is described in place, and a profile that is not there
would have a class of the same name. -/
def mistaken : Document where
  tag := 0
  root := .obj [("components", .obj [("schemas", .obj [
    ("User", .obj [("properties", .obj [
      ("profile", .obj [("properties", .obj [("bio", .obj [("type", .str "string")])])]),
      ("other", referenceTo "UserProfile")])])])])]
  linked := false

/-- The properties of a model with their types, by their names. -/
def typesOf (m : Model) : List (String × String) :=
  m.properties.map fun p => (p.name, p.typeExpression)

/-- In `mistaken` the property that refers to the absent schema gets the class of the other one, also
from a strict compiler, and nothing is left out. -/
theorem mistaken_typed :
    ∃ c batch, ofDocument mistaken true none = .ok c ∧ c.compileAll [] = .ok batch ∧
      c.mapper.resolver.find (Pointer.toSchema "UserProfile") = .ok none ∧
      batch.skipped = [] ∧
      (batch.model? "UserDto").map typesOf =
        some [("profile", "UserProfileDto"), ("other", "UserProfileDto")] := by
  have hrun : (do
      let c ← ofDocument mistaken true none
      let batch ← c.compileAll []
      let found ← c.mapper.resolver.find (Pointer.toSchema "UserProfile")
      pure (found, batch.skipped, (batch.model? "UserDto").map typesOf)).toOption =
      some (none, [], some [("profile", "UserProfileDto"), ("other", "UserProfileDto")]) := by
    with_unfolding_all decide
  obtain ⟨c, hc, h⟩ := bind_eq_ok.mp (eq_ok_of_toOption hrun)
  obtain ⟨batch, hbatch, h⟩ := bind_eq_ok.mp h
  obtain ⟨found, hfound, h⟩ := bind_eq_ok.mp h
  obtain ⟨rfl, hrest⟩ := Prod.mk.inj (pure_eq_ok.mp h)
  obtain ⟨hskipped, htypes⟩ := Prod.mk.inj hrest
  exact ⟨c, batch, hc, hbatch, hfound, hskipped, htypes⟩

end ApiScaffold.ModelCompiler
