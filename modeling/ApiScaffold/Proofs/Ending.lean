import ApiScaffold.Proofs.Runs
import ApiScaffold.Proofs.World
import Mathlib.Data.Finite.Prod
import Mathlib.Order.OrderIsoNat

set_option autoImplicit false

/-! # When the worklist ends

Models that a name, a pointer or a caller stands for are finitely many, since the documents are
finite. So a worklist that never ends goes on making classes in place for objects in the schemas of
classes made in place. That happens exactly when there is an endless chain of them, and it takes a
schema that leads to itself without a model in between. -/

namespace ApiScaffold.ModelCompiler

open Mapper

variable {c : ModelCompiler} {w v v' : Worklist}

/-! ## Classes in place -/

/-- In the run from a worklist, taking a model registers a class in place. -/
def MadeInPlace (c : ModelCompiler) (w : Worklist) (a b : Entry) : Prop :=
  ∃ n v v', Run c w n v ∧ Takes c v a v' ∧ b ∈ v'.registry.entries ∧
    b.name ∉ v.registry.names ∧ b.source = "inline"

/-- The worklist ends: after some number of models none is waiting, unless a fault came first. -/
def Ends (c : ModelCompiler) (w : Worklist) : Prop :=
  ∃ limit, ∀ done, c.drain limit w = .ok done → done.registry.waiting = []

theorem Run.not_ended {n limit : Nat} (h : Run c w n v) (hmore : v.registry.waiting ≠ [])
    (hend : ∀ done, c.drain limit w = .ok done → done.registry.waiting = []) : n < limit := by
  by_contra hle
  obtain ⟨k, rfl⟩ := Nat.exists_eq_add_of_le (Nat.le_of_not_lt hle)
  have hdrain := drain_of_run h
  rw [drain_add] at hdrain
  obtain ⟨done, hdone, hrest⟩ := bind_eq_ok.mp hdrain
  rw [drain_of_empty (hend done hdone)] at hrest
  cases hrest
  exact hmore (hend v hdone)

/-- A worklist that ends has no endless chain of classes in place. -/
theorem Ends.no_chain (h : Ends c w) {chain : Nat → Entry}
    (hchain : ∀ i, MadeInPlace c w (chain i) (chain (i + 1))) : False := by
  choose n v v' hrun htakes hmem hnew hsource using hchain
  -- a class that is made in one step is taken in a later one
  have hmono : StrictMono n := by
    refine strictMono_nat_of_lt_succ fun i => ?_
    by_contra hle
    have hwaiting : chain (i + 1) ∈ (v (i + 1)).registry.entries :=
      List.mem_append_right _ (htakes (i + 1)).registry.2.1
    have hext := (hrun (i + 1)).extends_of_le (hrun i) (Nat.le_of_not_lt hle)
    exact hnew i (List.mem_map_of_mem (hext.subset hwaiting))
  obtain ⟨limit, hend⟩ := h
  have hlt := (hrun limit).not_ended (htakes limit).waiting_ne_nil hend
  exact absurd (hmono.le_apply (x := limit)) (Nat.not_le_of_lt hlt)

/-! ## The world of a run -/

section World

variable {D : Set Document} {V : Set Json}

theorem offers_of_world (h : World D V) (hr : c.mapper.resolver.document ∈ D)
    (hcomponents : Lives D V c.mapper.components) : Offers (Lives D V) c where
  closed := h.closed
  top := ⟨hr, h.root _ hr⟩
  fields _ hfields := h.closed.fields hcomponents hfields
  get _ _ hget := h.closed.get hcomponents hget

/-- All schemas that a run begins with live in a finite world. -/
theorem start_world {extra : List (String × Node)} {enums : EnumCollection}
    (hstart : c.start extra = .ok (w, enums)) :
    ∃ D V, World D V ∧ D.Finite ∧ V.Finite ∧ c.mapper.resolver.document ∈ D ∧
      Lives D V c.mapper.components ∧ SchemasIn (Lives D V) w.registry := by
  obtain ⟨D, V, h, hD, hV, hnodes⟩ := exists_world
    (c.mapper.components :: c.mapper.resolver.document.top :: extra.map (·.2))
  have hcomponents : Lives D V c.mapper.components := hnodes _ (by simp)
  have htop : Lives D V c.mapper.resolver.document.top := hnodes _ (by simp)
  refine ⟨D, V, h, hD, hV, htop.1, hcomponents, ?_⟩
  refine start_schemasIn (offers_of_world h htop.1 hcomponents) (fun e he => ?_) hstart
  exact hnodes _ (List.mem_cons_of_mem _ (List.mem_cons_of_mem _ (List.mem_map_of_mem he)))

/-- The models of a run were there, or have their origin in its world; classes in place are made
when a model is taken. -/
theorem Run.origin {n : Nat} (hrun : Run c w n v) (h : World D V)
    (hr : c.mapper.resolver.document ∈ D) (hcomponents : Lives D V c.mapper.components)
    (hw : SchemasIn (Lives D V) w.registry) {e : Entry} (he : e ∈ v.registry.entries) :
    e ∈ w.registry.entries ∨ Origin c.mapper (Lives D V) v.registry e ∧
      (e.source = "inline" → ∃ a, MadeInPlace c w a e) := by
  induction hrun with
  | start => exact Or.inl he
  | @step n u u' a hrun ht ih =>
      rcases ht.origin he with he' | ⟨hnew, node, hnode, horigin⟩
      · rcases ih he' with he' | ⟨horigin, hmade⟩
        · exact Or.inl he'
        · exact Or.inr ⟨horigin.mono ht.registry.2.2, hmade⟩
      · have hoffers := offers_of_world h hr hcomponents
        have hlives : Lives D V node :=
          objectOf_in hoffers (hrun.schemasIn hoffers hw a
            (List.mem_append_right _ ht.registry.2.1)) hnode
        refine Or.inr ⟨horigin.weaken fun b hb => h.closed.inside ⟨hr, h.root _ hr⟩ hlives hb,
          fun hsource => ?_⟩
        exact ⟨a, n, u, u', hrun, ht, he, hnew, hsource⟩

/-- In a finite world there are finitely many names and pointers that models are named by. -/
theorem finite_namedBy {m : Mapper} (h : World D V) (hV : V.Finite) :
    {name | NamedBy m (Lives D V) name}.Finite := by
  have hpointers : {pointer : String | Json.str pointer ∈ V}.Finite :=
    hV.preimage fun a _ b _ hab => Json.str.inj hab
  have hfields : {name | ∃ fields, m.components.fields = .ok fields ∧
      name ∈ fields.map (·.1)}.Finite := by
    cases hfound : m.components.fields with
    | error fault => simp
    | ok fields => simpa using List.finite_toSet (fields.map (·.1))
  refine (hfields.union (hpointers.image Pointer.name)).subset ?_
  rintro name (hname | ⟨n, pointer, hn, hp, rfl⟩)
  · exact Or.inl hname
  · exact Or.inr ⟨pointer, hn.pointer? h hp, rfl⟩

end World

/-! ## Endless runs -/

/-- In a forest of finite branching with finitely many roots some branch is endless. -/
theorem exists_branch {r : Nat → Nat → Prop} (hlt : ∀ i j, r i j → i < j)
    (hchildren : ∀ i, {j | r i j}.Finite) (hroots : {j | ∀ i, ¬ r i j}.Finite) :
    ∃ f : Nat → Nat, ∀ i, r (f i) (f (i + 1)) := by
  by_contra hnone
  have hwf : WellFounded (fun j i => r i j) := by
    exact wellFounded_iff_isEmpty_descending_chain.mpr ⟨fun ⟨f, hf⟩ => hnone ⟨f, hf⟩⟩
  -- what lies below a place is finite, since below each of its children it is
  have hbelow : ∀ i, {j | Relation.ReflTransGen r i j}.Finite := by
    intro i
    induction i using hwf.induction with
    | _ i ih =>
        refine ((Set.finite_singleton i).union ((hchildren i).biUnion fun k hk => ih k hk)).subset
          fun j hj => ?_
        rcases Relation.ReflTransGen.cases_head hj with rfl | ⟨k, hk, hkj⟩
        · exact Or.inl rfl
        · exact Or.inr (Set.mem_biUnion hk hkj)
  have hall : ∀ j, ∃ i ∈ {j | ∀ i, ¬ r i j}, Relation.ReflTransGen r i j := by
    intro j
    induction j using Nat.strong_induction_on with
    | _ j ih =>
        by_cases hroot : ∀ i, ¬ r i j
        · exact ⟨j, hroot, .refl⟩
        · obtain ⟨k, hk⟩ := not_forall_not.mp hroot
          obtain ⟨i, hi, hik⟩ := ih k (hlt k j hk)
          exact ⟨i, hi, hik.tail hk⟩
  refine Set.infinite_univ ((hroots.biUnion fun i _ => hbelow i).subset fun j _ => ?_)
  obtain ⟨i, hi, hij⟩ := hall j
  exact Set.mem_biUnion hi hij

theorem Takes.unique {e e' : Entry} {u : Worklist} (h : Takes c v e v') (h' : Takes c v e' u) :
    e = e' := by
  obtain ⟨registry, hpop, -⟩ := h
  obtain ⟨registry', hpop', -⟩ := h'
  rw [hpop] at hpop'
  cases hpop'
  rfl

/-- A run that goes on for ever, with the model that is taken in each step. -/
structure Endless (c : ModelCompiler) (w : Worklist) (v : Nat → Worklist) (a : Nat → Entry) :
    Prop where
  run : ∀ n, Run c w n (v n)
  takes : ∀ n, Takes c (v n) (a n) (v (n + 1))

theorem exists_endless (h : ¬ Ends c w) : ∃ v a, Endless c w v a := by
  have hruns : ∀ n, ∃ v, Run c w n v := by
    intro n
    obtain ⟨v, hv⟩ := not_forall.mp (not_exists.mp h n)
    obtain ⟨hdrain, hmore⟩ := Classical.not_imp.mp hv
    exact ⟨v, run_of_drain hdrain hmore⟩
  choose v hv using hruns
  have htakes : ∀ n, ∃ a, Takes c (v n) a (v (n + 1)) := by
    intro n
    cases hv (n + 1) with
    | step hu ht =>
        obtain rfl := hu.unique (hv n)
        exact ⟨_, ht⟩
  choose a ha using htakes
  exact ⟨v, a, hv, ha⟩

section Endless

variable {vs : Nat → Worklist} {a : Nat → Entry}

theorem Endless.inj (h : Endless c w vs a) (hw : Consistent c w) {i j : Nat}
    (hname : (a i).name = (a j).name) : i = j :=
  Nat.le_antisymm ((h.run j).le_of_takes hw (h.takes j) (h.run i) (h.takes i) hname.symm)
    ((h.run i).le_of_takes hw (h.takes i) (h.run j) (h.takes j) hname)

theorem Endless.finite_names (h : Endless c w vs a) (hw : Consistent c w) {names : Set String}
    (hfinite : names.Finite) : {j | (a j).name ∈ names}.Finite :=
  hfinite.preimage fun _ _ _ _ hname => h.inj hw hname

/-- When a class in place was made, in an endless run. -/
theorem Endless.madeInPlace (h : Endless c w vs a) (hw : Consistent c w) {i : Nat} {e : Entry}
    (hmade : MadeInPlace c w (a i) e) :
    e ∈ (vs (i + 1)).registry.entries ∧ e.name ∉ (vs i).registry.names := by
  obtain ⟨n, u, u', hu, ht, hmem, hnew, -⟩ := hmade
  have hle := (h.run i).le_of_takes hw (h.takes i) hu ht rfl
  have hge := hu.le_of_takes hw ht (h.run i) (h.takes i) rfl
  obtain rfl : n = i := Nat.le_antisymm hle hge
  rw [← (hu.step ht).unique (h.run (n + 1)), ← hu.unique (h.run n)]
  exact ⟨hmem, hnew⟩

theorem Endless.lt_of_madeInPlace (h : Endless c w vs a) (hw : Consistent c w) {i j : Nat}
    (hmade : MadeInPlace c w (a i) (a j)) : i < j := by
  by_contra hle
  have hwaiting : a j ∈ (vs j).registry.entries :=
    List.mem_append_right _ (h.takes j).registry.2.1
  have hext := (h.run j).extends_of_le (h.run i) (Nat.le_of_not_lt hle)
  exact (h.madeInPlace hw hmade).2 (List.mem_map_of_mem (hext.subset hwaiting))

/-- In some step a model was taken that a pointer stands for: its name is still the one that would
be claimed. -/
def ClaimedFor (c : ModelCompiler) (vs : Nat → Worklist) (a : Nat → Entry) (pointer : String)
    (j : Nat) : Prop :=
  ∃ t, c.mapper.resolver.find pointer = .ok (some t) ∧
    (vs j).registry.claim (Naming.capitalize (Pointer.name pointer)) t "reference" =
      .ok ((a j).name, (vs j).registry)

/-- A pointer stands for one class at most. -/
theorem Endless.eq_of_claimedFor (h : Endless c w vs a) (hw : Consistent c w) {pointer : String}
    {i j : Nat} (hi : ClaimedFor c vs a pointer i) (hj : ClaimedFor c vs a pointer j)
    (hle : i ≤ j) : i = j := by
  obtain ⟨t, ht, hclaim⟩ := hi
  obtain ⟨t', ht', hclaim'⟩ := hj
  obtain rfl : t = t' := Option.some.inj (Except.ok.inj (ht.symm.trans ht'))
  have hagain := Registry.claim_again (isAbsent_of_find ht) hclaim
    ((h.run i).extends_of_le (h.run j) hle)
  exact h.inj hw (Prod.mk.inj (Except.ok.inj (hagain.symm.trans hclaim'))).1

theorem Endless.finite_claimedFor (h : Endless c w vs a) (hw : Consistent c w)
    {pointers : Set String} (hfinite : pointers.Finite) :
    {j | ∃ pointer ∈ pointers, ClaimedFor c vs a pointer j}.Finite := by
  have hone : ∀ pointer, {j | ClaimedFor c vs a pointer j}.Subsingleton := by
    intro pointer i hi j hj
    rcases Nat.le_total i j with hle | hle
    · exact h.eq_of_claimedFor hw hi hj hle
    · exact (h.eq_of_claimedFor hw hj hi hle).symm
  refine (hfinite.biUnion fun pointer _ => (hone pointer).finite).subset ?_
  rintro j ⟨pointer, hpointer, hj⟩
  exact Set.mem_biUnion hpointer hj

/-- All but finitely many models of an endless run are classes in place. -/
theorem Endless.finite_roots (h : Endless c w vs a) (hw : Consistent c w) {D : Set Document}
    {V : Set Json} (hworld : World D V) (hV : V.Finite)
    (hr : c.mapper.resolver.document ∈ D) (hcomponents : Lives D V c.mapper.components)
    (hlive : SchemasIn (Lives D V) w.registry) :
    {j | ∀ i, ¬ MadeInPlace c w (a i) (a j)}.Finite := by
  have hfirst := h.finite_names hw (List.finite_toSet w.registry.names)
  have hnamed := h.finite_names hw
    ((finite_namedBy (m := c.mapper) hworld hV).image c.mapper.names.classOf)
  have hclaimed := h.finite_claimedFor hw
    (hV.preimage fun a _ b _ hab => Json.str.inj hab : {p | Json.str p ∈ V}.Finite)
  refine ((hfirst.union hnamed).union hclaimed).subset fun j hroot => ?_
  have hmem : a j ∈ (vs j).registry.entries :=
    List.mem_append_right _ (h.takes j).registry.2.1
  rcases (h.run j).origin hworld hr hcomponents hlive hmem with hmem | ⟨horigin, hmade⟩
  · exact Or.inl (Or.inl (List.mem_map_of_mem hmem))
  · cases horigin with
    | named he =>
        obtain ⟨name, hname, hby⟩ := he.name
        exact Or.inl (Or.inr ⟨name, hby, hname.symm⟩)
    | target hn hp ht _ _ hclaim => exact Or.inr ⟨_, hn.pointer? hworld hp, _, ht, hclaim⟩
    | inPlace _ hsource _ =>
        obtain ⟨e, hmade⟩ := hmade hsource
        obtain ⟨n, u, u', hu, ht, -⟩ := id hmade
        obtain rfl := hu.unique (h.run n)
        obtain rfl := ht.unique (h.takes n)
        exact absurd hmade (hroot n)

/-- An endless run has an endless chain of classes in place. -/
theorem Endless.exists_chain (h : Endless c w vs a) (hw : Consistent c w) {D : Set Document}
    {V : Set Json} (hworld : World D V) (hV : V.Finite)
    (hr : c.mapper.resolver.document ∈ D) (hcomponents : Lives D V c.mapper.components)
    (hlive : SchemasIn (Lives D V) w.registry) :
    ∃ chain : Nat → Entry, ∀ i, MadeInPlace c w (chain i) (chain (i + 1)) := by
  have hchildren : ∀ i, {j | MadeInPlace c w (a i) (a j)}.Finite := by
    intro i
    refine (h.finite_names hw (List.finite_toSet (vs (i + 1)).registry.names)).subset ?_
    intro j hmade
    exact List.mem_map_of_mem (h.madeInPlace hw hmade).1
  obtain ⟨f, hf⟩ := exists_branch (fun i j => h.lt_of_madeInPlace hw) hchildren
    (h.finite_roots hw hworld hV hr hcomponents hlive)
  exact ⟨fun i => a (f i), hf⟩

end Endless

/-! ## A schema that never ends

An object in place of which a property leads back to it, through a named schema that is no model,
gets a longer name each time that it is reached. -/

section Tree

/-- A reference to a named union of which the only variant is an object in place. -/
def treePointer : String := Pointer.toSchema "Tree"

def treeReference : Json := .obj [("$ref", .str treePointer)]

/-- The object in place: its property is of the type of the union. -/
def branchValue : Json := .obj [("properties", .obj [("a", treeReference)])]

def treeDocument : Document where
  tag := 0
  root := .obj [("components", .obj [("schemas", .obj [
    ("Tree", .obj [("oneOf", .arr [branchValue])]),
    ("Root", .obj [("properties", .obj [("tree", treeReference)])])])])]
  linked := false

def treeMapper : Mapper where
  components :=
    { document := treeDocument
      trail := [.key "schemas", .key "components"]
      value := .obj [
        ("Tree", .obj [("oneOf", .arr [branchValue])]),
        ("Root", .obj [("properties", .obj [("tree", treeReference)])])] }
  resolver := ⟨treeDocument, none⟩
  names := ⟨[("Tree", "TreeDto"), ("Root", "RootDto")]⟩

def treeCompiler : ModelCompiler := ⟨treeMapper, false⟩

def treeNode : Node :=
  treeMapper.components.part (.key "Tree") (.obj [("oneOf", .arr [branchValue])])

def branch : Node :=
  (treeNode.part (.key "oneOf") (.arr [branchValue])).part (.index 0) branchValue

def branchLink : Node :=
  (branch.part (.key "properties") (.obj [("a", treeReference)])).part (.key "a") treeReference

theorem isObject_branch : branch.isObject = .ok true := eq_ok_of_toOption (by decide)

theorem typeOf_branch : Schema.typeOf branch = .ok .null := eq_ok_of_toOption (by decide)

theorem isObject_branchLink : branchLink.isObject = .ok true :=
  eq_ok_of_toOption (by decide)

theorem mapWithin_branch (ctx : MappingContext) (fuel : Nat) (following : List String) :
    treeMapper.mapWithin ctx (fuel + 1) following branch = (do
      match ← synthesize branch ctx "" with
      | some name => return .ofClass name
      | none => return .any) := by
  have hpointer : branch.pointer? = .ok none := eq_ok_of_toOption (by decide)
  have hmember : onlyMember? branch = .ok none := eq_ok_of_toOption (by decide)
  have hvariants : variants branch = .ok [] := eq_ok_of_toOption (by decide)
  have hinline : Schema.isInlineObject branch = .ok true := eq_ok_of_toOption (by decide)
  have hmatch : treeMapper.structuralMatch branch = .ok none :=
    eq_ok_of_toOption (by decide)
  rw [mapWithin, isObject_branch]
  simp only [liftM_ok, pure_bind, hpointer, hmember, hvariants, typeOf_branch, hinline,
    Bool.not_true, Bool.false_eq_true, if_false, if_true, mapInlineObject, hmatch]
  rfl

/-- The union is what its only variant is. -/
theorem mapWithin_tree (ctx : MappingContext) (fuel : Nat) (following : List String) :
    treeMapper.mapWithin ctx (fuel + 2) following treeNode =
      treeMapper.mapWithin ctx (fuel + 1) following branch := by
  have hobject : treeNode.isObject = .ok true := eq_ok_of_toOption (by decide)
  have hpointer : treeNode.pointer? = .ok none := eq_ok_of_toOption (by decide)
  have hmember : onlyMember? treeNode = .ok none := eq_ok_of_toOption (by decide)
  have hvariants : variants treeNode = .ok [branch] := eq_ok_of_toOption (by decide)
  have hone : mapVariants (treeMapper.mapWithin ctx (fuel + 1)) following [branch] =
      (do return [← treeMapper.mapWithin ctx (fuel + 1) following branch]) := by
    simp [mapVariants, typeOf_branch, liftM_ok]
  have hsame : ∀ t : MappedType, unionType [t] = t := fun t => rfl
  rw [mapWithin, hobject]
  simp only [liftM_ok, pure_bind, hpointer, hmember, hvariants, Bool.not_true,
    Bool.false_eq_true, if_false]
  rw [mapUnion_eq, hone, bind_assoc]
  simp only [pure_bind, hsame, bind_pure]

theorem mapWithin_link (ctx : MappingContext) (fuel : Nat) :
    treeMapper.mapWithin ctx (fuel + 3) [] branchLink =
      treeMapper.mapWithin ctx (fuel + 1) [treePointer] branch := by
  have hpointer : branchLink.pointer? = .ok (some treePointer) :=
    eq_ok_of_toOption (by decide)
  have hfind : treeMapper.resolver.find treePointer = .ok (some treeNode) :=
    eq_ok_of_toOption (by decide)
  have hmodel : Schema.isModel treeNode = .ok false := eq_ok_of_toOption (by decide)
  have henum : Schema.isStringEnum treeNode = .ok false := eq_ok_of_toOption (by decide)
  rw [mapWithin, isObject_branchLink]
  simp only [liftM_ok, pure_bind, hpointer, Bool.not_true, Bool.false_eq_true, if_false,
    mapReference, hfind, hmodel, Bool.not_false, if_true, mapAlias, henum]
  exact mapWithin_tree ctx fuel [treePointer]

theorem yields_link (ctx : MappingContext) {s : MapperState} {name : String} {registry : Registry}
    (hclaim : s.registry.claim (ctx.base ++ Naming.capitalize ctx.property ++ "") branch "inline" =
      .ok (name, registry)) (hopen : isBlocked ctx name = false) :
    Yields (treeMapper.mapProperty branchLink ctx) s (.ofClass name)
      ⟨registry, addNew s.dependencies name⟩ := by
  have hdepth : 3 ≤ treeMapper.depth branchLink := by decide
  obtain ⟨fuel, hfuel⟩ := Nat.exists_eq_add_of_le' hdepth
  rw [mapProperty, hfuel, mapWithin_link, mapWithin_branch]
  refine yields_bind.mpr ⟨some name, ⟨registry, addNew s.dependencies name⟩, ?_, ?_⟩
  · refine yields_bind.mpr ⟨name, ⟨registry, s.dependencies⟩, ?_, ?_⟩
    · exact yields_claim.mpr ⟨registry, hclaim, rfl⟩
    · rw [if_neg (by simp [hopen])]
      exact yields_bind.mpr ⟨(), _, yields_depend.mpr rfl, yields_pure.mpr ⟨rfl, rfl⟩⟩
  · exact yields_pure.mpr ⟨rfl, rfl⟩

theorem yields_linkProperty {ctx : MappingContext} {s t : MapperState} {mapped : MappedType}
    (h : Yields (treeMapper.mapProperty branchLink ctx) s mapped t) :
    Yields (compileProperty treeMapper ctx false branchLink) s
      (propertyOf ctx.property false mapped none .null) t := by
  have hdescription : descriptionOf .property branchLink = .ok none :=
    eq_ok_of_toOption (by decide)
  have hsample : (do (← branchLink.get "example").excerpt) = .ok Excerpt.null :=
    eq_ok_of_toOption (by decide)
  refine yields_bind.mpr ⟨mapped, t, h, ?_⟩
  refine yields_bind.mpr ⟨true, t, yields_lift.mpr ⟨isObject_branchLink, rfl⟩, ?_⟩
  refine yields_bind.mpr ⟨none, t, yields_lift.mpr ⟨hdescription, rfl⟩, ?_⟩
  exact yields_bind.mpr ⟨.null, t, yields_lift.mpr ⟨hsample, rfl⟩, yields_pure.mpr ⟨rfl, rfl⟩⟩

/-- Compiled under a name, the object in place claims a longer one for itself. -/
theorem compileOn_branch {r : Registry} {b : String} (hb : b ≠ "")
    (hfree : ModelName.ofBase (b ++ "A") ∉ r.names) :
    ∃ model, compileOn treeMapper r (ModelName.ofBase b) "inline" [] branch =
      .ok (model, r.register
        (Registry.claimed (ModelName.ofBase (b ++ "A")) branch "inline")) := by
  have hgathered : Gathered.ofSchema treeMapper.resolver branch =
      .ok { properties := [("a", branchLink)], required := [], visited := [branch] } :=
    eq_ok_of_toOption (by decide)
  have hdescription : descriptionOf .model branch = .ok none :=
    eq_ok_of_toOption (by decide)
  have hlonger : b ++ Naming.capitalize "a" ++ "" = b ++ "A" := by
    rw [show Naming.capitalize "a" = "A" by decide, String.append_empty]
  let ctx : MappingContext := ⟨ModelName.ofBase b, b, "a", []⟩
  have hopen : isBlocked ctx (ModelName.ofBase (b ++ "A")) = false := by
    simp [ctx, isBlocked, Registry.ofBase_inj, String.append_eq_left_iff]
  have hclaim : r.claim (b ++ Naming.capitalize "a" ++ "") branch "inline" =
      .ok (ModelName.ofBase (b ++ "A"),
        r.register (Registry.claimed (ModelName.ofBase (b ++ "A")) branch "inline")) := by
    rw [hlonger]
    exact Registry.claim_of_free "inline" hfree
  have hlink := yields_linkProperty (@yields_link ctx ⟨r, []⟩ _ _ hclaim hopen)
  let p := propertyOf "a" false (.ofClass (ModelName.ofBase (b ++ "A"))) none .null
  have hproperties : Yields
      (compileProperties treeMapper (ModelName.ofBase b) []
        { properties := [("a", branchLink)], required := [], visited := [branch] })
      ⟨r, []⟩ [p]
      ⟨r.register (Registry.claimed (ModelName.ofBase (b ++ "A")) branch "inline"),
        addNew [] (ModelName.ofBase (b ++ "A"))⟩ := by
    rw [compileProperties, ModelName.base_ofBase hb, List.mapM_cons]
    refine yields_bind.mpr ⟨p, _, hlink, ?_⟩
    exact yields_pure.mpr ⟨rfl, rfl⟩
  exact ⟨_, compileOn_eq_ok.mpr ⟨_, yields_compileModel.mpr
    ⟨_, [p], none, hgathered, hproperties, hdescription, rfl⟩, rfl⟩⟩

/-- Only the object in place is waiting, under some name, and no name is longer. -/
structure Growing (b : String) (w : Worklist) : Prop where
  ne_empty : b ≠ ""
  waiting : w.registry.waiting = [Registry.claimed (ModelName.ofBase b) branch "inline"]
  longest : ∀ name ∈ w.registry.names, name.length ≤ (ModelName.ofBase b).length

theorem Growing.takes {b : String} (h : Growing b w) :
    ∃ w', Takes treeCompiler w (Registry.claimed (ModelName.ofBase b) branch "inline") w' ∧
      Growing (b ++ "A") w' := by
  let e := Registry.claimed (ModelName.ofBase b) branch "inline"
  let next : Registry := { taken := w.registry.taken ++ [e], waiting := [] }
  have hpop : w.registry.pop? = some (e, next) := by
    rw [Registry.pop?, h.waiting]
  have hnames : next.names = w.registry.names := by
    rw [Registry.names, Registry.entries_pop? hpop, Registry.names]
  have hlonger : (ModelName.ofBase b).length < (ModelName.ofBase (b ++ "A")).length := by
    simp [ModelName.ofBase, String.length_append, show "A".length = 1 from rfl]
  have hfree : ModelName.ofBase (b ++ "A") ∉ next.names := by
    intro hmem
    rw [hnames] at hmem
    exact absurd (h.longest _ hmem) (Nat.not_le_of_lt hlonger)
  obtain ⟨model, hmodel⟩ := compileOn_branch h.ne_empty hfree
  have hobject : treeCompiler.objectOf e = .ok (some branch) := by
    unfold objectOf
    rw [show treeCompiler.schemaOf e = .ok (some branch) from rfl]
    simp only [bind, Except.bind, isObject_branch]
    rfl
  let grown := next.register (Registry.claimed (ModelName.ofBase (b ++ "A")) branch "inline")
  refine ⟨⟨grown, w.compiled ++ [⟨model, branch⟩], w.skipped⟩, ⟨next, hpop, ?_⟩, ?_, ?_, ?_⟩
  · rw [compileEntry, hobject]
    simp only [bind, Except.bind]
    rw [show e.name = ModelName.ofBase b from rfl, show e.source = "inline" from rfl,
      show treeCompiler.mapper = treeMapper from rfl, hmodel]
    rfl
  · simp
  · have hgrown : grown = { next with waiting := next.waiting ++ [_] } :=
      Registry.register_of_notMem hfree
    rw [hgrown]
    rfl
  · intro name hname
    rcases Registry.mem_names_register.mp hname with hname | rfl
    · rw [hnames] at hname
      exact (h.longest name hname).trans hlonger.le
    · exact le_refl _

theorem Growing.not_ends {n : Nat} {b : String} (h : Growing b v)
    (hrun : Run treeCompiler w n v) : ¬ Ends treeCompiler w := by
  have hgrows : ∀ k, ∃ u b', Run treeCompiler w (n + k) u ∧ Growing b' u := by
    intro k
    induction k with
    | zero => exact ⟨v, b, hrun, h⟩
    | succ k ih =>
        obtain ⟨u, b', hu, hgrowing⟩ := ih
        obtain ⟨u', ht, hgrowing'⟩ := hgrowing.takes
        exact ⟨u', _, hu.step ht, hgrowing'⟩
  rintro ⟨limit, hend⟩
  obtain ⟨u, b', hu, hgrowing⟩ := hgrows limit
  have hlt := hu.not_ended (by simp [hgrowing.waiting]) hend
  omega

theorem exists_growing : ∃ w enums v, treeCompiler.start [] = .ok (w, enums) ∧
    Run treeCompiler w 1 v ∧ Growing "RootTree" v := by
  have hfirst : ((treeCompiler.start [] >>= fun s => treeCompiler.drain 1 s.1).toOption.map
      fun v => (v.registry.waiting, v.registry.names)) =
      some ([Registry.claimed "RootTreeDto" branch "inline"], ["RootDto", "RootTreeDto"]) := by
    decide +kernel
  obtain ⟨v, hv, hfacts⟩ := Option.map_eq_some_iff.mp hfirst
  obtain ⟨⟨w, enums⟩, hstart, hdrain⟩ := bind_eq_ok.mp (eq_ok_of_toOption hv)
  obtain ⟨hwaiting, hnames⟩ := Prod.mk.inj hfacts
  refine ⟨w, enums, v, hstart, run_of_drain hdrain (by simp [hwaiting]), by decide, hwaiting, ?_⟩
  rw [hnames]
  decide

end Tree

/-! ## Schemas that lead to themselves -/

/-- A schema that a class was made in place for is one of those inside the schema of the model that
was taken. -/
theorem inside_of_madeInPlace {a b : Entry} {node node' : Node}
    (hmade : MadeInPlace c w a b) (ha : c.objectOf a = .ok (some node))
    (hb : c.objectOf b = .ok (some node')) : Inside c.mapper node node' := by
  obtain ⟨n, u, u', hu, ht, hmem, hnew, hsource⟩ := hmade
  rcases ht.origin hmem with hmem | ⟨-, found, hfound, horigin⟩
  · exact absurd (List.mem_map_of_mem hmem) hnew
  · obtain rfl : node = found := Option.some.inj (Except.ok.inj (ha.symm.trans hfound))
    cases horigin with
    | named he =>
        rw [he.source] at hsource
        exact absurd hsource (by decide)
    | target _ _ _ href _ _ =>
        rw [href] at hsource
        exact absurd hsource (by decide)
    | inPlace hinside _ hschema =>
        have hnode := (objectOf_eq_some hb).1
        rw [schemaOf, hschema] at hnode
        exact Option.some.inj (Except.ok.inj hnode) ▸ hinside

/-- Along an endless chain of classes in place a schema comes back. -/
theorem exists_again_inside {D : Set Document} {V : Set Json}
    (hworld : World D V) (hD : D.Finite) (hV : V.Finite)
    (hr : c.mapper.resolver.document ∈ D) (hcomponents : Lives D V c.mapper.components)
    (hlive : SchemasIn (Lives D V) w.registry) {chain : Nat → Entry}
    (hchain : ∀ i, MadeInPlace c w (chain i) (chain (i + 1))) :
    ∃ a b, Relation.TransGen (Inside c.mapper) a b ∧ b.document = a.document ∧
      b.value = a.value := by
  have hnodes : ∀ i, ∃ node, c.objectOf (chain i) = .ok (some node) ∧ Lives D V node := by
    intro i
    obtain ⟨n, u, u', hu, ht, hmem, hnew, -⟩ := hchain i
    rcases ht.origin hmem with hmem | ⟨-, node, hnode, -⟩
    · exact absurd (List.mem_map_of_mem hmem) hnew
    · have hoffers := offers_of_world hworld hr hcomponents
      exact ⟨node, hnode, objectOf_in hoffers (hu.schemasIn hoffers hlive _
        (List.mem_append_right _ ht.registry.2.1)) hnode⟩
  choose node hnode hlives using hnodes
  have hinside : ∀ i, Inside c.mapper (node i) (node (i + 1)) :=
    fun i => inside_of_madeInPlace (hchain i) (hnode i) (hnode (i + 1))
  obtain ⟨i, j, hlt, heq⟩ := (hD.prod hV).exists_lt_map_eq_of_forall_mem
    (f := fun i => ((node i).document, (node i).value)) fun i => hlives i
  obtain ⟨hdocument, hvalue⟩ := Prod.mk.inj heq
  have hpath : ∀ k, Relation.TransGen (Inside c.mapper) (node i) (node (i + k + 1)) := by
    intro k
    induction k with
    | zero => exact .single (hinside i)
    | succ k ih => exact ih.tail (hinside (i + k + 1))
  obtain ⟨k, rfl⟩ := Nat.exists_eq_add_of_lt hlt
  exact ⟨node i, node (i + k + 1), hpath k, hdocument.symm, hvalue.symm⟩

/-- The worklist ends exactly when there is no endless chain of classes in place, and it ends when
no schema comes back inside itself without a model in between. -/
theorem ends_iff {extra : List (String × Node)} {enums : EnumCollection}
    (hstart : c.start extra = .ok (w, enums)) :
    (Ends c w ↔ ¬ ∃ chain : Nat → Entry, ∀ i, MadeInPlace c w (chain i) (chain (i + 1))) ∧
      ((∀ a b, Relation.TransGen (Inside c.mapper) a b → b.document = a.document →
        b.value ≠ a.value) → Ends c w) := by
  obtain ⟨D, V, hworld, hD, hV, hr, hcomponents, hlive⟩ := start_world hstart
  have hw : Consistent c w := start_consistent hstart
  have hchain : ¬ Ends c w →
      ∃ chain : Nat → Entry, ∀ i, MadeInPlace c w (chain i) (chain (i + 1)) := by
    intro hnot
    obtain ⟨v, a, hendless⟩ := exists_endless hnot
    exact hendless.exists_chain hw hworld hV hr hcomponents hlive
  refine ⟨⟨?_, ?_⟩, ?_⟩
  · rintro hends ⟨chain, hmade⟩
    exact hends.no_chain hmade
  · intro hnone
    by_contra hnot
    exact hnone (hchain hnot)
  · intro hapart
    by_contra hnot
    obtain ⟨chain, hmade⟩ := hchain hnot
    obtain ⟨a, b, hpath, hdocument, hvalue⟩ :=
      exists_again_inside hworld hD hV hr hcomponents hlive hmade
    exact hapart a b hpath hdocument hvalue

/-- The worklist of `treeDocument` never ends. -/
theorem tree_never_ends : ∃ c w enums, ofDocument treeDocument false none = .ok c ∧
    c.start [] = .ok (w, enums) ∧ ¬ Ends c w := by
  obtain ⟨w, enums, v, hstart, hrun, hgrowing⟩ := exists_growing
  exact ⟨treeCompiler, w, enums, eq_ok_of_toOption (by decide), hstart,
    hgrowing.not_ends hrun⟩

/-- The worklist of `treeDocument` makes an endless chain of classes in place, and some schema leads
to itself. -/
theorem tree_has_chain : ∃ w enums, treeCompiler.start [] = .ok (w, enums) ∧
    (∃ chain : Nat → Entry, ∀ i, MadeInPlace treeCompiler w (chain i) (chain (i + 1))) ∧
    ∃ a b, Relation.TransGen (Inside treeMapper) a b ∧ b.document = a.document ∧
      b.value = a.value := by
  obtain ⟨w, enums, v, hstart, hrun, hgrowing⟩ := exists_growing
  have hnot := hgrowing.not_ends hrun
  obtain ⟨hexact, hapart⟩ := ends_iff hstart
  refine ⟨w, enums, hstart, not_not.mp (fun hnone => hnot (hexact.mpr hnone)), ?_⟩
  by_contra hnone
  refine hnot (hapart fun a b hpath hdocument hvalue => hnone ?_)
  exact ⟨a, b, hpath, hdocument, hvalue⟩

end ApiScaffold.ModelCompiler
