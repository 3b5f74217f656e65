import ApiScaffold.Proofs.Ordering
import ApiScaffold.Proofs.Worklist
import Mathlib.Tactic.Ring

set_option autoImplicit false

/-! # Compiling models again

When all models are compiled, some are compiled again without models left out and without the edges
that close cycles. Every round leaves the registry as it is, and every model as it was first
compiled but for what is blocked for it then (`Reworked`). After one round that cuts back edges the
order has none (`Arranged.backEdges_nil`). -/

namespace ApiScaffold.ModelCompiler

open Mapper

variable {c : ModelCompiler} {done : Worklist}

/-! ## Blocked models -/

theorem blockedFor_cons (name : String) (targets : List String) (blocked : Blocked) (n : String) :
    blockedFor ((name, targets) :: blocked) n =
      if n = name then targets else blockedFor blocked n := by
  unfold blockedFor
  rw [List.lookup_cons]
  by_cases h : n = name
  · simp [h]
  · simp [h, beq_false_of_ne h]

theorem blockedFor_block (name : String) (targets : List String) (blocked : Blocked) (n : String) :
    blockedFor (block name targets blocked) n =
      if n = name then blockedFor blocked n ++ targets else blockedFor blocked n := by
  induction blocked with
  | nil =>
      rw [block, blockedFor_cons]
      rfl
  | cons entry blocked ih =>
      obtain ⟨known, old⟩ := entry
      rw [block]
      split
      · next h =>
          subst h
          rw [blockedFor_cons, blockedFor_cons]
          split
          · rfl
          · rfl
      · next h =>
          rw [blockedFor_cons, blockedFor_cons, ih]
          by_cases hn : n = known
          · rw [if_pos hn, if_pos hn, if_neg (hn ▸ h)]
          · rw [if_neg hn, if_neg hn]

theorem mem_blockedFor_forbid {backEdges : List (String × String)} {blocked : Blocked}
    {n d : String} :
    d ∈ blockedFor (forbid backEdges blocked) n ↔
      d ∈ blockedFor blocked n ∨ (n, d) ∈ backEdges := by
  induction backEdges generalizing blocked with
  | nil => simp [forbid]
  | cons e backEdges ih =>
      obtain ⟨source, target⟩ := e
      have hstep : forbid ((source, target) :: backEdges) blocked =
          forbid backEdges (block source [target] blocked) := rfl
      rw [hstep, ih, blockedFor_block]
      split
      · next h => simp [h, or_assoc]
      · next h => simp [h]

theorem blockedFor_forbid_of_notMem {backEdges : List (String × String)} {blocked : Blocked}
    {n : String} (h : n ∉ backEdges.map (·.1)) :
    blockedFor (forbid backEdges blocked) n = blockedFor blocked n := by
  induction backEdges generalizing blocked with
  | nil => rfl
  | cons e backEdges ih =>
      simp only [List.map_cons, List.mem_cons, not_or] at h
      have hstep : forbid (e :: backEdges) blocked =
          forbid backEdges (block e.1 [e.2] blocked) := rfl
      rw [hstep, ih h.2, blockedFor_block, if_neg h.1]

/-- What `dangling` lists, for any models and names left out. -/
def danglingFrom (skipped : List String) (compiled : List Compiled) : Blocked :=
  compiled.filterMap fun m =>
    match m.model.dependsOn.filter skipped.contains with
    | [] => none
    | missing => some (m.model.name, missing)

theorem blockedFor_danglingFrom_cons (skipped : List String) (m : Compiled)
    (compiled : List Compiled) (n : String) :
    blockedFor (danglingFrom skipped (m :: compiled)) n =
      if n = m.model.name ∧ m.model.dependsOn.filter skipped.contains ≠ [] then
        m.model.dependsOn.filter skipped.contains
      else blockedFor (danglingFrom skipped compiled) n := by
  unfold danglingFrom
  rw [List.filterMap_cons]
  generalize m.model.dependsOn.filter skipped.contains = missing
  cases missing with
  | nil => simp
  | cons d missing => simp [blockedFor_cons]

theorem blockedFor_danglingFrom_of_notMem {skipped : List String} {compiled : List Compiled}
    {n : String} (h : n ∉ compiledNames compiled) :
    blockedFor (danglingFrom skipped compiled) n = [] := by
  induction compiled with
  | nil => rfl
  | cons m compiled ih =>
      simp only [compiledNames, List.map_cons, List.mem_cons, not_or] at h
      rw [blockedFor_danglingFrom_cons, if_neg (fun hn => h.1 hn.1), ih h.2]

/-- The models left out that a model uses are those that dangle from it. -/
theorem blockedFor_danglingFrom {skipped : List String} {compiled : List Compiled}
    (hnodup : (compiledNames compiled).Nodup) {m : Compiled} (hm : m ∈ compiled) :
    blockedFor (danglingFrom skipped compiled) m.model.name =
      m.model.dependsOn.filter skipped.contains := by
  induction compiled with
  | nil => exact absurd hm List.not_mem_nil
  | cons m' compiled ih =>
      simp only [compiledNames, List.map_cons, List.nodup_cons] at hnodup
      rw [blockedFor_danglingFrom_cons]
      rcases List.mem_cons.mp hm with rfl | hm
      · split
        · rfl
        · next hnone =>
            have hempty : m.model.dependsOn.filter skipped.contains = [] := by
              by_contra hne
              exact hnone ⟨rfl, hne⟩
            rw [hempty, blockedFor_danglingFrom_of_notMem hnodup.1]
      · have hne : m.model.name ≠ m'.model.name := by
          intro heq
          exact hnodup.1 (heq ▸ List.mem_map_of_mem hm)
        rw [if_neg (fun hn => hne hn.1), ih hnodup.2 hm]

/-! ## Rounds of compiling again -/

/-- Models compiled again: each as it was first compiled, but for what is blocked for its name. -/
def Reworked (blockedOf : String → List String) : List Compiled → List Compiled → Prop :=
  List.Forall₂ fun m m' =>
    m'.schema = m.schema ∧ Recompiled (blockedOf m.model.name) m.model m'.model

theorem Reworked.refl (compiled : List Compiled) : Reworked (fun _ => []) compiled compiled :=
  List.forall₂_same.mpr fun m _ => ⟨rfl, Recompiled.refl m.model⟩

theorem Reworked.names {blockedOf : String → List String} {compiled compiled' : List Compiled}
    (h : Reworked blockedOf compiled compiled') :
    compiledNames compiled' = compiledNames compiled := by
  induction h with
  | nil => rfl
  | cons hm _ ih =>
      simp only [compiledNames, List.map_cons] at ih ⊢
      rw [hm.2.name, ih]

theorem Reworked.exists_first {blockedOf : String → List String}
    {compiled compiled' : List Compiled} (h : Reworked blockedOf compiled compiled')
    {m' : Compiled} (hm' : m' ∈ compiled') :
    ∃ m ∈ compiled, m'.schema = m.schema ∧
      Recompiled (blockedOf m.model.name) m.model m'.model := by
  induction h with
  | nil => exact absurd hm' List.not_mem_nil
  | cons hm _ ih =>
      rcases List.mem_cons.mp hm' with rfl | hm'
      · exact ⟨_, List.mem_cons_self, hm⟩
      · obtain ⟨m, hmem, hrel⟩ := ih hm'
        exact ⟨m, List.mem_cons_of_mem _ hmem, hrel⟩

theorem Reworked.exists_again {blockedOf : String → List String}
    {compiled compiled' : List Compiled} (h : Reworked blockedOf compiled compiled')
    {m : Compiled} (hm : m ∈ compiled) :
    ∃ m' ∈ compiled', Recompiled (blockedOf m.model.name) m.model m'.model := by
  induction h with
  | nil => exact absurd hm List.not_mem_nil
  | cons hrel _ ih =>
      rcases List.mem_cons.mp hm with rfl | hm
      · exact ⟨_, List.mem_cons_self, hrel.2⟩
      · obtain ⟨m', hmem, hagain⟩ := ih hm
        exact ⟨m', List.mem_cons_of_mem _ hmem, hagain⟩

/-- Compiling the model of a name again succeeds and leaves the registry as it is. -/
theorem recompile_reworked {blockedOf : String → List String} {compiled : List Compiled}
    (h : Consistent c done) (hre : Reworked blockedOf done.compiled compiled) (blocked : Blocked)
    (name : String) :
    ∃ compiled', c.recompile blocked (compiled, done.registry) name =
        .ok (compiled', done.registry) ∧
      Reworked (Function.update blockedOf name (blockedFor blocked name)) done.compiled
        compiled' := by
  have hall := (List.forall₂_and_left _ _).mpr ⟨fun m hm => (hm : m ∈ done.compiled), hre⟩
  unfold recompile
  cases hfind : compiled.find? (·.model.name == name) with
  | none =>
      refine ⟨compiled, rfl, hall.imp ?_⟩
      rintro m m' ⟨hm, hschema, hmodel⟩
      have hne : m.model.name ≠ name := by
        intro heq
        have hmem : name ∈ compiledNames compiled := by
          rw [hre.names, ← heq]
          exact List.mem_map_of_mem hm
        obtain ⟨m'', hm'', rfl⟩ := List.mem_map.mp hmem
        simpa using List.find?_eq_none.mp hfind m'' hm''
      rw [Function.update_of_ne hne]
      exact ⟨hschema, hmodel⟩
  | some old =>
      obtain ⟨first, hfirst, hschema, hold⟩ := hre.exists_first (List.mem_of_find?_eq_some hfind)
      have hname : first.model.name = name := by
        rw [← hold.name]
        simpa using List.find?_some hfind
      obtain ⟨model, hcompile, hmodel⟩ :=
        (h.compiled first hfirst).again (blockedFor blocked name)
      rw [hname, ← hold.source, ← hschema] at hcompile
      simp only [hcompile]
      refine ⟨_, rfl, List.forall₂_map_right_iff.mpr (hall.imp ?_)⟩
      rintro m m' ⟨hm, hschema', hmodel'⟩
      by_cases heq : m.model.name = name
      · obtain rfl : m = first := h.eq_of_name hm hfirst (heq.trans hname.symm)
        rw [hmodel'.name, heq]
        simpa using ⟨hschema', hmodel⟩
      · rw [Function.update_of_ne heq, if_neg (by simpa [hmodel'.name] using heq)]
        exact ⟨hschema', hmodel'⟩

theorem foldlM_recompile_reworked {blockedOf : String → List String} {compiled : List Compiled}
    (h : Consistent c done) (hre : Reworked blockedOf done.compiled compiled) (blocked : Blocked)
    (names : List String) :
    ∃ compiled', names.foldlM (c.recompile blocked) (compiled, done.registry) =
        .ok (compiled', done.registry) ∧
      Reworked (fun n => if n ∈ names then blockedFor blocked n else blockedOf n) done.compiled
        compiled' := by
  induction names generalizing blockedOf compiled with
  | nil => exact ⟨compiled, rfl, by simpa using hre⟩
  | cons name names ih =>
      obtain ⟨next, hnext, hrenext⟩ := recompile_reworked h hre blocked name
      obtain ⟨last, hlast, hrelast⟩ := ih hrenext
      refine ⟨last, ?_, ?_⟩
      · rw [List.foldlM_cons, hnext]
        exact hlast
      · have hsame : (fun n => if n ∈ names then blockedFor blocked n else
            Function.update blockedOf name (blockedFor blocked name) n) =
            fun n => if n ∈ name :: names then blockedFor blocked n else blockedOf n := by
          funext n
          by_cases hn : n ∈ names
          · simp [hn]
          · by_cases heq : n = name
            · simp [heq]
            · simp [hn, heq]
        rw [← hsame]
        exact hrelast

/-! ## The two rounds -/

theorem withoutMissing_reworked (h : Consistent c done) :
    ∃ compiled, c.withoutMissing done = .ok (compiled, done.registry) ∧
      Reworked (blockedFor (dangling done)) done.compiled compiled := by
  obtain ⟨compiled, hrun, hre⟩ := foldlM_recompile_reworked h (Reworked.refl done.compiled)
    (dangling done) ((dangling done).map (·.1))
  refine ⟨compiled, hrun, ?_⟩
  have hsame : (fun n => if n ∈ (dangling done).map (·.1) then blockedFor (dangling done) n
      else []) = blockedFor (dangling done) := by
    funext n
    split
    · rfl
    · next hn =>
        have hnone : (dangling done).lookup n = none := by
          refine List.lookup_eq_none_iff.mpr fun e he => ?_
          have hne : e.1 ≠ n := fun heq => hn (heq ▸ List.mem_map_of_mem he)
          simpa using hne.symm
        simp [blockedFor, hnone]
  rw [← hsame]
  exact hre

theorem cutEdges_reworked (h : Consistent c done) {compiled : List Compiled}
    (hre : Reworked (blockedFor (dangling done)) done.compiled compiled)
    (backEdges : List (String × String)) :
    ∃ compiled', c.cutEdges backEdges (dangling done) (compiled, done.registry) =
        .ok (compiled', done.registry) ∧
      Reworked (blockedFor (forbid backEdges (dangling done))) done.compiled compiled' := by
  obtain ⟨compiled', hrun, hre'⟩ := foldlM_recompile_reworked h hre
    (forbid backEdges (dangling done)) (firsts (backEdges.map (·.1)))
  refine ⟨compiled', hrun, ?_⟩
  have hsame : (fun n => if n ∈ firsts (backEdges.map (·.1)) then
      blockedFor (forbid backEdges (dangling done)) n else blockedFor (dangling done) n) =
      blockedFor (forbid backEdges (dangling done)) := by
    funext n
    split
    · rfl
    · next hn => rw [blockedFor_forbid_of_notMem fun hmem => hn (mem_firsts.mpr hmem)]
  rw [← hsame]
  exact hre'

/-- The models of compiled schemas. -/
def modelsOf (compiled : List Compiled) : List Model := compiled.map (·.model)

/-- Models that blocked back edges make of the models without those left out lost just these
edges. -/
theorem pruned_of_reworked {backEdges : List (String × String)} {blocked : Blocked}
    {compiled found cut : List Compiled}
    (hfound : Reworked (blockedFor blocked) compiled found)
    (hcut : Reworked (blockedFor (forbid backEdges blocked)) compiled cut) :
    List.Forall₂ (ModelOrder.Pruned backEdges) (modelsOf found) (modelsOf cut) := by
  induction hfound generalizing cut with
  | nil =>
      cases hcut
      exact .nil
  | cons hm _ ih =>
      cases hcut with
      | cons hm' hrest =>
          refine .cons ⟨?_, ?_⟩ (ih hrest)
          · rw [hm'.2.name, hm.2.name]
          · rw [hm'.2.dependsOn, hm.2.dependsOn, hm.2.name, without, without, List.filter_filter]
            refine List.filter_congr fun d _ => ?_
            simp [mem_blockedFor_forbid, Bool.and_comm]

/-- How the models of a finished worklist are arranged: without those left out, then without the
edges that close cycles. -/
structure Arranged (c : ModelCompiler) (done : Worklist) (found cut : List Compiled) : Prop where
  missing : c.withoutMissing done = .ok (found, done.registry)
  cycles : c.cutEdges (orderOf (found, done.registry)).backEdges (dangling done)
    (found, done.registry) = .ok (cut, done.registry)
  foundFrom : Reworked (blockedFor (dangling done)) done.compiled found
  cutFrom : Reworked (blockedFor (forbid (orderOf (found, done.registry)).backEdges
    (dangling done))) done.compiled cut

theorem exists_arranged (h : Consistent c done) : ∃ found cut, Arranged c done found cut := by
  obtain ⟨found, hfound, hfoundFrom⟩ := withoutMissing_reworked h
  obtain ⟨cut, hcut, hcutFrom⟩ := cutEdges_reworked h hfoundFrom
    (orderOf (found, done.registry)).backEdges
  exact ⟨found, cut, hfound, hcut, hfoundFrom, hcutFrom⟩

section Arranged

variable {found cut : List Compiled}

theorem Arranged.pruned (h : Arranged c done found cut) :
    List.Forall₂ (ModelOrder.Pruned (ModelOrder.ofModels (modelsOf found)).backEdges)
      (modelsOf found) (modelsOf cut) :=
  pruned_of_reworked h.foundFrom h.cutFrom

/-- One round of cutting back edges is enough. -/
theorem Arranged.backEdges_nil (h : Arranged c done found cut) :
    (orderOf (cut, done.registry)).backEdges = [] :=
  (ModelOrder.ofModels_pruned h.pruned).2

theorem Arranged.placedNames (h : Arranged c done found cut) :
    (orderOf (cut, done.registry)).placedNames = (orderOf (found, done.registry)).placedNames :=
  (ModelOrder.ofModels_pruned h.pruned).1

/-- Two orders are enough: the second one has no back edges. -/
theorem Arranged.breakCycles_eq (h : Arranged c done found cut) (fuel : Nat) :
    c.breakCycles (fuel + 2) (dangling done) (found, done.registry) =
      .ok (orderOf (cut, done.registry)).models := by
  rw [breakCycles]
  by_cases hnone : (orderOf (found, done.registry)).backEdges = []
  · have hsame : cut = found := by
      have hcycles := h.cycles
      rw [hnone] at hcycles
      cases hcycles
      rfl
    rw [hnone, hsame]
    rfl
  · rw [if_neg (by simpa using hnone), h.cycles]
    simp only [bind, Except.bind]
    rw [breakCycles]
    simp [h.backEdges_nil, pure, Except.pure]

theorem Arranged.arrange_eq (h : Arranged c done found cut) :
    c.arrange done = .ok (orderOf (cut, done.registry)).models := by
  unfold arrange
  rw [h.missing]
  simp only [bind, Except.bind]
  cases hlength : done.compiled.length with
  | zero =>
      have hfound : found = [] :=
        List.eq_nil_of_length_eq_zero (h.foundFrom.length_eq.symm.trans hlength)
      have hcut : cut = [] :=
        List.eq_nil_of_length_eq_zero (h.cutFrom.length_eq.symm.trans hlength)
      rw [hfound, hcut]
      rfl
  | succ k =>
      have hfuel : (k + 1) * (k + 1) + 1 = k * (k + 2) + 2 := by ring
      rw [hfuel]
      exact h.breakCycles_eq _

end Arranged

end ApiScaffold.ModelCompiler
