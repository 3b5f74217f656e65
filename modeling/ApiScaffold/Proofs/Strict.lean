import ApiScaffold.Proofs.Declared

set_option autoImplicit false

/-! # Strict compilers

A strict compiler and one that is not do the same until a model has no schema. Then the one leaves
the model out and the other stops with a complaint about it (`drain_strictly`). So a strict compiler
gives the batch of the other one if nothing is left out of it, and complains about the first model
that is (`compileWithin_strict`). -/

namespace ApiScaffold.ModelCompiler

open Mapper ModelOrder

variable {c : ModelCompiler} {w w' done : Worklist}

/-- The strict compiler of a document. -/
def strictly (c : ModelCompiler) : ModelCompiler := { c with strict := true }

theorem ofDocument_strictly {document : Document} {strict : Bool} {spec : Option String}
    (h : ofDocument document strict spec = .ok c) :
    ofDocument document true spec = .ok c.strictly := by
  exact bind_eq_ok.mpr ⟨c.mapper, (ofDocument_eq_ok h).1, rfl⟩

/-! ## In step -/

section Drain

theorem skipped_grows {limit : Nat} (h : c.drain limit w = .ok w') : w.skipped <+: w'.skipped := by
  induction limit generalizing w with
  | zero =>
      cases h
      exact List.prefix_rfl
  | succ limit ih =>
      rw [drain] at h
      split at h
      · cases h
        exact List.prefix_rfl
      · obtain ⟨v, hentry, h⟩ := bind_eq_ok.mp h
        rcases compileEntry_eq_ok hentry with ⟨-, -, rfl⟩ | ⟨node, model, registry, -, -, rfl⟩
        · exact (List.prefix_append _ _).trans (ih h)
        · have hmore := ih h
          exact hmore

theorem compileEntry_strictly_none {e : Entry} (hobject : c.objectOf e = .ok none) :
    c.strictly.compileEntry w e =
      .error (.complaint (.missingSchema e.name) c.mapper.resolver.spec) := by
  unfold compileEntry
  rw [show c.strictly.objectOf e = .ok none from hobject]
  rfl

/-- Entries that have an object are compiled the same by a strict compiler. -/
theorem compileEntry_strictly_some {e : Entry} {node : Node}
    (hobject : c.objectOf e = .ok (some node)) :
    c.strictly.compileEntry w e = c.compileEntry w e := by
  unfold compileEntry
  rw [show c.strictly.objectOf e = .ok (some node) from hobject, hobject]
  rfl

/-- A strict compiler stops at the first model that another one leaves out, with a complaint about
it, and does the same as the other one if there is none. -/
theorem drain_strictly {limit : Nat} (hnone : w.skipped = []) (h : c.drain limit w = .ok done) :
    match done.skipped with
    | [] => c.strictly.drain limit w = .ok done
    | name :: _ => c.strictly.drain limit w =
        .error (.complaint (.missingSchema name) c.mapper.resolver.spec) := by
  induction limit generalizing w with
  | zero =>
      cases h
      rw [hnone]
      rfl
  | succ limit ih =>
      obtain ⟨registry, compiled, skipped⟩ := w
      obtain rfl : skipped = [] := hnone
      rw [drain] at h ⊢
      split at h
      · cases h
        rfl
      · next e next hpop =>
          obtain ⟨v, hentry, hrest⟩ := bind_eq_ok.mp h
          rcases compileEntry_eq_ok hentry with
            ⟨hobject, -, rfl⟩ | ⟨node, model, registry, hobject, -, rfl⟩
          · obtain ⟨more, hmore⟩ := skipped_grows hrest
            rw [← hmore]
            simp only [List.nil_append, List.singleton_append, compileEntry_strictly_none hobject]
            rfl
          · simp only [compileEntry_strictly_some hobject, hentry]
            exact ih rfl hrest

/-- What a strict compiler compiles another one compiles too, and leaves nothing out. -/
theorem drain_of_strictly {limit : Nat} (h : c.strictly.drain limit w = .ok done) :
    c.drain limit w = .ok done ∧ done.skipped = w.skipped := by
  induction limit generalizing w with
  | zero =>
      cases h
      exact ⟨rfl, rfl⟩
  | succ limit ih =>
      rw [drain] at h ⊢
      split at h
      · cases h
        exact ⟨rfl, rfl⟩
      · next e next hpop =>
          obtain ⟨v, hentry, hrest⟩ := bind_eq_ok.mp h
          rcases compileEntry_eq_ok hentry with
            ⟨-, hstrict, -⟩ | ⟨node, model, registry, hobject, -, rfl⟩
          · cases hstrict
          · rw [compileEntry_strictly_some (c := c) hobject] at hentry
            obtain ⟨hdrain, hskipped⟩ := ih hrest
            exact ⟨bind_eq_ok.mpr ⟨_, hentry, hdrain⟩, hskipped⟩

end Drain

/-! ## In the end -/

section Batches

variable {limit : Nat} {extra : List (String × Node)} {enums : EnumCollection} {batch : ModelBatch}

theorem compileWithin_strictly {name : String} {rest : List String}
    (hstart : c.start extra = .ok (w, enums)) (hdrain : c.drain limit w = .ok done)
    (hskipped : done.skipped = name :: rest) :
    c.strictly.compileWithin limit extra =
      .error (.complaint (.missingSchema name) c.mapper.resolver.spec) := by
  have hstop := drain_strictly (start_eq_ok hstart).2.2 hdrain
  rw [hskipped] at hstop
  unfold compileWithin
  rw [show c.strictly.start extra = .ok (w, enums) from hstart]
  change (c.strictly.drain limit w >>= fun done => c.strictly.finish enums done) = _
  rw [hstop]
  rfl

theorem breakCycles_strictly {fuel : Nat} {blocked : Blocked} {state : Batching} :
    c.strictly.breakCycles fuel blocked state = c.breakCycles fuel blocked state := by
  induction fuel generalizing blocked state with
  | zero => rfl
  | succ fuel ih =>
      rw [breakCycles, breakCycles]
      simp only [ih]
      rfl

/-- Strictness is no matter once the models are compiled. -/
theorem finish_strictly : c.strictly.finish enums done = c.finish enums done := by
  have harrange : c.strictly.arrange done = c.arrange done := by
    unfold arrange
    simp only [breakCycles_strictly]
    rfl
  unfold finish
  rw [harrange]
  rfl

/-- A strict compiler refines one that is not: it gives the same batch when nothing is left out, and
otherwise complains about the first model that is. -/
theorem compileWithin_strict {document : Document} {spec : Option String}
    (h : (ofDocument document false spec >>= fun c => c.compileWithin limit extra) = .ok batch) :
    (ofDocument document true spec >>= fun c => c.compileWithin limit extra) =
      match batch.skipped with
      | [] => .ok batch
      | name :: _ => .error (.complaint (.missingSchema name) spec) := by
  obtain ⟨c, hc, h⟩ := bind_eq_ok.mp h
  rw [ofDocument_strictly hc]
  change c.strictly.compileWithin limit extra = _
  obtain ⟨w, enums, done, hstart, hdrain, hfinish⟩ := compileWithin_eq_ok h
  obtain ⟨-, -, hskipped⟩ := finish_eq_ok hfinish
  have hspec : c.mapper.resolver.spec = spec := by
    rw [(Mapper.ofDocument_eq_ok (ofDocument_eq_ok hc).1).2.1]
  rw [hskipped]
  cases hlist : done.skipped with
  | nil =>
      have hsame := drain_strictly (start_eq_ok hstart).2.2 hdrain
      rw [hlist] at hsame
      exact compileWithin_of_parts hstart hsame (finish_strictly.trans hfinish)
  | cons name rest =>
      rw [← hspec]
      exact compileWithin_strictly hstart hdrain hlist

/-- What a strict compiler complains about in `entangled`, and that it does not when the missing
schema is among the extra ones. -/
theorem entangled_strict :
    ∃ batch full : ModelBatch,
      (ofDocument entangled false none >>= fun c => c.compileWithin modelLimit []) = .ok batch ∧
      batch.skipped = ["BadgeDto"] ∧
      (ofDocument entangled true none >>= fun c => c.compileWithin modelLimit []) =
        .error (.complaint (.missingSchema "BadgeDto") none) ∧
      (ofDocument entangled false none >>= fun c =>
        c.compileWithin modelLimit [("BadgeDto", entangled.top)]) = .ok full ∧
      full.skipped = [] ∧
      (ofDocument entangled true none >>= fun c =>
        c.compileWithin modelLimit [("BadgeDto", entangled.top)]) = .ok full := by
  have hrun : (do
      let batch ← ofDocument entangled false none >>= fun c => c.compileWithin modelLimit []
      let full ← ofDocument entangled false none >>= fun c =>
        c.compileWithin modelLimit [("BadgeDto", entangled.top)]
      pure (batch.skipped, full.skipped)).toOption = some (["BadgeDto"], []) := by
    decide +kernel
  obtain ⟨batch, hbatch, h⟩ := bind_eq_ok.mp (eq_ok_of_toOption hrun)
  obtain ⟨full, hfull, h⟩ := bind_eq_ok.mp h
  obtain ⟨hskipped, hnone⟩ := Prod.mk.inj (pure_eq_ok.mp h)
  have hstop := compileWithin_strict hbatch
  rw [hskipped] at hstop
  have hsame := compileWithin_strict hfull
  rw [hnone] at hsame
  exact ⟨batch, full, hbatch, hskipped, hstop, hfull, hnone, hsame⟩

/-- The batches of a strict compiler are batches that nothing is left out of. -/
theorem compileWithin_of_strictly (h : c.strictly.compileWithin limit extra = .ok batch) :
    c.compileWithin limit extra = .ok batch ∧ batch.skipped = [] := by
  obtain ⟨w, enums, done, hstart, hdrain, hfinish⟩ := compileWithin_eq_ok h
  obtain ⟨hsame, hskipped⟩ := drain_of_strictly hdrain
  have hfirst : c.start extra = .ok (w, enums) := hstart
  refine ⟨compileWithin_of_parts hfirst hsame (finish_strictly.symm.trans hfinish), ?_⟩
  obtain ⟨-, -, hend⟩ := finish_eq_ok hfinish
  rw [hend, hskipped]
  exact (start_eq_ok hstart).2.2

end Batches

end ApiScaffold.ModelCompiler
