import ApiScaffold.Proofs.Passes

set_option autoImplicit false

/-! # How many passes a watcher makes

A watcher that is started makes one pass after the other, with a pause behind each, until its
handler tells it to stop, a pass fails, or the passes that were asked for are made. It counts the
passes behind each of them, so it makes one also when none is asked for; but for that it makes just
the passes that were asked for, or as many as it takes until one ends it (`start_passes`). A watcher
that is started again begins to count again, and knows what it saw before. -/

namespace ApiScaffold.Watcher

variable {ω σ ε : Type} [DecidableEq σ] {w : Watcher ω σ ε} {s : Watching ω σ} {pause : ω → ω}
  {limit : Option Nat} {moves more : List (Move ω)}

/-! ## Runs of passes -/

/-- Some passes with a pause behind each. -/
def rounds (pause : ω → ω) (n : Nat) : List (Move ω) :=
  (List.replicate n [.pass, .edit pause]).flatten

/-- The state of a watcher behind some passes with their pauses. -/
def afterRounds (w : Watcher ω σ ε) (pause : ω → ω) (s : Watching ω σ) (n : Nat) : Watching ω σ :=
  (w.run s (rounds pause n)).2

theorem rounds_succ (n : Nat) : rounds pause (n + 1) = rounds pause n ++ [.pass, .edit pause] := by
  rw [rounds, List.replicate_succ', List.flatten_concat]
  rfl

theorem run_append : w.run s (moves ++ more) =
    ((w.run s moves).1 ++ (w.run (w.run s moves).2 more).1, (w.run (w.run s moves).2 more).2) := by
  induction moves generalizing s with
  | nil => rfl
  | cons move moves ih =>
      cases move with
      | edit change => exact ih
      | pass =>
          rw [List.cons_append, run, ih]
          rfl

/-- The state of a watcher behind one more pass and its pause. -/
def round (w : Watcher ω σ ε) (pause : ω → ω) (s : Watching ω σ) : Watching ω σ :=
  { (w.check s).1 with world := pause (w.check s).1.world }

theorem afterRounds_succ (n : Nat) :
    w.afterRounds pause s (n + 1) = w.round pause (w.afterRounds pause s n) := by
  rw [afterRounds, rounds_succ, run_append]
  rfl

theorem length_run_rounds (n : Nat) : (w.run s (rounds pause n)).1.length = n := by
  induction n with
  | zero => rfl
  | succ n ih =>
      rw [rounds_succ, run_append, List.length_append, ih]
      rfl

/-! ## What ends a watcher -/

/-- The handler is called in a pass and tells the watcher to stop. -/
def Stops (w : Watcher ω σ ε) (s : Watching ω σ) : Prop :=
  ∃ current, w.scan s.world = .ok current ∧ s.snapshot.diff current ≠ [] ∧
    (w.onChange (s.snapshot.diff current) s.world).stops = true

/-- A pass that is the last one, whatever was asked for. -/
def Ends (w : Watcher ω σ ε) (s : Watching ω σ) : Prop :=
  w.Stops s ∨ ∃ fault, (w.check s).2 = .error fault

theorem stops_iff {current : Snapshot σ} (hscan : w.scan s.world = .ok current) :
    w.Stops s ↔ s.snapshot.diff current ≠ [] ∧
      (w.onChange (s.snapshot.diff current) s.world).stops = true := by
  constructor
  · rintro ⟨other, hother, hstops⟩
    cases hother.symm.trans hscan
    exact hstops
  · exact fun hstops => ⟨current, hscan, hstops⟩

/-- A pass that does not fail leaves the watcher stopped just when it was so or is told to stop. -/
theorem Checks.stopped_iff {next : Watching ω σ} {events : List Event}
    (h : Checks w s next (.ok events)) : next.stopped = true ↔ s.stopped = true ∨ w.Stops s := by
  cases h with
  | same hscan hsame => simp [stops_iff hscan, hsame]
  | handled hscan hdiffers hnext =>
      rw [hnext, stops_iff hscan]
      simp [Watching.after, hdiffers]
  | caught hscan hdiffers hnext =>
      rw [hnext, stops_iff hscan]
      simp [Watching.after, hdiffers]

/-- When faults of the handler are dealt with, a pass fails only if it cannot see the world. -/
theorem Checks.unseen_of_caught {next : Watching ω σ} {answer : Except ε (List Event)}
    (h : Checks w s next answer) (hcaught : w.onFault ≠ none) {fault : ε} :
    answer = .error fault ↔ w.scan s.world = .error fault := by
  constructor
  · rintro rfl
    cases h with
    | unseen hscan => exact hscan
    | failed _ _ _ _ hnone => exact absurd hnone hcaught
  · intro hscan
    cases h with
    | unseen hunseen => exact congrArg _ (Except.error.inj (hunseen.symm.trans hscan))
    | same hseen | handled hseen | failed hseen | caught hseen => cases hseen.symm.trans hscan

/-- How many passes a watcher makes until one ends it, that one counted in. -/
noncomputable def lifetime (w : Watcher ω σ ε) (pause : ω → ω) (s : Watching ω σ) : ℕ∞ :=
  open Classical in
  if h : ∃ n, w.Ends (w.afterRounds pause s n) then (Nat.find h + 1 : ℕ) else ⊤

theorem not_ends_of_lt {n : Nat} (h : (n + 1 : ℕ) < w.lifetime pause s) :
    ¬ w.Ends (w.afterRounds pause s n) := by
  classical
  intro hends
  have hsome : ∃ n, w.Ends (w.afterRounds pause s n) := ⟨n, hends⟩
  rw [lifetime, dif_pos hsome, Nat.cast_lt] at h
  exact Nat.find_min hsome (by omega) hends

theorem ends_of_lifetime {n : Nat} (h : w.lifetime pause s = (n + 1 : ℕ)) :
    w.Ends (w.afterRounds pause s n) := by
  classical
  unfold lifetime at h
  split at h
  · next hsome =>
      have hfind : Nat.find hsome = n := by
        rw [Nat.cast_inj] at h
        omega
      exact hfind ▸ Nat.find_spec hsome
  · cases h

theorem lifetime_pos : 0 < w.lifetime pause s := by
  unfold lifetime
  split
  · exact Nat.cast_pos.mpr (Nat.succ_pos _)
  · exact ENat.top_pos

/-! ## Counting passes -/

/-- The passes that are made when so many are asked for and none ends the watcher: one at least. -/
def asked (limit : Option Nat) : ℕ∞ := limit.elim ⊤ fun n => (max n 1 : ℕ)

theorem asked_le_iff {made : Nat} :
    limit.any (· ≤ made + 1) = true ↔ asked limit ≤ (made + 1 : ℕ) := by
  cases limit with
  | none => simp [asked]
  | some n =>
      rw [asked, Option.elim_some, Nat.cast_le, Option.any_some, decide_eq_true_eq]
      omega

theorem asked_pos : 0 < asked limit := by
  cases limit with
  | none => exact ENat.top_pos
  | some n => exact Nat.cast_pos.mpr (by omega)

/-- Behind a pass that is not the last one watching goes on. -/
theorem passes_of_lt {made : Nat} (hlimit : (made + 1 : ℕ) < asked limit)
    (hends : ¬ w.Ends s) (hstopped : s.stopped = false) (fuel : Nat) :
    w.passes (some ∘ pause) limit (fuel + 1) made s =
        w.passes (some ∘ pause) limit fuel (made + 1) (w.round pause s) ∧
      (w.round pause s).stopped = false := by
  obtain ⟨hstops, hfails⟩ := not_or.mp hends
  have hchecks := checks w s
  rw [passes, round]
  generalize w.check s = result at hfails hchecks
  obtain ⟨next, answer⟩ := result
  cases answer with
  | error fault => exact absurd ⟨fault, rfl⟩ hfails
  | ok events =>
      have hnext : next.stopped = false := by
        rw [Bool.eq_false_iff, ne_eq, hchecks.stopped_iff, hstopped]
        simpa using hstops
      have hany : limit.any (· ≤ made + 1) = false := by
        rw [Bool.eq_false_iff, ne_eq, asked_le_iff]
        exact not_le_of_gt hlimit
      simp [hany, hnext]

/-- The passes in front of the last one are made one after the other. -/
theorem passes_afterRounds {n : Nat} (hlimit : (n : ℕ∞) < asked limit)
    (hends : ∀ i < n, ¬ w.Ends (w.afterRounds pause s i)) (hstopped : s.stopped = false)
    (fuel : Nat) :
    w.passes (some ∘ pause) limit (fuel + n) 0 s =
        w.passes (some ∘ pause) limit fuel n (w.afterRounds pause s n) ∧
      (w.afterRounds pause s n).stopped = false := by
  induction n generalizing fuel with
  | zero => exact ⟨rfl, hstopped⟩
  | succ n ih =>
      have hearlier : (n : ℕ∞) < asked limit := lt_of_le_of_lt (Nat.cast_le.mpr n.le_succ) hlimit
      obtain ⟨hsame, hon⟩ := ih hearlier (fun i hi => hends i (by omega)) (fuel + 1)
      obtain ⟨hnext, hstill⟩ := passes_of_lt hlimit (hends n n.lt_succ_self) hon fuel
      rw [afterRounds_succ]
      refine ⟨?_, hstill⟩
      rw [← hnext, ← hsame]
      congr 1
      omega

/-- How a watcher ends whose last pass gives an answer. -/
def endingOf : Except ε (List Event) → Ending ε
  | .error fault => .failed fault
  | .ok _ => .finished

/-- The last pass has a pause behind it only if the handler ends the watcher. -/
theorem passes_last {n : Nat} (hlast : asked limit ≤ (n + 1 : ℕ) ∨ w.Ends s) :
    ∃ moves, (moves = [.pass] ∨ moves = [.pass, .edit pause]) ∧ ∀ fuel,
      w.passes (some ∘ pause) limit (fuel + 1) n s =
        ((w.run s moves).2, endingOf (w.check s).2) := by
  have hchecks := checks w s
  have hends : w.Ends s → w.Stops s ∨ ∃ fault, (w.check s).2 = .error fault := id
  have hpass : (w.run s [.pass]).2 = (w.check s).1 := rfl
  have hround : (w.run s [.pass, .edit pause]).2 = w.round pause s := rfl
  simp only [passes]
  rw [round] at hround
  generalize w.check s = result at hchecks hends hpass hround
  obtain ⟨next, answer⟩ := result
  cases answer with
  | error fault => exact ⟨[.pass], Or.inl rfl, fun fuel => by rw [hpass]; rfl⟩
  | ok events =>
      by_cases hasked : asked limit ≤ (n + 1 : ℕ)
      · refine ⟨[.pass], Or.inl rfl, fun fuel => ?_⟩
        rw [hpass]
        simp only [asked_le_iff.mpr hasked, if_true]
        rfl
      · have hany : limit.any (· ≤ n + 1) = false := by
          rw [Bool.eq_false_iff, ne_eq, asked_le_iff]
          exact hasked
        have hnext : next.stopped = true := by
          refine hchecks.stopped_iff.mpr (Or.inr ?_)
          exact (hends (hlast.resolve_left hasked)).resolve_right (by rintro ⟨fault, ⟨⟩⟩)
        refine ⟨[.pass, .edit pause], Or.inr rfl, fun fuel => ?_⟩
        rw [hround]
        simp [hany, hnext, endingOf]

/-- Started in any state, a watcher makes as many passes as were asked for, one at least, or as many
as it takes until one ends it. While fewer passes are allowed for, it makes all of these and is not
finished; else it ends behind the last one, as this one does. The passes report on what the watcher
knew before it was started. When faults of the handler are dealt with, a pass ends the watcher only
if the handler tells it to stop or the world cannot be seen. -/
theorem start_passes (w : Watcher ω σ ε) (pause : ω → ω) (limit : Option Nat)
    (s : Watching ω σ) :
    let fresh := { s with stopped := false }
    let made := min (asked limit) (w.lifetime pause fresh)
    (∀ fuel : Nat, fuel < made → w.start (some ∘ pause) limit fuel s =
        (w.afterRounds pause fresh fuel, .unfinished)) ∧
      (∀ n : Nat, made = n → 0 < n ∧ ∃ moves, moves <+: rounds pause n ∧
        (w.run fresh moves).1.length = n ∧
        Chain s.snapshot (w.run fresh moves).1 (w.run fresh moves).2.snapshot ∧
        ∀ fuel, n ≤ fuel → w.start (some ∘ pause) limit fuel s =
          ((w.run fresh moves).2, endingOf (w.check (w.afterRounds pause fresh (n - 1))).2)) ∧
      (w.onFault ≠ none → ∀ t, w.Ends t ↔ w.Stops t ∨ ∃ fault, w.scan t.world = .error fault) := by
  intro fresh made
  have hmade : ∀ {n : Nat}, n < made → (n : ℕ∞) < asked limit ∧
      ∀ i < n, ¬ w.Ends (w.afterRounds pause fresh i) := by
    intro n hn
    obtain ⟨hasked, hlifetime⟩ := lt_min_iff.mp hn
    refine ⟨hasked, fun i hi => not_ends_of_lt (lt_of_le_of_lt (Nat.cast_le.mpr ?_) hlifetime)⟩
    exact hi
  refine ⟨fun fuel hfuel => ?_, fun n hn => ?_, fun hcaught t => ?_⟩
  · obtain ⟨hasked, hends⟩ := hmade hfuel
    calc w.start (some ∘ pause) limit fuel s
      _ = w.passes (some ∘ pause) limit (0 + fuel) 0 fresh := by rw [Nat.zero_add]; rfl
      _ = (w.afterRounds pause fresh fuel, .unfinished) := (passes_afterRounds hasked hends rfl 0).1
  · have hpos : 0 < n := by
      have hmade : (0 : ℕ∞) < n := hn ▸ lt_min asked_pos lifetime_pos
      exact Nat.cast_pos.mp hmade
    obtain ⟨n, rfl⟩ := Nat.exists_eq_succ_of_ne_zero hpos.ne'
    obtain ⟨hasked, hends⟩ := hmade (n := n) (hn ▸ Nat.cast_lt.mpr n.lt_succ_self)
    have hlast : asked limit ≤ (n + 1 : ℕ) ∨ w.Ends (w.afterRounds pause fresh n) := by
      rcases min_choice (asked limit) (w.lifetime pause fresh) with h | h
      · exact Or.inl (le_of_eq (h.symm.trans hn))
      · exact Or.inr (ends_of_lifetime (h.symm.trans hn))
    obtain ⟨moves, hmoves, hpasses⟩ := passes_last hlast
    have hrun : ∀ rest, (w.run fresh (rounds pause n ++ rest)).2 =
        (w.run (w.afterRounds pause fresh n) rest).2 := fun rest => by rw [run_append]; rfl
    refine ⟨hpos, rounds pause n ++ moves, ?_, ?_, w.run_chain fresh _, fun fuel hfuel => ?_⟩
    · rw [rounds_succ, List.prefix_append_right_inj]
      rcases hmoves with rfl | rfl
      · exact ⟨_, rfl⟩
      · exact List.prefix_rfl
    · rw [run_append, List.length_append, length_run_rounds]
      rcases hmoves with rfl | rfl <;> rfl
    · obtain ⟨more, rfl⟩ := Nat.exists_eq_add_of_le hfuel
      have hfuel' : n + 1 + more = more + 1 + n := by omega
      rw [start, hfuel', (passes_afterRounds hasked hends rfl _).1, hpasses, hrun]
      rfl
  · exact or_congr Iff.rfl (exists_congr fun _ => (checks w t).unseen_of_caught hcaught)

/-- Watches files whose stamps are given, with a handler that does nothing. -/
def pond : Watcher (Snapshot Nat) Nat Fault where
  scan := .ok
  onChange _ world := { world }

/-- Asked for no pass, a watcher makes one, and knows a file afterwards. -/
theorem pond_unasked :
    ¬∀ (world : Snapshot Nat) (n m : Nat), min (n : ℕ∞) (pond.lifetime id { world }) = m →
      ∃ moves, moves <+: rounds id m ∧ (pond.run { world } moves).1.length = m ∧
        ∀ fuel, m ≤ fuel → pond.start (some ∘ id) (some n) fuel { world } =
          ((pond.run { world } moves).2, .finished) := by
  intro h
  obtain ⟨moves, hprefix, -, hstart⟩ := h [("a", 1)] 0 0 (by simp)
  have hmoves : moves = [] := List.prefix_nil.mp hprefix
  have hsnapshot := congrArg (·.1.snapshot) (hstart 1 (Nat.zero_le 1))
  rw [hmoves] at hsnapshot
  have hseen : (pond.start (some ∘ id) (some 0) 1 { world := [("a", 1)] }).1.snapshot =
      [("a", 1)] := by cbv
  cases hseen.symm.trans hsnapshot

end ApiScaffold.Watcher
