import ApiScaffold.Files.Tree
import ApiScaffold.Proofs.Outcome

set_option autoImplicit false

/-! # What writing does to a tree

A write puts one file in its place and leaves all other files alone; making directories leaves all
files alone. So what a tree holds after some writes is told by the list of them (`Written`): where
several went to one place, the last one stands there, and everything else is as it was. -/

namespace ApiScaffold.Files

/-- The place that a path stands for, seen from a directory, when all that it leads through are
directories. -/
def placeFrom (here : Place) (path : String) : Place :=
  (parts path).foldl stepInto (if isAbsolute path then [] else here)

namespace Tree

variable {t u v : Tree} {place other : Place} {path text : String} {stamp : Option Int}

/-! ## Paths -/

theorem step_eq_ok {part : String} (h : t.step place part = .ok other) :
    other = stepInto place part := by
  unfold step at h
  split at h
  · cases h
  · cases h
  · rw [stepInto]
    split_ifs at h ⊢ <;> exact (Except.ok.inj h).symm

theorem follow_eq_ok (h : t.follow path = .ok place) : place = placeFrom t.here path := by
  unfold follow at h
  split at h
  · cases h
  · have hsteps : ∀ (names : List String) (start : Place),
        names.foldlM t.step start = .ok place → place = names.foldl stepInto start := by
      intro names
      induction names with
      | nil =>
          intro start h
          exact (pure_eq_ok.mp h).symm
      | cons name names ih =>
          intro start h
          rw [List.foldlM_cons] at h
          obtain ⟨next, hnext, h⟩ := bind_eq_ok.mp h
          rw [List.foldl_cons, ← step_eq_ok hnext]
          exact ih next h
    exact hsteps _ _ h

/-! ## Single changes -/

theorem at?_of_ne_nil (h : place ≠ []) : t.at? place = t.entries.lookup place :=
  if_neg h

/-- A write puts a file in its place, which is not the root, and changes nothing else. -/
theorem write_eq_ok (h : t.write path text stamp = .ok u) :
    u.here = t.here ∧ (∃ changed, u.at? (placeFrom t.here path) = some (.file text changed)) ∧
      ∀ other ≠ placeFrom t.here path, u.at? other = t.at? other := by
  obtain ⟨place, hplace, h⟩ := bind_eq_ok.mp h
  rw [← follow_eq_ok hplace]
  have hroot : place ≠ [] := by
    rintro rfl
    exact absurd h throw_ne_ok
  have hput : ∃ changed, u = { t with
      entries := put place (.file text changed) t.entries, writes := t.writes + 1 } := by
    dsimp only at h
    split at h
    · exact absurd h throw_ne_ok
    · exact ⟨_, (pure_eq_ok.mp h).symm⟩
    · split at h
      · exact absurd h throw_ne_ok
      · exact ⟨_, (pure_eq_ok.mp h).symm⟩
  obtain ⟨changed, rfl⟩ := hput
  refine ⟨rfl, ⟨changed, ?_⟩, fun other hne => ?_⟩
  · rw [at?_of_ne_nil hroot]
    exact lookup_put_self place _ _
  · by_cases hother : other = []
    · subst hother
      rfl
    · rw [at?_of_ne_nil hother, at?_of_ne_nil hother]
      exact lookup_put_of_ne hne _ _

/-- Making a directory puts one where nothing was, and changes nothing else. -/
theorem makeDirectory_eq_ok (h : t.makeDirectory path = .ok u) :
    u.here = t.here ∧ t.at? (placeFrom t.here path) = none ∧
      u.at? (placeFrom t.here path) = some .directory ∧
      ∀ other ≠ placeFrom t.here path, u.at? other = t.at? other := by
  obtain ⟨place, hplace, h⟩ := bind_eq_ok.mp h
  rw [← follow_eq_ok hplace]
  dsimp only at h
  split at h
  · exact absurd h throw_bind_ne_ok
  · next hnothing =>
      have hnone : t.at? place = none := by simpa using hnothing
      have hroot : place ≠ [] := by
        rintro rfl
        cases hnone
      split at h
      · exact absurd h throw_bind_ne_ok
      · obtain rfl := pure_eq_ok.mp h
        refine ⟨rfl, hnone, ?_, fun other hne => ?_⟩
        · rw [at?_of_ne_nil hroot] at hnone ⊢
          simp [List.lookup_append, hnone]
        · by_cases hother : other = []
          · subst hother
            rfl
          · rw [at?_of_ne_nil hother, at?_of_ne_nil hother]
            simp [List.lookup_append, List.lookup_cons, beq_eq_false_iff_ne.mpr hne]

/-! ## What was written -/

/-- What was written to a place last. -/
def lastAt? (outputs : List (Place × String)) (place : Place) : Option String :=
  outputs.reverse.lookup place

/-- The files of a tree are those of an earlier one, but for what was written since. -/
structure Written (t : Tree) (outputs : List (Place × String)) (u : Tree) : Prop where
  here : u.here = t.here
  output : ∀ {place text}, lastAt? outputs place = some text →
    ∃ changed, u.at? place = some (.file text changed)
  other : ∀ {place}, lastAt? outputs place = none → ∀ text changed,
    u.at? place = some (.file text changed) ↔ t.at? place = some (.file text changed)

theorem Written.refl (t : Tree) : Written t [] t where
  here := rfl
  output h := by cases h
  other _ _ _ := Iff.rfl

variable {first second : List (Place × String)}

theorem lastAt?_append :
    lastAt? (first ++ second) place = (lastAt? second place).or (lastAt? first place) := by
  rw [lastAt?, List.reverse_append, List.lookup_append]
  rfl

/-- Later writes come behind earlier ones. -/
theorem Written.append (h : Written t first u) (h' : Written u second v) :
    Written t (first ++ second) v where
  here := h'.here.trans h.here
  output := by
    intro place text hlast
    rw [lastAt?_append, Option.or_eq_some_iff] at hlast
    rcases hlast with hlater | ⟨hno, hearlier⟩
    · exact h'.output hlater
    · obtain ⟨changed, hfile⟩ := h.output hearlier
      exact ⟨changed, (h'.other hno text changed).mpr hfile⟩
  other := by
    intro place hlast text changed
    rw [lastAt?_append, Option.or_eq_none_iff] at hlast
    exact (h'.other hlast.1 text changed).trans (h.other hlast.2 text changed)

theorem lastAt?_singleton :
    lastAt? [(other, text)] place = if place = other then some text else none := by
  by_cases h : place = other
  · simp [lastAt?, h]
  · simp [lastAt?, h, List.lookup_cons, beq_eq_false_iff_ne.mpr h]

theorem written_write (h : t.write path text stamp = .ok u) :
    Written t [(placeFrom t.here path, text)] u := by
  obtain ⟨hhere, ⟨changed, hfile⟩, hother⟩ := write_eq_ok h
  refine { here := hhere, output := ?_, other := ?_ }
  · intro place found hlast
    rw [lastAt?_singleton, Option.ite_none_right_eq_some] at hlast
    obtain ⟨rfl, htext⟩ := hlast
    exact ⟨changed, Option.some.inj htext ▸ hfile⟩
  · intro place hlast found changed
    rw [lastAt?_singleton, ite_eq_right_iff] at hlast
    rw [hother place fun heq => Option.some_ne_none text (hlast heq)]

theorem written_makeDirectory (h : t.makeDirectory path = .ok u) : Written t [] u := by
  obtain ⟨hhere, hnone, hdirectory, hother⟩ := makeDirectory_eq_ok h
  refine { here := hhere, output := ?_, other := ?_ }
  · intro _ _ hlast
    cases hlast
  · intro place _ text changed
    by_cases hplace : place = placeFrom t.here path
    · subst hplace
      rw [hnone, hdirectory]
      simp
    · rw [hother place hplace]

theorem written_ensureDirectory {last : Bool} (h : t.ensureDirectory last path = .ok u) :
    Written t [] u := by
  unfold ensureDirectory at h
  split at h
  · cases h
    exact .refl t
  · split at h
    · split at h
      · cases h
      · cases h
        exact .refl t
    · exact written_makeDirectory h

/-- Making all directories that a path leads through leaves all files alone. -/
theorem written_makeDirectories (h : t.makeDirectories path = .ok u) : Written t [] u := by
  unfold makeDirectories at h
  split at h
  · exact written_makeDirectory h
  · obtain ⟨through, hthrough, h⟩ := bind_eq_ok.mp h
    have hothers : Written t [] through := by
      refine foldlM_keeps (P := Written t []) ?_ (.refl t) hthrough
      intro before after lead _ hbefore hstep
      exact hbefore.append (written_ensureDirectory hstep)
    exact hothers.append (written_ensureDirectory h)

/-- A save succeeds when its text could be made and written. -/
theorem save_eq_ok {made : Except Fault String} (h : t.save path made = (u, .ok ())) :
    ∃ text, made = .ok text ∧ t.write path text none = .ok u := by
  unfold save at h
  dsimp only at h
  split at h
  · next next hwrite =>
      obtain ⟨rfl, hresult⟩ := Prod.mk.inj h
      obtain ⟨whole, hwhole, -⟩ := map_eq_ok hresult
      rw [hwhole] at hwrite
      obtain ⟨text, hmade, hwhole⟩ := bind_eq_ok.mp hwhole
      split at hwhole
      · cases hwhole
      · obtain rfl := Except.ok.inj hwhole
        exact ⟨text, hmade, hwrite⟩
  · cases h

theorem save_of_write (hwhole : text.toList.any (Text.half? · |>.isSome) = false)
    (h : t.write path text none = .ok u) : t.save path (.ok text) = (u, .ok ()) := by
  simp only [save, Except.bind, hwhole, Bool.false_eq_true, if_false, Except.toOption,
    Option.getD_some, h, Except.map]

/-- A text that was saved stands in its place. -/
theorem written_save (h : t.save path (.ok text) = (u, .ok ())) :
    Written t [(placeFrom t.here path, text)] u := by
  obtain ⟨whole, htext, hwrite⟩ := save_eq_ok h
  cases htext
  exact written_write hwrite

/-! ## Reading what was written -/

/-- The directories of a tree are directories of another one, and relative paths start at the
same. -/
structure DirectoriesStay (t u : Tree) : Prop where
  here : u.here = t.here
  directory : ∀ {place}, t.at? place = some .directory → u.at? place = some .directory

theorem DirectoriesStay.step {part : String} (h : DirectoriesStay t u)
    (hstep : t.step place part = .ok other) : u.step place part = .ok other := by
  unfold Tree.step at hstep ⊢
  split at hstep
  · cases hstep
  · cases hstep
  · next hdirectory =>
      rw [h.directory hdirectory]
      exact hstep

theorem DirectoriesStay.follow (h : DirectoriesStay t u) (hfollow : t.follow path = .ok place) :
    u.follow path = .ok place := by
  unfold Tree.follow at hfollow ⊢
  rw [h.here]
  split at hfollow
  · cases hfollow
  · next hpath =>
      rw [if_neg hpath]
      generalize (if isAbsolute path then [] else t.here) = start at hfollow ⊢
      generalize parts path = names at hfollow ⊢
      induction names generalizing start with
      | nil => exact hfollow
      | cons part rest ih =>
          rw [List.foldlM_cons] at hfollow ⊢
          obtain ⟨next, hnext, hfollow⟩ := bind_eq_ok.mp hfollow
          exact bind_eq_ok.mpr ⟨next, h.step hnext, ih next hfollow⟩

/-- A file is never written over a directory. -/
theorem directoriesStay_write (h : t.write path text stamp = .ok u) : DirectoriesStay t u := by
  obtain ⟨hhere, -, hother⟩ := write_eq_ok h
  refine ⟨hhere, fun {place} hdirectory => ?_⟩
  rw [hother place, hdirectory]
  rintro rfl
  obtain ⟨found, hfound, h⟩ := bind_eq_ok.mp h
  rw [follow_eq_ok hfound, hdirectory] at h
  exact throw_bind_ne_ok h

/-- The path that a file was written to leads to it. -/
theorem find_write (h : t.write path text stamp = .ok u) :
    ∃ changed, u.find path = .ok (.file text changed) := by
  obtain ⟨hhere, ⟨changed, hfile⟩, -⟩ := write_eq_ok h
  have hstay := directoriesStay_write h
  obtain ⟨found, hfound, -⟩ := bind_eq_ok.mp h
  refine ⟨changed, bind_eq_ok.mpr ⟨found, hstay.follow hfound, ?_⟩⟩
  rw [follow_eq_ok hfound, hfile]
  rfl

theorem has_of_write (h : t.write path text stamp = .ok u) : u.has path = true := by
  obtain ⟨changed, hfind⟩ := find_write h
  rw [has, hfind]
  rfl

theorem plainLines_of_notMem {text : List Char} (h : '\r' ∉ text) : plainLines text = text := by
  induction text with
  | nil => rfl
  | cons c rest ih =>
      rw [List.mem_cons, not_or] at h
      rw [plainLines, ih h.2, if_neg (Ne.symm h.1)]
      rintro _ rfl
      exact absurd rfl h.1

/-- A text without carriage returns is read as it was written. -/
theorem read_write (h : t.write path text stamp = .ok u) (htext : '\r' ∉ text.toList) :
    u.read path = .ok text := by
  obtain ⟨changed, hfind⟩ := find_write h
  refine bind_eq_ok.mpr ⟨_, hfind, ?_⟩
  show Except.ok (String.ofList (plainLines text.toList)) = Except.ok text
  rw [plainLines_of_notMem htext, String.ofList_toList]

end Tree

end ApiScaffold.Files
