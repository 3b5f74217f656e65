import ApiScaffold.Fault
import Mathlib.Data.List.Basic
import Mathlib.Data.List.Forall2

set_option autoImplicit false

/-! # Steps that can fail

A sequence of steps succeeds when each of its steps does. Steps that keep a state besides give a
value and leave a state behind (`Yields`), and a sequence of them does when each step does. -/

namespace ApiScaffold

variable {α β : Type}

theorem bind_eq_ok {ε : Type} {e : Except ε α} {f : α → Except ε β} {b : β} :
    (e >>= f) = .ok b ↔ ∃ a, e = .ok a ∧ f a = .ok b := by
  cases e with
  | error fault =>
      constructor
      · intro h
        cases h
      · rintro ⟨a, h, -⟩
        cases h
  | ok a =>
      constructor
      · intro h
        exact ⟨a, rfl, h⟩
      · rintro ⟨a', h, hb⟩
        cases h
        exact hb

theorem ok_bind {e : Except Fault α} {f : α → Except Fault β} {a : α} (h : e = .ok a) :
    (e >>= f) = f a := by
  rw [h]
  rfl

theorem pure_eq_ok {ε : Type} {a b : α} : (pure a : Except ε α) = .ok b ↔ a = b := by
  simp [pure, Except.pure]

/-- Steps one after the other fail when the first one does, or the second one after it. -/
theorem bind_eq_error {ε : Type} {e : Except ε α} {f : α → Except ε β} {fault : ε} :
    (e >>= f) = .error fault ↔ e = .error fault ∨ ∃ a, e = .ok a ∧ f a = .error fault := by
  cases e with
  | error first =>
      constructor
      · intro h
        cases h
        exact Or.inl rfl
      · rintro (h | ⟨a, ha, -⟩)
        · cases h
          rfl
        · cases ha
  | ok a =>
      constructor
      · exact fun h => Or.inr ⟨a, rfl, h⟩
      · rintro (h | ⟨b, hb, h⟩)
        · cases h
        · cases hb
          exact h

theorem throw_ne_ok {ε : Type} {fault : ε} {b : α} : (throw fault : Except ε α) ≠ .ok b := by
  intro h
  cases h

theorem throw_bind_ne_ok {ε : Type} {fault : ε} {f : α → Except ε β} {b : β} :
    (throw fault >>= f) ≠ .ok b := by
  intro h
  cases h

/-- Two ways to a value from which the same steps go on. -/
theorem ite_bind_eq_ok {c : Prop} [Decidable c] {x y : Except Fault α} {f : α → Except Fault β}
    {b : β} :
    (if c then x >>= f else y >>= f) = .ok b ↔ ∃ a, (if c then x else y) = .ok a ∧ f a = .ok b := by
  split
  · exact bind_eq_ok
  · exact bind_eq_ok

theorem eq_ok_of_toOption {e : Except Fault α} {a : α} (h : e.toOption = some a) : e = .ok a := by
  cases e with
  | error fault => cases h
  | ok b => exact congrArg Except.ok (Option.some.inj h)

theorem map_eq_ok {e : Except Fault α} {f : α → β} {b : β} (h : e.map f = .ok b) :
    ∃ a, e = .ok a ∧ f a = b := by
  cases e with
  | error fault => cases h
  | ok a => exact ⟨a, rfl, Except.ok.inj h⟩

/-- What every step keeps, a sequence of steps keeps. -/
theorem foldlM_keeps {ε : Type} {P : β → Prop} {f : β → α → Except ε β} {xs : List α}
    (hf : ∀ b b', ∀ a ∈ xs, P b → f b a = .ok b' → P b') {b b' : β} (hb : P b)
    (h : xs.foldlM f b = .ok b') : P b' := by
  induction xs generalizing b with
  | nil =>
      cases pure_eq_ok.mp h
      exact hb
  | cons a xs ih =>
      rw [List.foldlM_cons] at h
      obtain ⟨u, hu, h⟩ := bind_eq_ok.mp h
      exact ih (fun b b' a ha => hf b b' a (List.mem_cons_of_mem _ ha))
        (hf b u a List.mem_cons_self hb hu) h

/-- What a step achieves for its element and every step keeps, a sequence of steps achieves for all
elements. -/
theorem foldlM_each {Q : α → β → Prop} {f : β → α → Except Fault β} {xs : List α}
    (hnew : ∀ b b', ∀ a ∈ xs, f b a = .ok b' → Q a b')
    (hkeep : ∀ x b b', ∀ a ∈ xs, Q x b → f b a = .ok b' → Q x b') {b b' : β}
    (h : xs.foldlM f b = .ok b') : ∀ x ∈ xs, Q x b' := by
  induction xs generalizing b with
  | nil => exact fun x hx => absurd hx List.not_mem_nil
  | cons a xs ih =>
      rw [List.foldlM_cons] at h
      obtain ⟨u, hu, hrest⟩ := bind_eq_ok.mp h
      intro x hx
      rcases List.mem_cons.mp hx with rfl | hx
      · exact foldlM_keeps (P := Q x)
          (fun b b' a ha => hkeep x b b' a (List.mem_cons_of_mem _ ha))
          (hnew b u x List.mem_cons_self hu) hrest
      · exact ih (fun b b' a ha => hnew b b' a (List.mem_cons_of_mem _ ha))
          (fun x b b' a ha => hkeep x b b' a (List.mem_cons_of_mem _ ha)) hrest x hx

/-- What stands on the right of a correspondence has something on the left. -/
theorem exists_left_of_forall₂ {R : α → β → Prop} {xs : List α} {ys : List β}
    (h : List.Forall₂ R xs ys) : ∀ y ∈ ys, ∃ x ∈ xs, R x y := by
  intro y hy
  obtain ⟨i, hi, rfl⟩ := List.getElem_of_mem hy
  have hi' : i < xs.length := h.length_eq ▸ hi
  exact ⟨xs[i], List.getElem_mem hi', h.get hi' hi⟩

/-- The values of a list of steps are those of the steps. -/
theorem forall₂_of_mapM {f : α → Except Fault β} {xs : List α} {bs : List β}
    (h : xs.mapM f = .ok bs) : List.Forall₂ (fun x b => f x = .ok b) xs bs := by
  induction xs generalizing bs with
  | nil =>
      cases pure_eq_ok.mp h
      exact .nil
  | cons x xs ih =>
      rw [List.mapM_cons] at h
      obtain ⟨first, hfirst, h⟩ := bind_eq_ok.mp h
      obtain ⟨rest, hrest, h⟩ := bind_eq_ok.mp h
      cases pure_eq_ok.mp h
      exact .cons hfirst (ih hrest)

/-- Every value of a list of steps comes from one of them. -/
theorem mem_of_mapM {f : α → Except Fault β} {xs : List α} {bs : List β} (h : xs.mapM f = .ok bs) :
    ∀ b ∈ bs, ∃ x ∈ xs, f x = .ok b :=
  exists_left_of_forall₂ (forall₂_of_mapM h)

/-- The same for steps that give a value or none. -/
theorem mem_of_filterMapM {f : α → Except Fault (Option β)} {xs : List α} {bs : List β}
    (h : xs.filterMapM f = .ok bs) : ∀ b ∈ bs, ∃ x ∈ xs, f x = .ok (some b) := by
  induction xs generalizing bs with
  | nil =>
      rw [List.filterMapM_nil] at h
      cases pure_eq_ok.mp h
      exact fun b hb => absurd hb List.not_mem_nil
  | cons x xs ih =>
      rw [List.filterMapM_cons] at h
      obtain ⟨first, hfirst, h⟩ := bind_eq_ok.mp h
      have hlater : ∀ {bs}, xs.filterMapM f = .ok bs →
          ∀ b ∈ bs, ∃ x' ∈ x :: xs, f x' = .ok (some b) := by
        intro bs h b hb
        obtain ⟨x', hx', hb⟩ := ih h b hb
        exact ⟨x', List.mem_cons_of_mem _ hx', hb⟩
      cases first with
      | none => exact hlater h
      | some b =>
          obtain ⟨rest, hrest, h⟩ := bind_eq_ok.mp h
          cases pure_eq_ok.mp h
          intro b' hb'
          rcases List.mem_cons.mp hb' with rfl | hb'
          · exact ⟨x, List.mem_cons_self, hfirst⟩
          · exact hlater hrest b' hb'

/-- Steps whose values correspond to those of a list give a list. -/
theorem mapM_of_forall₂ {γ : Type} {f : α → Except Fault β} {Q : β → γ → Prop} {xs : List α}
    {cs : List γ} (h : List.Forall₂ (fun x c => ∃ b, f x = .ok b ∧ Q b c) xs cs) :
    ∃ bs, xs.mapM f = .ok bs ∧ List.Forall₂ Q bs cs := by
  induction h with
  | nil => exact ⟨[], rfl, .nil⟩
  | cons hfirst _ ih =>
      obtain ⟨b, hb, hQ⟩ := hfirst
      obtain ⟨bs, hbs, hall⟩ := ih
      refine ⟨b :: bs, ?_, .cons hQ hall⟩
      rw [List.mapM_cons]
      exact bind_eq_ok.mpr ⟨b, hb, bind_eq_ok.mpr ⟨bs, hbs, rfl⟩⟩

/-- What corresponds to the elements of a list corresponds to what steps make of them. -/
theorem forall₂_mapM {γ : Type} {f : α → Except Fault β} {R : γ → α → Prop} {cs : List γ}
    {xs : List α} {bs : List β} (hR : List.Forall₂ R cs xs) (h : xs.mapM f = .ok bs) :
    List.Forall₂ (fun c b => ∃ x, R c x ∧ f x = .ok b) cs bs := by
  induction hR generalizing bs with
  | nil =>
      cases pure_eq_ok.mp h
      exact .nil
  | cons hfirst _ ih =>
      rw [List.mapM_cons] at h
      obtain ⟨b, hb, h⟩ := bind_eq_ok.mp h
      obtain ⟨bs', hbs, h⟩ := bind_eq_ok.mp h
      obtain rfl := pure_eq_ok.mp h
      exact .cons ⟨_, hfirst, hb⟩ (ih hbs)

theorem mapM_eq_ok {f : α → Except Fault β} {xs : List α} {bs : List β}
    (h : List.Forall₂ (fun x b => f x = .ok b) xs bs) : xs.mapM f = .ok bs := by
  obtain ⟨bs', hbs', hsame⟩ := mapM_of_forall₂ (Q := Eq) (h.imp fun x b hb => ⟨b, hb, rfl⟩)
  rw [List.forall₂_eq_eq_eq] at hsame
  exact hsame ▸ hbs'

/-- Steps that all give a value give a list. -/
theorem exists_mapM {f : α → Except Fault β} {xs : List α} (h : ∀ x ∈ xs, ∃ b, f x = .ok b) :
    ∃ bs, xs.mapM f = .ok bs := by
  have hall : List.Forall₂ (fun x (_ : α) => ∃ b, f x = .ok b ∧ True) xs xs :=
    List.forall₂_same.mpr fun x hx => (h x hx).imp fun b hb => ⟨hb, trivial⟩
  obtain ⟨bs, hbs, -⟩ := mapM_of_forall₂ hall
  exact ⟨bs, hbs⟩

/-- Steps side by side fail at the first one that fails. -/
theorem mapM_eq_error {f : α → Except Fault β} {xs : List α} {fault : Fault} :
    xs.mapM f = .error fault ↔ ∃ before x after, xs = before ++ x :: after ∧
      (∀ y ∈ before, ∃ b, f y = .ok b) ∧ f x = .error fault := by
  induction xs with
  | nil =>
      refine ⟨nofun, ?_⟩
      rintro ⟨before, x, after, h, -⟩
      simp at h
  | cons y xs ih =>
      rw [List.mapM_cons]
      constructor
      · intro h
        rcases bind_eq_error.mp h with hfirst | ⟨b, hb, h⟩
        · exact ⟨[], y, xs, rfl, fun z hz => absurd hz List.not_mem_nil, hfirst⟩
        · rcases bind_eq_error.mp h with hlater | ⟨bs, -, h⟩
          · obtain ⟨before, x, after, rfl, hbefore, hx⟩ := ih.mp hlater
            exact ⟨y :: before, x, after, rfl, List.forall_mem_cons.mpr ⟨⟨b, hb⟩, hbefore⟩, hx⟩
          · cases h
      · rintro ⟨before, x, after, h, hbefore, hx⟩
        cases before with
        | nil =>
            cases h
            exact bind_eq_error.mpr (Or.inl hx)
        | cons z before =>
            cases h
            obtain ⟨⟨b, hb⟩, hbefore⟩ := List.forall_mem_cons.mp hbefore
            refine bind_eq_error.mpr (Or.inr ⟨b, hb, bind_eq_error.mpr (Or.inl ?_)⟩)
            exact ih.mpr ⟨before, x, after, rfl, hbefore, hx⟩

/-! ## Steps with a state -/

section Runs

variable {σ : Type} {s t : σ}

/-- From a state, a step gives a value and leaves a state behind. -/
def Yields (x : ExceptT Fault (StateM σ) α) (s : σ) (a : α) (t : σ) : Prop :=
  x.run.run s = (.ok a, t)

theorem yields_pure {a b : α} :
    Yields (pure a : ExceptT Fault (StateM σ) α) s b t ↔ b = a ∧ t = s := by
  constructor
  · intro h
    cases h
    exact ⟨rfl, rfl⟩
  · rintro ⟨rfl, rfl⟩
    rfl

theorem yields_bind {x : ExceptT Fault (StateM σ) α} {f : α → ExceptT Fault (StateM σ) β} {b : β} :
    Yields (x >>= f) s b t ↔ ∃ a u, Yields x s a u ∧ Yields (f a) u b t := by
  unfold Yields
  rw [ExceptT.run_bind, StateT.run_bind]
  rcases hx : x.run.run s with ⟨result, u⟩
  cases result with
  | error fault =>
      constructor
      · intro h
        cases h
      · rintro ⟨a, u', ha, -⟩
        cases ha
  | ok a =>
      constructor
      · intro h
        exact ⟨a, u, rfl, h⟩
      · rintro ⟨a', u', ha, h⟩
        cases ha
        exact h

/-- What comes after a step that gave a value runs from where that step stopped. -/
theorem Yields.run_bind {x : ExceptT Fault (StateM σ) α} {a : α} (h : Yields x s a t)
    (f : α → ExceptT Fault (StateM σ) β) : (x >>= f).run.run s = (f a).run.run t := by
  rw [ExceptT.run_bind, StateT.run_bind, show x.run.run s = (.ok a, t) from h]
  rfl

theorem yields_lift {e : Except Fault α} {a : α} :
    Yields (liftM e : ExceptT Fault (StateM σ) α) s a t ↔ e = .ok a ∧ t = s := by
  cases e with
  | error fault =>
      constructor
      · intro h
        cases h
      · rintro ⟨h, -⟩
        cases h
  | ok b =>
      constructor
      · intro h
        cases h
        exact ⟨rfl, rfl⟩
      · rintro ⟨h, rfl⟩
        cases h
        rfl

/-- A step that does not hang on the state leaves it as it is. -/
theorem yields_lift_bind {e : Except Fault α} {f : α → ExceptT Fault (StateM σ) β} {b : β} :
    Yields (liftM e >>= f) s b t ↔ ∃ a, e = .ok a ∧ Yields (f a) s b t := by
  rw [yields_bind]
  constructor
  · rintro ⟨a, u, hlift, h⟩
    obtain ⟨ha, rfl⟩ := yields_lift.mp hlift
    exact ⟨a, ha, h⟩
  · rintro ⟨a, ha, h⟩
    exact ⟨a, s, yields_lift.mpr ⟨ha, rfl⟩, h⟩

theorem liftM_ok (a : α) :
    (liftM (Except.ok a : Except Fault α) : ExceptT Fault (StateM σ) α) = pure a := rfl

theorem liftM_error_bind (fault : Fault) (f : α → ExceptT Fault (StateM σ) β) :
    (liftM (Except.error fault : Except Fault α) >>= f) = throw fault := rfl

theorem yields_throw {fault : Fault} {a : α} :
    ¬ Yields (throw fault : ExceptT Fault (StateM σ) α) s a t := by
  intro h
  cases h

theorem yields_get {u : σ} :
    Yields (get : ExceptT Fault (StateM σ) σ) s u t ↔ u = s ∧ t = s := by
  constructor
  · intro h
    cases h
    exact ⟨rfl, rfl⟩
  · rintro ⟨rfl, rfl⟩
    rfl

theorem yields_modify {f : σ → σ} {u : Unit} :
    Yields (modify f : ExceptT Fault (StateM σ) Unit) s u t ↔ t = f s := by
  constructor
  · intro h
    cases h
    rfl
  · rintro rfl
    rfl

theorem yields_get_bind {f : σ → ExceptT Fault (StateM σ) β} {b : β} :
    Yields (get >>= f) s b t ↔ Yields (f s) s b t := by
  rw [yields_bind]
  constructor
  · rintro ⟨a, u, hget, h⟩
    obtain ⟨rfl, rfl⟩ := yields_get.mp hget
    exact h
  · exact fun h => ⟨s, s, yields_get.mpr ⟨rfl, rfl⟩, h⟩

theorem yields_modify_bind {f : σ → σ} {g : PUnit → ExceptT Fault (StateM σ) β} {b : β} :
    Yields (modify f >>= g) s b t ↔ Yields (g ⟨⟩) (f s) b t := by
  rw [yields_bind]
  constructor
  · rintro ⟨a, u, hmodify, h⟩
    obtain rfl := yields_modify.mp hmodify
    exact h
  · exact fun h => ⟨⟨⟩, f s, yields_modify.mpr rfl, h⟩

theorem yields_set_bind {v : σ} {g : PUnit → ExceptT Fault (StateM σ) β} {b : β} :
    Yields (set v >>= g) s b t ↔ Yields (g ⟨⟩) v b t :=
  yields_modify_bind (f := fun _ => v)

/-- Steps one after the other: each has its value, in between whatever states the others keep to. -/
theorem yields_mapM {f : α → ExceptT Fault (StateM σ) β} {R : σ → σ → Prop}
    (hrefl : ∀ s, R s s) (htrans : ∀ s t u, R s t → R t u → R s u) {xs : List α} {bs : List β}
    (hR : ∀ x ∈ xs, ∀ s b t, Yields (f x) s b t → R s t) (h : Yields (xs.mapM f) s bs t) :
    R s t ∧ List.Forall₂ (fun x b => ∃ u v, R s u ∧ Yields (f x) u b v ∧ R v t) xs bs := by
  induction xs generalizing s bs with
  | nil =>
      rw [List.mapM_nil] at h
      obtain ⟨rfl, rfl⟩ := yields_pure.mp h
      exact ⟨hrefl t, .nil⟩
  | cons x xs ih =>
      rw [List.mapM_cons] at h
      obtain ⟨b, u, hb, h⟩ := yields_bind.mp h
      obtain ⟨bs', v, hbs, h⟩ := yields_bind.mp h
      obtain ⟨rfl, rfl⟩ := yields_pure.mp h
      have hfirst : R s u := hR x List.mem_cons_self s b u hb
      obtain ⟨hrest, hall⟩ := ih (fun x hx => hR x (List.mem_cons_of_mem _ hx)) hbs
      refine ⟨htrans s u t hfirst hrest, .cons ⟨s, u, hrefl s, hb, hrest⟩ (hall.imp ?_)⟩
      rintro y b' ⟨u', v', hu', hb', hv'⟩
      exact ⟨u', v', htrans s u u' hfirst hu', hb', hv'⟩

/-- Steps that give a value or none, side by side with steps of another kind: what they give
corresponds when it does at every step. -/
theorem yields_filterMapM {γ : Type} {f : α → ExceptT Fault (StateM σ) (Option β)}
    {g : α → Except Fault (Option γ)} {R : σ → σ → Prop} {Q : σ → σ → γ → β → Prop}
    (hrefl : ∀ s, R s s) (htrans : ∀ s t u, R s t → R t u → R s u)
    (hQ : ∀ s' s t t' c b, R s' s → Q s t c b → R t t' → Q s' t' c b) {xs : List α} {bs : List β}
    (hstep : ∀ x ∈ xs, ∀ s b? t, Yields (f x) s b? t →
      R s t ∧ ∃ c?, g x = .ok c? ∧ Option.Rel (Q s t) c? b?)
    (h : Yields (xs.filterMapM f) s bs t) :
    R s t ∧ ∃ cs, xs.filterMapM g = .ok cs ∧ List.Forall₂ (Q s t) cs bs := by
  induction xs generalizing s bs with
  | nil =>
      rw [List.filterMapM_nil] at h
      obtain ⟨rfl, rfl⟩ := yields_pure.mp h
      exact ⟨hrefl t, [], rfl, .nil⟩
  | cons x xs ih =>
      rw [List.filterMapM_cons] at h
      obtain ⟨b?, u, hb, hrest⟩ := yields_bind.mp h
      obtain ⟨hfirst, c?, hc, hrel⟩ := hstep x List.mem_cons_self s b? u hb
      have hlater := fun bs => @ih u bs fun x hx => hstep x (List.mem_cons_of_mem _ hx)
      cases hrel with
      | none =>
          obtain ⟨hgrows, cs, hcs, hall⟩ := hlater bs hrest
          refine ⟨htrans s u t hfirst hgrows, cs, ?_, hall.imp fun c b hcb => ?_⟩
          · rw [List.filterMapM_cons]
            exact bind_eq_ok.mpr ⟨none, hc, hcs⟩
          · exact hQ s u t t c b hfirst hcb (hrefl t)
      | @some c b hcb =>
          obtain ⟨bs', v, hbs, hlast⟩ := yields_bind.mp hrest
          obtain ⟨rfl, rfl⟩ := yields_pure.mp hlast
          obtain ⟨hgrows, cs, hcs, hall⟩ := hlater bs' hbs
          refine ⟨htrans s u t hfirst hgrows, c :: cs, ?_,
            .cons (hQ s s u t c b (hrefl s) hcb hgrows) (hall.imp fun c b hcb => ?_)⟩
          · rw [List.filterMapM_cons]
            exact bind_eq_ok.mpr ⟨some c, hc, bind_eq_ok.mpr ⟨cs, hcs, rfl⟩⟩
          · exact hQ s u t t c b hfirst hcb (hrefl t)

/-- The same for steps without a value. -/
theorem yields_forM {f : α → ExceptT Fault (StateM σ) PUnit} {R : σ → σ → Prop}
    (hrefl : ∀ s, R s s) (htrans : ∀ s t u, R s t → R t u → R s u) {xs : List α} {u : PUnit}
    (hR : ∀ x ∈ xs, ∀ s u t, Yields (f x) s u t → R s t) (h : Yields (xs.forM f) s u t) :
    R s t ∧ ∀ x ∈ xs, ∃ v w, R s v ∧ Yields (f x) v ⟨⟩ w ∧ R w t := by
  induction xs generalizing s with
  | nil =>
      obtain ⟨-, rfl⟩ := yields_pure.mp h
      exact ⟨hrefl t, fun x hx => absurd hx List.not_mem_nil⟩
  | cons x xs ih =>
      obtain ⟨⟨⟩, w, hx, h⟩ := yields_bind.mp (show Yields (f x >>= fun _ => xs.forM f) s u t from h)
      have hfirst : R s w := hR x List.mem_cons_self s _ w hx
      obtain ⟨hrest, hall⟩ := ih (fun x hx => hR x (List.mem_cons_of_mem _ hx)) h
      refine ⟨htrans s w t hfirst hrest, fun y hy => ?_⟩
      rcases List.mem_cons.mp hy with rfl | hy
      · exact ⟨s, w, hrefl s, hx, hrest⟩
      · obtain ⟨v, w', hv, hyields, hw'⟩ := hall y hy
        exact ⟨v, w', htrans s w v hfirst hv, hyields, hw'⟩

/-- From a state, a step fails and leaves a state behind. -/
def Fails (x : ExceptT Fault (StateM σ) α) (s : σ) (fault : Fault) (t : σ) : Prop :=
  x.run.run s = (.error fault, t)

/-- One step after another fails when the first one does, or the second one from where the first one
stopped. -/
theorem fails_bind {x : ExceptT Fault (StateM σ) α} {f : α → ExceptT Fault (StateM σ) β}
    {fault : Fault} :
    Fails (x >>= f) s fault t ↔
      Fails x s fault t ∨ ∃ a u, Yields x s a u ∧ Fails (f a) u fault t := by
  unfold Fails Yields
  rw [ExceptT.run_bind, StateT.run_bind]
  rcases hx : x.run.run s with ⟨result, u⟩
  cases result with
  | error first =>
      constructor
      · intro h
        cases h
        exact Or.inl rfl
      · rintro (h | ⟨a, u', ha, -⟩)
        · cases h
          rfl
        · cases ha
  | ok a =>
      constructor
      · exact fun h => Or.inr ⟨a, u, rfl, h⟩
      · rintro (h | ⟨a', u', ha, h⟩)
        · cases h
        · cases ha
          exact h

/-- Steps one after the other fail at the first one that fails, where those before it stopped. -/
theorem fails_forM {f : α → ExceptT Fault (StateM σ) PUnit} {xs : List α} {fault : Fault}
    (h : Fails (xs.forM f) s fault t) :
    ∃ done x rest u, xs = done ++ x :: rest ∧ Yields (done.forM f) s ⟨⟩ u ∧
      Fails (f x) u fault t := by
  induction xs generalizing s with
  | nil => cases h
  | cons x xs ih =>
      rcases fails_bind.mp (show Fails (f x >>= fun _ => xs.forM f) s fault t from h) with
        hfirst | ⟨⟨⟩, u, hfirst, hlater⟩
      · exact ⟨[], x, xs, s, rfl, yields_pure.mpr ⟨rfl, rfl⟩, hfirst⟩
      · obtain ⟨done, y, rest, v, rfl, hdone, hy⟩ := ih hlater
        exact ⟨x :: done, y, rest, v, rfl, yields_bind.mpr ⟨⟨⟩, u, hfirst, hdone⟩, hy⟩

/-- Whatever comes of a step, also when it fails, what it leaves behind is in a relation to the state
that it began in. -/
def Leaves (R : σ → σ → Prop) (x : ExceptT Fault (StateM σ) α) : Prop :=
  ∀ s, R s (x.run.run s).2

variable {R : σ → σ → Prop}

theorem leaves_pure (hrefl : ∀ s, R s s) (a : α) :
    Leaves R (pure a : ExceptT Fault (StateM σ) α) :=
  hrefl

theorem leaves_throw (hrefl : ∀ s, R s s) (fault : Fault) :
    Leaves R (throw fault : ExceptT Fault (StateM σ) α) :=
  hrefl

theorem leaves_get (hrefl : ∀ s, R s s) : Leaves R (get : ExceptT Fault (StateM σ) σ) :=
  hrefl

theorem leaves_modify {f : σ → σ} (h : ∀ s, R s (f s)) :
    Leaves R (modify f : ExceptT Fault (StateM σ) PUnit) :=
  h

theorem Leaves.bind (htrans : ∀ s t u, R s t → R t u → R s u)
    {x : ExceptT Fault (StateM σ) α} {f : α → ExceptT Fault (StateM σ) β}
    (hx : Leaves R x) (hf : ∀ a, Leaves R (f a)) : Leaves R (x >>= f) := by
  intro s
  have hfirst := hx s
  rw [ExceptT.run_bind, StateT.run_bind]
  rcases hrun : x.run.run s with ⟨result, u⟩
  rw [hrun] at hfirst
  cases result with
  | error fault => exact hfirst
  | ok a => exact htrans s u _ hfirst (hf a u)

/-- After a step that does not hang on the state, only what it can give has to be gone on from. -/
theorem leaves_lift_bind (hrefl : ∀ s, R s s) {e : Except Fault α}
    {f : α → ExceptT Fault (StateM σ) β} (hf : ∀ a, e = .ok a → Leaves R (f a)) :
    Leaves R (liftM e >>= f) := by
  cases e with
  | error fault => exact hrefl
  | ok a => exact hf a rfl

theorem leaves_forM (hrefl : ∀ s, R s s) (htrans : ∀ s t u, R s t → R t u → R s u)
    {f : α → ExceptT Fault (StateM σ) PUnit} {xs : List α} (hf : ∀ x ∈ xs, Leaves R (f x)) :
    Leaves R (xs.forM f) := by
  induction xs with
  | nil => exact leaves_pure hrefl _
  | cons x xs ih =>
      exact Leaves.bind htrans (hf x List.mem_cons_self) fun _ =>
        ih fun y hy => hf y (List.mem_cons_of_mem _ hy)

/-- A loop whose body has no value is a step for each element. -/
theorem forIn_eq_forM {f : α → ExceptT Fault (StateM σ) PUnit} {xs : List α} :
    (forIn xs PUnit.unit fun x _ => do f x; pure (ForInStep.yield PUnit.unit)) = xs.forM f := by
  induction xs with
  | nil => rfl
  | cons x xs ih =>
      rw [List.forIn_cons, bind_assoc]
      refine bind_congr fun _ => ?_
      rw [pure_bind]
      exact ih

end Runs

end ApiScaffold
