import ApiScaffold.Proofs.Alike
import ApiScaffold.Proofs.Reordering

set_option autoImplicit false

/-! # The same in a reordered document

When an object of a document lists its fields in another order, each node has a twin in the other
document: at the same place, with the same value up to order (`Node.Twin`). What is read of a node
is read of its twin (`Follows`): links and references lead to twins, and only going through the
fields of the object itself meets them in another order. -/

namespace ApiScaffold

variable {α β γ δ : Type} {sure : Prop}

/-! ## Computations side by side -/

/-- Where one computation gives a value, what the other gives corresponds to it; if it is sure to,
it does give one. -/
def Follows (sure : Prop) (R : α → β → Prop) (x : Except Fault α) (y : Except Fault β) : Prop :=
  ∀ a, x = .ok a → (sure → ∃ b, y = .ok b) ∧ ∀ b, y = .ok b → R a b

section Follows

variable {R : α → β → Prop} {S : γ → δ → Prop} {x : Except Fault α} {y : Except Fault β}

theorem follows_of_exists (h : ∀ a, x = .ok a → ∃ b, y = .ok b ∧ R a b) : Follows sure R x y := by
  intro a ha
  obtain ⟨b, hb, hR⟩ := h a ha
  refine ⟨fun _ => ⟨b, hb⟩, fun b' hb' => ?_⟩
  obtain rfl : b = b' := Except.ok.inj (hb.symm.trans hb')
  exact hR

theorem follows_ok {a : α} {b : β} (h : R a b) : Follows sure R (.ok a) (.ok b) := by
  refine follows_of_exists ?_
  rintro _ ⟨⟩
  exact ⟨b, rfl, h⟩

theorem follows_pure {a : α} {b : β} (h : R a b) : Follows sure R (pure a) (pure b) := follows_ok h

theorem follows_error {fault : Fault} : Follows sure R (.error fault) y := nofun

theorem follows_throw {fault : Fault} : Follows sure R (throw fault) y := nofun

theorem follows_refl (x : Except Fault α) : Follows sure Eq x x :=
  follows_of_exists fun a ha => ⟨a, ha, rfl⟩

theorem Follows.imp {T : α → β → Prop} (h : Follows sure R x y) (hT : ∀ a b, R a b → T a b) :
    Follows sure T x y :=
  fun a ha => ⟨(h a ha).1, fun b hb => hT a b ((h a ha).2 b hb)⟩

/-- What corresponds was given on both sides. -/
theorem Follows.given (h : Follows sure R x y) :
    Follows sure (fun a b => x = .ok a ∧ y = .ok b ∧ R a b) x y :=
  fun a ha => ⟨(h a ha).1, fun b hb => ⟨ha, hb, (h a ha).2 b hb⟩⟩

theorem Follows.bind {f : α → Except Fault γ} {g : β → Except Fault δ} (h : Follows sure R x y)
    (hfg : ∀ a b, R a b → Follows sure S (f a) (g b)) : Follows sure S (x >>= f) (y >>= g) := by
  intro c hc
  obtain ⟨a, ha, hc⟩ := bind_eq_ok.mp hc
  obtain ⟨hsure, hgiven⟩ := h a ha
  constructor
  · intro hs
    obtain ⟨b, hb⟩ := hsure hs
    obtain ⟨d, hd⟩ := (hfg a b (hgiven b hb) c hc).1 hs
    exact ⟨d, bind_eq_ok.mpr ⟨b, hb, hd⟩⟩
  · intro d hd
    obtain ⟨b, hb, hd⟩ := bind_eq_ok.mp hd
    exact (hfg a b (hgiven b hb) c hc).2 d hd

/-- After the same value the same goes on. -/
theorem Follows.bind_eq {x y : Except Fault α} {f : α → Except Fault γ} {g : α → Except Fault δ}
    (h : Follows sure Eq x y) (hfg : ∀ a, Follows sure S (f a) (g a)) :
    Follows sure S (x >>= f) (y >>= g) := by
  refine h.bind ?_
  rintro a _ rfl
  exact hfg a

theorem Follows.map {f : α → γ} {g : β → δ} (h : Follows sure R x y)
    (hfg : ∀ a b, R a b → S (f a) (g b)) : Follows sure S (x.map f) (y.map g) :=
  h.bind (f := fun a => .ok (f a)) (g := fun b => .ok (g b)) fun a b hR => follows_ok (hfg a b hR)

theorem follows_ite {p q : Prop} [Decidable p] [Decidable q] {x' : Except Fault α}
    {y' : Except Fault β} (hiff : q ↔ p) (h : p → Follows sure R x y)
    (h' : ¬ p → Follows sure R x' y') :
    Follows sure R (if p then x else x') (if q then y else y') := by
  by_cases hp : p
  · rw [if_pos hp, if_pos (hiff.mpr hp)]
    exact h hp
  · rw [if_neg hp, if_neg (mt hiff.mp hp)]
    exact h' hp

theorem follows_mapM {f : α → Except Fault γ} {g : β → Except Fault δ} {xs : List α} {ys : List β}
    (h : List.Forall₂ R xs ys) (hfg : ∀ a b, R a b → Follows sure S (f a) (g b)) :
    Follows sure (List.Forall₂ S) (xs.mapM f) (ys.mapM g) := by
  induction h with
  | nil => exact follows_pure .nil
  | cons hfirst _ ih =>
      rw [List.mapM_cons, List.mapM_cons]
      exact (hfg _ _ hfirst).bind fun c d hcd => ih.bind fun cs ds hall =>
        follows_pure (.cons hcd hall)

theorem follows_foldlM {f : γ → α → Except Fault γ} {g : δ → β → Except Fault δ} {xs : List α}
    {ys : List β} {c : γ} {d : δ} (h : List.Forall₂ R xs ys) (hcd : S c d)
    (hfg : ∀ a b c d, R a b → S c d → Follows sure S (f c a) (g d b)) :
    Follows sure S (xs.foldlM f c) (ys.foldlM g d) := by
  induction h generalizing c d with
  | nil => exact follows_pure hcd
  | cons hfirst _ ih =>
      rw [List.foldlM_cons, List.foldlM_cons]
      exact (hfg _ _ _ _ hfirst hcd).bind fun c d hcd => ih hcd

end Follows

/-! ## In another order -/

/-- Lists whose elements correspond one by one once they are put in order. -/
def Regrouped (R : α → β → Prop) (xs : List α) (ys : List β) : Prop :=
  ∃ mid, List.Forall₂ R xs mid ∧ mid.Perm ys

section Regrouped

variable {R : α → β → Prop} {S : γ → δ → Prop} {xs : List α} {ys : List β}

theorem Regrouped.of_forall₂ (h : List.Forall₂ R xs ys) : Regrouped R xs ys :=
  ⟨ys, h, List.Perm.refl _⟩

theorem Regrouped.exists_right (h : Regrouped R xs ys) : ∀ a ∈ xs, ∃ b ∈ ys, R a b := by
  obtain ⟨mid, hmid, hperm⟩ := h
  intro a ha
  obtain ⟨b, hb, hR⟩ := exists_left_of_forall₂ hmid.flip a ha
  exact ⟨b, hperm.mem_iff.mp hb, hR⟩

theorem Regrouped.exists_left (h : Regrouped R xs ys) : ∀ b ∈ ys, ∃ a ∈ xs, R a b := by
  obtain ⟨mid, hmid, hperm⟩ := h
  exact fun b hb => exists_left_of_forall₂ hmid b (hperm.mem_iff.mpr hb)

theorem Regrouped.and_mem (h : Regrouped R xs ys) :
    Regrouped (fun a b => a ∈ xs ∧ R a b) xs ys := by
  obtain ⟨mid, hmid, hperm⟩ := h
  exact ⟨mid, (List.forall₂_and_left _ _).mpr ⟨fun _ ha => ha, hmid⟩, hperm⟩

/-- Steps that give a value or none give the same values in another order of their elements. -/
theorem perm_of_filterMapM {f : α → Except Fault (Option β)} {xs ys : List α} (h : xs.Perm ys)
    {bs : List β} (hbs : xs.filterMapM f = .ok bs) :
    ∃ cs, ys.filterMapM f = .ok cs ∧ bs.Perm cs := by
  have hcons : ∀ {x : α} {xs : List α} {bs : List β}, (x :: xs).filterMapM f = .ok bs ↔
      ∃ b? rest, f x = .ok b? ∧ xs.filterMapM f = .ok rest ∧ bs = b?.toList ++ rest := by
    intro x xs bs
    rw [List.filterMapM_cons, bind_eq_ok]
    refine exists_congr fun b? => ?_
    cases b? with
    | none => simp
    | some b =>
        constructor
        · rintro ⟨hx, h⟩
          obtain ⟨rest, hrest, h⟩ := bind_eq_ok.mp h
          exact ⟨rest, hx, hrest, (pure_eq_ok.mp h).symm⟩
        · rintro ⟨rest, hx, hrest, rfl⟩
          exact ⟨hx, bind_eq_ok.mpr ⟨rest, hrest, rfl⟩⟩
  induction h generalizing bs with
  | nil => exact ⟨bs, hbs, List.Perm.refl _⟩
  | cons x _ ih =>
      obtain ⟨b?, rest, hb, hrest, rfl⟩ := hcons.mp hbs
      obtain ⟨cs, hcs, hperm⟩ := ih hrest
      exact ⟨_, hcons.mpr ⟨b?, cs, hb, hcs, rfl⟩, hperm.append_left _⟩
  | swap x y xs =>
      obtain ⟨b?, rest, hb, hrest, rfl⟩ := hcons.mp hbs
      obtain ⟨c?, last, hc, hlast, rfl⟩ := hcons.mp hrest
      refine ⟨_, hcons.mpr ⟨c?, _, hc, hcons.mpr ⟨b?, last, hb, hlast, rfl⟩, rfl⟩, ?_⟩
      rw [← List.append_assoc, ← List.append_assoc]
      exact List.perm_append_comm.append_right _
  | trans _ _ ih ih' =>
      obtain ⟨cs, hcs, hperm⟩ := ih hbs
      obtain ⟨ds, hds, hperm'⟩ := ih' hcs
      exact ⟨ds, hds, hperm.trans hperm'⟩

theorem follows_filterMapM {f : α → Except Fault (Option γ)} {g : β → Except Fault (Option δ)}
    (h : Regrouped R xs ys) (hfg : ∀ a b, R a b → Follows sure (Option.Rel S) (f a) (g b)) :
    Follows sure (Regrouped S) (xs.filterMapM f) (ys.filterMapM g) := by
  obtain ⟨mid, hmid, hperm⟩ := h
  have heach : Follows sure (List.Forall₂ S) (xs.filterMapM f) (mid.filterMapM g) := by
    induction hmid generalizing ys with
    | nil => exact follows_pure .nil
    | cons hfirst _ ih =>
        rw [List.filterMapM_cons, List.filterMapM_cons]
        have hlater := ih (List.Perm.refl _)
        refine (hfg _ _ hfirst).bind fun c? d? hcd => ?_
        cases hcd with
        | none => exact hlater
        | some hcd => exact hlater.bind fun cs ds hall => follows_pure (.cons hcd hall)
  intro cs hcs
  refine ⟨fun hsure => ?_, fun ds hds => ?_⟩
  · obtain ⟨ds, hds⟩ := (heach cs hcs).1 hsure
    obtain ⟨es, hes, -⟩ := perm_of_filterMapM hperm hds
    exact ⟨es, hes⟩
  · obtain ⟨es, hes, hds'⟩ := perm_of_filterMapM hperm.symm hds
    exact ⟨es, (heach cs hcs).2 es hes, hds'.symm⟩

theorem mapM_eq_filterMapM (f : α → Except Fault γ) (xs : List α) :
    xs.mapM f = xs.filterMapM fun a => some <$> f a := by
  induction xs with
  | nil => rfl
  | cons x xs ih =>
      rw [List.mapM_cons, List.filterMapM_cons, ih, map_eq_pure_bind, bind_assoc]
      simp only [pure_bind]

theorem follows_mapM_regrouped {f : α → Except Fault γ} {g : β → Except Fault δ}
    (h : Regrouped R xs ys) (hfg : ∀ a b, R a b → Follows sure S (f a) (g b)) :
    Follows sure (Regrouped S) (xs.mapM f) (ys.mapM g) := by
  rw [mapM_eq_filterMapM, mapM_eq_filterMapM]
  exact follows_filterMapM h fun a b hab => (hfg a b hab).map fun _ _ => .some

end Regrouped

/-! ## Twins -/

variable {free : List Step → Prop}

/-- Two readings with the same content up to order. -/
structure Document.Reordered (free : List Step → Prop) (d d' : Document) : Prop where
  tag : d'.tag = d.tag
  linked : d'.linked = d.linked
  root : Json.Reordered free [] d.root d'.root

namespace Node

/-- Nodes at the same place of reordered documents, with the same value up to order. -/
structure Twin (free : List Step → Prop) (n n' : Node) : Prop where
  document : n.document.Reordered free n'.document
  trail : n'.trail = n.trail
  value : Json.Reordered free n.trail n.value n'.value

variable {n n' a a' : Node} {x y : Json} {xs ys : List Json} {fs gs : Fields}

theorem twin_top {d d' : Document} (h : d.Reordered free d') : Twin free d.top d'.top :=
  ⟨h, rfl, h.root⟩

theorem Twin.part (h : Twin free n n') {step : Step}
    (hxy : Json.Reordered free (step :: n.trail) x y) :
    Twin free (n.part step x) (n'.part step y) :=
  ⟨h.document, congrArg (List.cons step) h.trail, hxy⟩

theorem Twin.samePlace (h : Twin free n n') (h' : Twin free a a') :
    n'.samePlace a' = n.samePlace a := by
  rw [Node.samePlace, Node.samePlace, h.document.tag, h'.document.tag, h.trail, h'.trail]

theorem Twin.isAbsent (h : Twin free n n') : n'.isAbsent = n.isAbsent := by
  unfold Node.isAbsent
  rcases h.value.shapes with ⟨-, heq⟩ | ⟨_, _, hv, hw, -⟩ | ⟨_, _, hv, hw, -⟩
  · rw [heq]
  · rw [hv, hw]
  · rw [hv, hw]

/-- An object has an object with the same fields up to order for a twin. -/
theorem Twin.object (h : Twin free n n') {fields : Fields} (hfields : n.value = .obj fields) :
    ∃ fields', n'.value = .obj fields' ∧ Json.FieldsReordered free n.trail fields fields' := by
  rcases h.value.shapes with ⟨hscalar, -⟩ | ⟨_, _, hv, -⟩ | ⟨fs, gs, hv, hw, hall⟩
  · rw [hfields] at hscalar
    cases hscalar
  · cases hfields.symm.trans hv
  · obtain rfl := Json.obj.inj (hfields.symm.trans hv)
    exact ⟨gs, hw, hall⟩

/-- A list has a list with the same items up to order in them for a twin. -/
theorem Twin.list (h : Twin free n n') {items : List Json} (hitems : n.value = .arr items) :
    ∃ items', n'.value = .arr items' ∧ Json.ItemsReordered free n.trail items items' := by
  rcases h.value.shapes with ⟨hscalar, -⟩ | ⟨xs, ys, hv, hw, hall⟩ | ⟨_, _, hv, -⟩
  · rw [hitems] at hscalar
    cases hscalar
  · obtain rfl := Json.arr.inj (hitems.symm.trans hv)
    exact ⟨ys, hw, hall⟩
  · cases hitems.symm.trans hv

theorem Twin.field (h : Twin free n n') (hall : Json.FieldsReordered free n.trail fs gs)
    (key : String) : Option.Rel (Twin free) ((fs.lookup key).map (n.part (.key key)))
      ((gs.lookup key).map (n'.part (.key key))) := by
  rcases rel_cases (hall.lookup key) with ⟨hx, hy⟩ | ⟨x, y, hx, hy, hxy⟩
  · rw [hx, hy]
    exact .none
  · rw [hx, hy]
    exact .some (h.part hxy)

theorem Twin.item (h : Twin free n n') (hall : Json.ItemsReordered free n.trail xs ys) (i : Nat) :
    Option.Rel (Twin free) (xs[i]?.map (n.part (.index i))) (ys[i]?.map (n'.part (.index i))) := by
  cases hx : xs[i]? with
  | none =>
      rw [List.getElem?_eq_none_iff, hall.length, ← List.getElem?_eq_none_iff] at hx
      rw [hx]
      exact .none
  | some x =>
      obtain ⟨hi, -⟩ := List.getElem?_eq_some_iff.mp hx
      have hi' : i < ys.length := hall.length ▸ hi
      rw [List.getElem?_eq_getElem hi']
      exact .some (h.part (hall.get i x _ hx (List.getElem?_eq_getElem hi')))

/-! ## Links -/

theorem Twin.referenceText? (h : Twin free n n') :
    Node.referenceText? n'.value = Node.referenceText? n.value := by
  rcases h.value.shapes with ⟨-, heq⟩ | ⟨_, _, hv, hw, -⟩ | ⟨fs, gs, hv, hw, hall⟩
  · rw [heq]
  · rw [hv, hw]
    rfl
  · rw [hv, hw, Node.referenceText?, Node.referenceText?]
    rcases rel_cases (hall.lookup "$ref") with ⟨hx, hy⟩ | ⟨x, y, hx, hy, hxy⟩
    · rw [hx, hy]
    · rw [hx, hy]
      rcases hxy.shapes with ⟨-, rfl⟩ | ⟨_, _, rfl, rfl, -⟩ | ⟨_, _, rfl, rfl, -⟩ <;> rfl

theorem rel_bind {k : Option α} {f : α → Option Node} {g : α → Option Node}
    (h : ∀ a, Option.Rel (Twin free) (f a) (g a)) :
    Option.Rel (Twin free) (k.bind f) (k.bind g) := by
  cases k with
  | none => exact .none
  | some a => exact h a

theorem Twin.linkPart? (h : Twin free n n') (segment : String) :
    Option.Rel (Twin free) (n.linkPart? segment) (n'.linkPart? segment) := by
  unfold Node.linkPart?
  rcases h.value.shapes with ⟨hscalar, heq⟩ | ⟨xs, ys, hv, hw, hall⟩ | ⟨fs, gs, hv, hw, hall⟩
  · rw [heq]
    cases hv : n.value with
    | str s =>
        refine rel_bind fun i => ?_
        cases s.toList[i]? with
        | none => exact .none
        | some ch => exact .some (h.part (.scalar rfl))
    | arr items => cases hv ▸ hscalar
    | obj fields => cases hv ▸ hscalar
    | _ => exact .none
  · rw [hv, hw]
    dsimp only
    rw [hall.length]
    exact rel_bind fun i => by simpa [Option.map_eq_bind] using h.item hall i
  · rw [hv, hw]
    exact h.field hall segment

theorem Twin.walkLink {settle : Node → Except Fault Node} {link link' : Node}
    (hsettle : ∀ {a a'}, Twin free a a' → Follows sure (Twin free) (settle a) (settle a'))
    (hlink : Twin free link link') (h : Twin free n n') (segments : List String) :
    Follows sure (Twin free) (walkLink settle link n segments)
      (walkLink settle link' n' segments) := by
  induction segments generalizing n n' with
  | nil => exact follows_ok h
  | cons segment segments ih =>
      rw [Node.walkLink, Node.walkLink, h.samePlace hlink]
      refine follows_ite Iff.rfl (fun _ => (follows_pure h).bind fun a a' ha => ?_)
        fun _ => (hsettle h).bind fun a a' ha => ?_
      all_goals
        dsimp only
        rcases rel_cases (ha.linkPart? segment) with ⟨hx, hy⟩ | ⟨b, b', hx, hy, hb⟩
        · rw [hx]
          exact follows_throw
        · rw [hx, hy]
          exact ih hb

theorem Twin.settleWithin (h : Twin free n n') (fuel : Nat) :
    Follows sure (Twin free) (settleWithin fuel n) (settleWithin fuel n') := by
  induction fuel generalizing n n' with
  | zero => exact follows_error
  | succ fuel ih =>
      rw [Node.settleWithin, Node.settleWithin, h.referenceText?]
      split
      · exact follows_ok h
      · split
        · exact follows_throw
        · refine (Twin.walkLink ih h (twin_top h.document) _).bind fun b b' hb => ?_
          rw [hb.samePlace h]
          exact follows_ite Iff.rfl (fun _ => follows_throw) fun _ => ih hb

theorem Twin.settle (h : Twin free n n') : Follows sure (Twin free) n.settle n'.settle := by
  rw [Node.settle, Node.settle, h.document.linked, h.document.root.size]
  exact follows_ite Iff.rfl (fun _ => h.settleWithin _) fun _ => follows_ok h

/-! ## Looking into twins -/

theorem Twin.opened (h : Twin free n n') :
    Follows sure (fun v w => ∃ place, Json.Reordered free place v w) n.opened n'.opened :=
  h.settle.map fun a _ ha => ⟨a.trail, ha.value⟩

theorem Twin.truthy (h : Twin free n n') : Follows sure Eq n.truthy n'.truthy :=
  h.opened.map fun _ _ ⟨_, hvalue⟩ => hvalue.truthy.symm

theorem Twin.isObject (h : Twin free n n') : Follows sure Eq n.isObject n'.isObject := by
  refine h.settle.bind fun a a' ha => ?_
  rcases ha.value.shapes with ⟨-, heq⟩ | ⟨_, _, hv, hw, -⟩ | ⟨_, _, hv, hw, -⟩
  · rw [heq]
    exact follows_refl _
  · rw [hv, hw]
    exact follows_pure rfl
  · rw [hv, hw]
    exact follows_pure rfl

theorem Twin.get (h : Twin free n n') (key : String) :
    Follows sure (Twin free) (n.get key) (n'.get key) := by
  refine h.settle.bind fun a a' ha => ?_
  split
  · next fields hfields =>
      obtain ⟨fields', hfields', hall⟩ := ha.object hfields
      rw [hfields']
      refine follows_pure (ha.part ?_)
      rcases rel_cases (hall.lookup key) with ⟨hx, hy⟩ | ⟨x, y, hx, hy, hxy⟩
      · rw [hx, hy]
        exact .scalar rfl
      · rw [hx, hy]
        exact hxy
  · exact follows_throw

theorem Twin.has (h : Twin free n n') (key : String) :
    Follows sure Eq (n.has key) (n'.has key) := by
  refine h.settle.bind fun a a' ha => ?_
  split
  · next fields hfields =>
      obtain ⟨fields', hfields', hall⟩ := ha.object hfields
      rw [hfields']
      refine follows_pure ?_
      rcases rel_cases (hall.lookup key) with ⟨hx, hy⟩ | ⟨x, y, hx, hy, -⟩
      · rw [hx, hy]
      · rw [hx, hy, Option.isSome_some, Option.isSome_some]
  · exact follows_throw

/-- Fields of twins under the same key. -/
def FieldTwin (free : List Step → Prop) (f g : String × Node) : Prop :=
  g.1 = f.1 ∧ Twin free f.2 g.2

theorem Twin.fieldNodes (h : Twin free n n') (hall : List.Forall₂
      (fun f g => g.1 = f.1 ∧ Json.Reordered free (.key f.1 :: n.trail) f.2 g.2) fs gs) :
    List.Forall₂ (FieldTwin free) (n.fieldNodes fs) (n'.fieldNodes gs) := by
  rw [Node.fieldNodes, Node.fieldNodes, List.forall₂_map_left_iff, List.forall₂_map_right_iff]
  refine hall.imp fun f g hfg => ⟨hfg.1, ?_⟩
  rw [hfg.1]
  exact h.part hfg.2

/-- The fields of an object correspond one by one once they are put in order. -/
theorem Twin.fieldsRegrouped (h : Twin free n n')
    (hall : Json.FieldsReordered free n.trail fs gs) :
    Regrouped (FieldTwin free) (n.fieldNodes fs) (n'.fieldNodes gs) := by
  obtain ⟨mid, hmid, hperm⟩ := hall.arrange
  exact ⟨_, h.fieldNodes hmid, hperm.map _⟩

/-- The fields of an object are in order unless the object is at a free place. -/
theorem Twin.fields (h : Twin free n n') :
    Follows sure (fun fs gs => Regrouped (FieldTwin free) fs gs ∧ (gs.map (·.1)).Nodup ∧
      ((∀ here, n.settle = .ok here → ¬ free here.trail) → List.Forall₂ (FieldTwin free) fs gs))
      n.fields n'.fields := by
  refine h.settle.given.bind fun a a' ⟨hsettle, _, ha⟩ => ?_
  split
  · next fields hfields =>
      obtain ⟨fields', hfields', hall⟩ := ha.object hfields
      rw [hfields']
      refine follows_pure ?_
      have honce : ((a'.fieldNodes fields').map (·.1)).Nodup := by
        simpa [Node.fieldNodes, Function.comp_def] using hall.once'
      refine ⟨ha.fieldsRegrouped hall, honce, fun hnot => ?_⟩
      rcases hall.keys with hkeys | ⟨hfree, -⟩
      · exact ha.fieldNodes (hall.forall₂ hkeys)
      · exact absurd hfree (hnot a hsettle)
  · exact follows_throw

theorem Twin.fieldsIfAny (h : Twin free n n') :
    Follows sure (Regrouped (FieldTwin free)) n.fieldsIfAny n'.fieldsIfAny :=
  h.truthy.bind_eq fun _ => follows_ite Iff.rfl (fun _ => h.fields.imp fun _ _ hall => hall.1)
    fun _ => follows_pure (.of_forall₂ .nil)

theorem Twin.itemNodes (h : Twin free n n') (hall : Json.ItemsReordered free n.trail xs ys) :
    List.Forall₂ (Twin free) (n.itemNodes xs) (n'.itemNodes ys) := by
  refine List.forall₂_iff_get.mpr ⟨by simpa [Node.itemNodes] using hall.length, ?_⟩
  intro i hx hy
  have hx' : i < xs.length := by simpa [Node.itemNodes] using hx
  have hy' : i < ys.length := by simpa [Node.itemNodes] using hy
  simpa [Node.itemNodes] using h.part
    (hall.get i _ _ (List.getElem?_eq_getElem hx') (List.getElem?_eq_getElem hy'))

/-- A node with a text. -/
def IsText (n : Node) : Prop := ∃ s, n.value = .str s

/-- What going through nodes meets at the same turn: twins, or two of the keys of an object. -/
def EntryTwin (free : List Step → Prop) (a a' : Node) : Prop :=
  Twin free a a' ∨ a.IsText ∧ a'.IsText

theorem isText_itemNodes (n : Node) (fields : Fields) :
    ∀ a ∈ n.itemNodes (fields.map fun f => .str f.1), a.IsText := by
  intro a ha
  obtain ⟨i, hi, rfl⟩ := List.mem_mapIdx.mp ha
  exact ⟨_, List.getElem_map _⟩

/-- Going through a node meets the twins of what going through the other meets. -/
theorem Twin.entries (h : Twin free n n') :
    Follows sure (List.Forall₂ (EntryTwin free)) n.entries n'.entries := by
  refine h.settle.bind fun a a' ha => ?_
  rcases ha.value.shapes with ⟨hscalar, heq⟩ | ⟨xs, ys, hv, hw, hall⟩ | ⟨fs, gs, hv, hw, hall⟩
  · rw [heq]
    cases hv : a.value with
    | str s =>
        refine follows_pure ((ha.itemNodes ⟨rfl, fun i x y hx hy => ?_⟩).imp fun _ _ => Or.inl)
        obtain rfl := Option.some.inj (hx.symm.trans hy)
        obtain ⟨ch, -, rfl⟩ := List.mem_map.mp (List.mem_of_getElem? hx)
        exact .scalar rfl
    | arr items => cases hv ▸ hscalar
    | obj fields => cases hv ▸ hscalar
    | _ => exact follows_throw
  · rw [hv, hw]
    exact follows_pure ((ha.itemNodes hall).imp fun _ _ => Or.inl)
  · rw [hv, hw]
    refine follows_pure (List.forall₂_iff_get.mpr ⟨?_, fun i hx hy => Or.inr ⟨?_, ?_⟩⟩)
    · simpa [Node.itemNodes] using hall.length
    · exact isText_itemNodes a fs _ (List.get_mem _ _)
    · exact isText_itemNodes a' gs _ (List.get_mem _ _)

theorem Twin.entriesIfAny (h : Twin free n n') :
    Follows sure (List.Forall₂ (EntryTwin free)) n.entriesIfAny n'.entriesIfAny :=
  h.truthy.bind_eq fun _ => follows_ite Iff.rfl (fun _ => h.entries) fun _ => follows_pure .nil

end Node

end ApiScaffold
