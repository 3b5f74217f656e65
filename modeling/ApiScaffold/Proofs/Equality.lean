import ApiScaffold.Proofs.Alike

set_option autoImplicit false

/-! # Comparing schemas

A node is readable when every link in it leads somewhere and none leads round, so that it stands for
a value that is finite. Comparing readable nodes gives an answer, and the answer tells whether they
are alike (`equal_decides`). A readable node is like itself when its numbers are numbers
(`alike_self`). -/

namespace ApiScaffold

/-! ## Invalid numbers -/

namespace Json

mutual

/-- Whether some number in a value is none. -/
def hasInvalid : Json → Bool
  | .float x => x.isInvalid
  | .arr items => itemsHaveInvalid items
  | .obj fields => fieldsHaveInvalid fields
  | _ => false

/-- `hasInvalid` for the items of a list. -/
def itemsHaveInvalid : List Json → Bool
  | [] => false
  | x :: rest => hasInvalid x || itemsHaveInvalid rest

/-- `hasInvalid` for the fields of an object. -/
def fieldsHaveInvalid : Fields → Bool
  | [] => false
  | (_, x) :: rest => hasInvalid x || fieldsHaveInvalid rest

end

theorem itemsHaveInvalid_iff {items : List Json} :
    itemsHaveInvalid items = false ↔ ∀ x ∈ items, x.hasInvalid = false := by
  induction items with
  | nil => simp [itemsHaveInvalid]
  | cons x items ih => simp [itemsHaveInvalid, ih]

theorem fieldsHaveInvalid_iff {fields : Fields} :
    fieldsHaveInvalid fields = false ↔ ∀ f ∈ fields, f.2.hasInvalid = false := by
  induction fields with
  | nil => simp [fieldsHaveInvalid]
  | cons f fields ih => simp [fieldsHaveInvalid, ih]

/-- A scalar that is a number equals itself. -/
theorem sameScalar_self {v : Json} (hlist : ∀ items, v ≠ .arr items)
    (hobject : ∀ fields, v ≠ .obj fields) (h : v.hasInvalid = false) : v.sameScalar v = true := by
  cases v with
  | null => rfl
  | bool b => exact (sameScalar_int rfl _).mpr (Or.inl rfl)
  | int n => exact (sameScalar_int rfl _).mpr (Or.inl rfl)
  | float x =>
      have hequal : x.equals x = true := Binary64.equals_iff.mpr ⟨h, h, Or.inl rfl⟩
      exact (sameScalar_float _).mpr (Or.inr ⟨x, rfl, hequal⟩)
  | str s => simp [sameScalar]
  | arr items => exact absurd rfl (hlist items)
  | obj fields => exact absurd rfl (hobject fields)

end Json

variable {a b n here left right : Node} {k l fuel depth : Nat} {v : Json} {items : List Json}
  {fields : Fields}

/-! ## Unfolding -/

/-- A node stands for a finite value. -/
def Readable (n : Node) : Prop := ∃ v, n.unfolded = .ok v

/-- How a node is unfolded when its parts are unfolded to some depth. -/
inductive UnfoldsTo (depth : Nat) (n : Node) : Json → Prop where
  | list {here : Node} {items vs : List Json} (hsettle : n.settle = .ok here)
      (hvalue : here.value = .arr items)
      (h : List.Forall₂ (fun m w => Node.unfoldWithin depth m = .ok w) (here.itemNodes items) vs) :
      UnfoldsTo depth n (.arr vs)
  | object {here : Node} {fields gs : Fields} (hsettle : n.settle = .ok here)
      (hvalue : here.value = .obj fields)
      (h : List.Forall₂ (fun f g => g.1 = f.1 ∧ Node.unfoldWithin depth f.2 = .ok g.2)
        (here.fieldNodes fields) gs) : UnfoldsTo depth n (.obj gs)
  | scalar {here : Node} (hsettle : n.settle = .ok here) (hlist : ∀ items, here.value ≠ .arr items)
      (hobject : ∀ fields, here.value ≠ .obj fields) : UnfoldsTo depth n here.value

theorem unfoldWithin_eq_ok (h : Node.unfoldWithin k n = .ok v) :
    ∃ depth, k = depth + 1 ∧ UnfoldsTo depth n v := by
  cases k with
  | zero => cases h
  | succ depth =>
      refine ⟨depth, rfl, ?_⟩
      obtain ⟨here, hsettle, h⟩ := bind_eq_ok.mp h
      split at h
      · next items hvalue =>
          obtain ⟨vs, hvs, h⟩ := bind_eq_ok.mp h
          obtain rfl := pure_eq_ok.mp h
          exact .list hsettle hvalue (forall₂_of_mapM hvs)
      · next fields hvalue =>
          obtain ⟨gs, hgs, h⟩ := bind_eq_ok.mp h
          obtain rfl := pure_eq_ok.mp h
          refine .object hsettle hvalue ((forall₂_of_mapM hgs).imp fun f g hfield => ?_)
          obtain ⟨w, hw, hg⟩ := bind_eq_ok.mp hfield
          obtain rfl := pure_eq_ok.mp hg
          exact ⟨rfl, hw⟩
      · next hlist hobject =>
          obtain rfl := pure_eq_ok.mp h
          exact .scalar hsettle hlist hobject

theorem UnfoldsTo.settles (h : UnfoldsTo depth n v) : ∃ here, n.settle = .ok here := by
  cases h with
  | list hsettle => exact ⟨_, hsettle⟩
  | object hsettle => exact ⟨_, hsettle⟩
  | scalar hsettle => exact ⟨_, hsettle⟩

theorem UnfoldsTo.item (h : UnfoldsTo depth n v) (hsettle : n.settle = .ok here)
    (hvalue : here.value = .arr items) {i : Nat} {x : Json} (hx : items[i]? = some x) :
    ∃ w, Node.unfoldWithin depth (here.part (.index i) x) = .ok w := by
  cases h with
  | list hsettle' hvalue' hall =>
      cases hsettle.symm.trans hsettle'
      cases hvalue.symm.trans hvalue'
      have hmem := List.mem_of_getElem? (getElem?_itemNodes (n := here) hx)
      obtain ⟨w, -, hw⟩ := exists_left_of_forall₂ hall.flip _ hmem
      exact ⟨w, hw⟩
  | object hsettle' hvalue' _ =>
      cases hsettle.symm.trans hsettle'
      cases hvalue.symm.trans hvalue'
  | scalar hsettle' hlist _ =>
      cases hsettle.symm.trans hsettle'
      exact absurd hvalue (hlist _)

theorem UnfoldsTo.field (h : UnfoldsTo depth n v) (hsettle : n.settle = .ok here)
    (hvalue : here.value = .obj fields) {f : String × Json} (hf : f ∈ fields) :
    ∃ w, Node.unfoldWithin depth (here.part (.key f.1) f.2) = .ok w := by
  cases h with
  | list hsettle' hvalue' _ =>
      cases hsettle.symm.trans hsettle'
      cases hvalue.symm.trans hvalue'
  | object hsettle' hvalue' hall =>
      cases hsettle.symm.trans hsettle'
      cases hvalue.symm.trans hvalue'
      obtain ⟨g, -, -, hg⟩ := exists_left_of_forall₂ hall.flip _
        (List.mem_map.mpr ⟨f, hf, rfl⟩ : (f.1, here.part (.key f.1) f.2) ∈ here.fieldNodes fields)
      exact ⟨g.2, hg⟩
  | scalar hsettle' _ hobject =>
      cases hsettle.symm.trans hsettle'
      exact absurd hvalue (hobject _)

theorem Json.size_lt_of_mem_items {x : Json} (h : x ∈ items) : x.size < (Json.arr items).size := by
  rw [Json.size]
  induction items with
  | nil => exact absurd h List.not_mem_nil
  | cons y items ih =>
      rw [Json.sizeItems]
      rcases List.mem_cons.mp h with rfl | h
      · omega
      · have := ih h
        omega

theorem Json.size_lt_of_mem_fields {f : String × Json} (h : f ∈ fields) :
    f.2.size < (Json.obj fields).size := by
  rw [Json.size]
  induction fields with
  | nil => exact absurd h List.not_mem_nil
  | cons g fields ih =>
      rw [Json.sizeFields]
      rcases List.mem_cons.mp h with rfl | h
      · omega
      · have := ih h
        omega

/-- A value that is written out is unfolded to itself. -/
theorem unfoldWithin_of_plain (hplain : n.document.linked = false) (h : n.value.size ≤ k) :
    Node.unfoldWithin k n = .ok n.value := by
  induction k generalizing n with
  | zero =>
      have := n.value.size_pos
      omega
  | succ k ih =>
      refine bind_eq_ok.mpr ⟨n, Node.settle_of_plain hplain, ?_⟩
      split
      · next items hvalue =>
          refine bind_eq_ok.mpr ⟨items, mapM_eq_ok ?_, by rw [hvalue]; rfl⟩
          refine List.forall₂_iff_get.mpr ⟨by simp [Node.itemNodes], fun i hi hi' => ?_⟩
          simp only [Node.itemNodes, List.get_eq_getElem, List.getElem_mapIdx]
          have hlt := Json.size_lt_of_mem_items (List.getElem_mem hi')
          rw [← hvalue] at hlt
          exact ih hplain (by simp only [Node.part]; omega)
      · next fields hvalue =>
          refine bind_eq_ok.mpr ⟨fields, mapM_eq_ok ?_, by rw [hvalue]; rfl⟩
          rw [Node.fieldNodes, List.forall₂_map_left_iff, List.forall₂_same]
          intro f hf
          have hlt := Json.size_lt_of_mem_fields hf
          rw [← hvalue] at hlt
          exact bind_eq_ok.mpr ⟨f.2, ih hplain (by simp only [Node.part]; omega), rfl⟩
      · rfl

/-- What a node is unfolded to, it is unfolded to with some fuel, which is bounded where there are
links. -/
theorem unfolded_eq_ok (h : n.unfolded = .ok v) :
    ∃ k, Node.unfoldWithin k n = .ok v ∧
      (n.document.linked = true → k ≤ n.document.root.size + 1) := by
  unfold Node.unfolded at h
  split at h
  · exact ⟨_, h, fun _ => Nat.le_refl _⟩
  · next hplain =>
      rw [Bool.not_eq_true] at hplain
      cases h
      exact ⟨_, unfoldWithin_of_plain hplain (Nat.le_refl _), fun hlinked => by simp_all⟩

/-! ## Being alike, part by part -/

theorem alike_list_iff {xs ys : List Json} (ha : a.settle = .ok left) (hb : b.settle = .ok right)
    (hxs : left.value = .arr xs) (hys : right.value = .arr ys) :
    Alike a b ↔ xs.length = ys.length ∧ ∀ i x y, xs[i]? = some x → ys[i]? = some y →
      Alike (left.part (.index i) x) (right.part (.index i) y) := by
  constructor
  · intro h
    cases h with
    | list ha' hb' hxs' hys' hlength h =>
        cases ha.symm.trans ha'
        cases hb.symm.trans hb'
        cases hxs.symm.trans hxs'
        cases hys.symm.trans hys'
        exact ⟨hlength, h⟩
    | object ha' _ hfs =>
        cases ha.symm.trans ha'
        cases hxs.symm.trans hfs
    | scalar ha' hb' hsame =>
        cases hb.symm.trans hb'
        rw [hys, sameScalar_ne_arr] at hsame
        cases hsame
  · rintro ⟨hlength, h⟩
    exact .list ha hb hxs hys hlength h

theorem alike_object_iff {fs gs : Fields} (ha : a.settle = .ok left) (hb : b.settle = .ok right)
    (hfs : left.value = .obj fs) (hgs : right.value = .obj gs) :
    Alike a b ↔ fs.length = gs.length ∧ ∀ f ∈ fs, ∃ y, gs.lookup f.1 = some y ∧
      Alike (left.part (.key f.1) f.2) (right.part (.key f.1) y) := by
  constructor
  · intro h
    cases h with
    | list ha' _ hxs =>
        cases ha.symm.trans ha'
        cases hfs.symm.trans hxs
    | object ha' hb' hfs' hgs' hlength hkeys h =>
        cases ha.symm.trans ha'
        cases hb.symm.trans hb'
        cases hfs.symm.trans hfs'
        cases hgs.symm.trans hgs'
        refine ⟨hlength, fun f hf => ?_⟩
        obtain ⟨y, hy⟩ := Option.isSome_iff_exists.mp (hkeys f hf)
        exact ⟨y, hy, h f hf y hy⟩
    | scalar ha' hb' hsame =>
        cases hb.symm.trans hb'
        rw [hgs, sameScalar_ne_obj] at hsame
        cases hsame
  · rintro ⟨hlength, h⟩
    refine .object ha hb hfs hgs hlength (fun f hf => ?_) fun f hf y hy => ?_
    · obtain ⟨y, hy, -⟩ := h f hf
      rw [hy]
      rfl
    · obtain ⟨y', hy', halike⟩ := h f hf
      obtain rfl : y = y' := Option.some.inj (hy.symm.trans hy')
      exact halike

theorem alike_scalar_iff (ha : a.settle = .ok left) (hb : b.settle = .ok right)
    (hlist : ∀ xs ys, left.value = .arr xs → right.value ≠ .arr ys)
    (hobject : ∀ fs gs, left.value = .obj fs → right.value ≠ .obj gs) :
    Alike a b ↔ left.value.sameScalar right.value = true := by
  constructor
  · intro h
    cases h with
    | list ha' hb' hxs hys =>
        cases ha.symm.trans ha'
        cases hb.symm.trans hb'
        exact absurd hys (hlist _ _ hxs)
    | object ha' hb' hfs hgs =>
        cases ha.symm.trans ha'
        cases hb.symm.trans hb'
        exact absurd hgs (hobject _ _ hfs)
    | scalar ha' hb' hsame =>
        cases ha.symm.trans ha'
        cases hb.symm.trans hb'
        exact hsame
  · exact .scalar ha hb

/-! ## What comparing finds out -/

/-- A comparison gives an answer, which tells whether something is so. -/
def Decides (e : Except Fault Bool) (p : Prop) : Prop := ∃ v, e = .ok v ∧ (v = true ↔ p)

theorem decides_pure {v : Bool} {p : Prop} (h : v = true ↔ p) : Decides (pure v) p := ⟨v, rfl, h⟩

theorem Decides.congr {e : Except Fault Bool} {p q : Prop} (h : Decides e p) (hiff : p ↔ q) :
    Decides e q := by
  obtain ⟨v, he, hv⟩ := h
  exact ⟨v, he, hv.trans hiff⟩

theorem decides_allM {α : Type} {f : α → Except Fault Bool} {P : α → Prop} {xs : List α}
    (h : ∀ x ∈ xs, Decides (f x) (P x)) : Decides (xs.allM f) (∀ x ∈ xs, P x) := by
  induction xs with
  | nil => exact decides_pure (by simp)
  | cons x xs ih =>
      obtain ⟨v, hfirst, hv⟩ := h x List.mem_cons_self
      rw [List.allM, ok_bind hfirst]
      cases v with
      | false => exact decides_pure (by simpa using fun hx => absurd (hv.mpr hx) Bool.false_ne_true)
      | true =>
          refine (ih fun y hy => h y (List.mem_cons_of_mem _ hy)).congr ?_
          rw [List.forall_mem_cons, iff_true_intro (hv.mp rfl), true_and]

theorem mem_zip_itemNodes {xs ys : List Json} {p : Node × Node} :
    p ∈ (left.itemNodes xs).zip (right.itemNodes ys) ↔ ∃ i x y, xs[i]? = some x ∧
      ys[i]? = some y ∧ p = (left.part (.index i) x, right.part (.index i) y) := by
  simp only [List.mem_iff_getElem?, List.getElem?_zip_eq_some, Node.itemNodes,
    List.getElem?_mapIdx, Option.map_eq_some_iff]
  constructor
  · rintro ⟨i, ⟨x, hx, hfirst⟩, y, hy, hsecond⟩
    exact ⟨i, x, y, hx, hy, Prod.ext hfirst.symm hsecond.symm⟩
  · rintro ⟨i, x, y, hx, hy, rfl⟩
    exact ⟨i, ⟨x, hx, rfl⟩, y, hy, rfl⟩

/-- Lists are compared by their lengths, and then item by item. -/
theorem items_decide {xs ys : List Json} (h : ∀ i x y, xs[i]? = some x → ys[i]? = some y →
    Decides (Node.equalWithin fuel (left.part (.index i) x) (right.part (.index i) y))
      (Alike (left.part (.index i) x) (right.part (.index i) y))) :
    Decides (if xs.length != ys.length then pure false else
        ((left.itemNodes xs).zip (right.itemNodes ys)).allM fun p =>
          Node.equalWithin fuel p.1 p.2)
      (xs.length = ys.length ∧ ∀ i x y, xs[i]? = some x → ys[i]? = some y →
        Alike (left.part (.index i) x) (right.part (.index i) y)) := by
  split
  · next hlength =>
      exact decides_pure (by simpa using fun heq => absurd heq (by simpa using hlength))
  · next hlength =>
      have hall : Decides (((left.itemNodes xs).zip (right.itemNodes ys)).allM fun p =>
          Node.equalWithin fuel p.1 p.2)
          (∀ p ∈ (left.itemNodes xs).zip (right.itemNodes ys), Alike p.1 p.2) := by
        refine decides_allM fun p hp => ?_
        obtain ⟨i, x, y, hx, hy, rfl⟩ := mem_zip_itemNodes.mp hp
        exact h i x y hx hy
      refine hall.congr ?_
      rw [and_iff_right (by simpa using hlength)]
      constructor
      · intro hall i x y hx hy
        exact hall _ (mem_zip_itemNodes.mpr ⟨i, x, y, hx, hy, rfl⟩)
      · intro hall p hp
        obtain ⟨i, x, y, hx, hy, rfl⟩ := mem_zip_itemNodes.mp hp
        exact hall i x y hx hy

/-- Objects are compared by how many fields they have, and then field by field. -/
theorem fields_decide {fs gs : Fields} (h : ∀ f ∈ fs, ∀ y, gs.lookup f.1 = some y →
    Decides (Node.equalWithin fuel (left.part (.key f.1) f.2) (right.part (.key f.1) y))
      (Alike (left.part (.key f.1) f.2) (right.part (.key f.1) y))) :
    Decides (if fs.length != gs.length then pure false else
        (left.fieldNodes fs).allM fun f =>
          match gs.lookup f.1 with
          | some y => Node.equalWithin fuel f.2 (right.part (.key f.1) y)
          | none => pure false)
      (fs.length = gs.length ∧ ∀ f ∈ fs, ∃ y, gs.lookup f.1 = some y ∧
        Alike (left.part (.key f.1) f.2) (right.part (.key f.1) y)) := by
  split
  · next hlength =>
      exact decides_pure (by simpa using fun heq => absurd heq (by simpa using hlength))
  · next hlength =>
      rw [Node.fieldNodes]
      refine (decides_allM (P := fun f => ∃ y, gs.lookup f.1 = some y ∧
        Alike f.2 (right.part (.key f.1) y)) fun f hf => ?_).congr ?_
      · obtain ⟨f, hmem, rfl⟩ := List.mem_map.mp hf
        dsimp only
        split
        · next y hy => exact (h f hmem y hy).congr (by simp [hy])
        · next hnone => exact decides_pure (by simp [hnone])
      · rw [and_iff_right (by simpa using hlength), List.forall_mem_map]

/-- Fuel for one of two readable nodes is enough to compare them. -/
theorem equalWithin_decides {va vb : Json} (ha : Node.unfoldWithin k a = .ok va)
    (hb : Node.unfoldWithin l b = .ok vb) (h : k ≤ fuel ∨ l ≤ fuel) :
    Decides (Node.equalWithin fuel a b) (Alike a b) := by
  induction fuel generalizing k l a b va vb with
  | zero =>
      obtain ⟨_, rfl, -⟩ := unfoldWithin_eq_ok ha
      obtain ⟨_, rfl, -⟩ := unfoldWithin_eq_ok hb
      omega
  | succ fuel ih =>
      obtain ⟨k, rfl, hunfolda⟩ := unfoldWithin_eq_ok ha
      obtain ⟨l, rfl, hunfoldb⟩ := unfoldWithin_eq_ok hb
      have hfuel : k ≤ fuel ∨ l ≤ fuel := by omega
      obtain ⟨left, hleft⟩ := hunfolda.settles
      obtain ⟨right, hright⟩ := hunfoldb.settles
      rw [Node.equalWithin, ok_bind hleft, ok_bind hright]
      split
      · next xs ys hxs hys =>
          rw [alike_list_iff hleft hright hxs hys]
          refine items_decide fun i x y hx hy => ?_
          obtain ⟨wa, hwa⟩ := hunfolda.item hleft hxs hx
          obtain ⟨wb, hwb⟩ := hunfoldb.item hright hys hy
          exact ih hwa hwb hfuel
      · next fs gs hfs hgs =>
          rw [alike_object_iff hleft hright hfs hgs]
          refine fields_decide fun f hf y hy => ?_
          obtain ⟨wa, hwa⟩ := hunfolda.field hleft hfs hf
          obtain ⟨wb, hwb⟩ := hunfoldb.field hright hgs (Json.mem_of_lookup hy)
          exact ih hwa hwb hfuel
      · next hlist hobject =>
          refine decides_pure (alike_scalar_iff hleft hright ?_ ?_).symm
          · exact fun xs ys hxs hys => hlist xs ys hxs hys
          · exact fun fs gs hfs hgs => hobject fs gs hfs hgs

/-- Alike values that are written out are found equal. -/
theorem same_of_alike (ha : a.document.linked = false) (hb : b.document.linked = false)
    (h : Alike a b) : a.value.same b.value = true := by
  induction h with
  | @list a b left right xs ys hleft hright hxs hys hlength _ ih =>
      cases (Node.settle_of_plain ha).symm.trans hleft
      cases (Node.settle_of_plain hb).symm.trans hright
      rw [hxs, hys, Json.same, sameItems_iff]
      exact ⟨hlength, fun i x y hx hy => ih i x y hx hy ha hb⟩
  | @object a b left right fs gs hleft hright hfs hgs hlength hkeys _ ih =>
      cases (Node.settle_of_plain ha).symm.trans hleft
      cases (Node.settle_of_plain hb).symm.trans hright
      rw [hfs, hgs, Json.same, Bool.and_eq_true, beq_iff_eq, sameFields_iff]
      refine ⟨hlength, fun f hf => ?_⟩
      obtain ⟨y, hy⟩ := Option.isSome_iff_exists.mp (hkeys f hf)
      exact ⟨y, hy, ih f hf y hy ha hb⟩
  | @scalar a b left right hleft hright hsame =>
      cases (Node.settle_of_plain ha).symm.trans hleft
      cases (Node.settle_of_plain hb).symm.trans hright
      unfold Json.same
      split
      · next hys =>
          rw [hys, sameScalar_ne_arr] at hsame
          cases hsame
      · next hgs =>
          rw [hgs, sameScalar_ne_obj] at hsame
          cases hsame
      · exact hsame

/-- Comparing readable nodes tells whether they are alike. -/
theorem equal_decides (ha : Readable a) (hb : Readable b) : Decides (a.equal b) (Alike a b) := by
  obtain ⟨va, hva⟩ := ha
  obtain ⟨vb, hvb⟩ := hb
  obtain ⟨k, hka, hkle⟩ := unfolded_eq_ok hva
  obtain ⟨l, hlb, hlle⟩ := unfolded_eq_ok hvb
  unfold Node.equal
  split
  · next hlinked =>
      refine equalWithin_decides hka hlb ?_
      -- a linked node has enough fuel for itself
      rcases Bool.or_eq_true_iff.mp hlinked with h | h
      · have := hkle h
        omega
      · have := hlle h
        omega
  · next hplain =>
      rw [Bool.or_eq_true, not_or, Bool.not_eq_true, Bool.not_eq_true] at hplain
      exact decides_pure ⟨alike_of_same hplain.1 hplain.2, same_of_alike hplain.1 hplain.2⟩

/-! ## Being like itself -/

/-- A node that is unfolded to a value without invalid numbers is like itself. -/
theorem alike_of_unfoldWithin {D : Set Document} (hD : Sources D) (hn : Stands D n)
    (h : Node.unfoldWithin k n = .ok v) (hvalid : v.hasInvalid = false) : Alike n n := by
  induction k generalizing n v with
  | zero => cases h
  | succ k ih =>
      obtain ⟨depth, hdepth, hunfold⟩ := unfoldWithin_eq_ok h
      obtain rfl : k = depth := Nat.succ.inj hdepth
      cases hunfold with
      | @list here items vs hsettle hvalue hall =>
          rw [Json.hasInvalid, Json.itemsHaveInvalid_iff] at hvalid
          have hstands := hD.closed.settle hn hsettle
          refine .list hsettle hsettle hvalue hvalue rfl fun i x y hx hy => ?_
          obtain rfl : x = y := Option.some.inj (hx.symm.trans hy)
          have hmem := List.mem_of_getElem? (getElem?_itemNodes (n := here) hx)
          obtain ⟨w, hw, hunfolded⟩ := exists_left_of_forall₂ hall.flip _ hmem
          exact ih (hD.closed.item hstands hvalue hx) hunfolded (hvalid w hw)
      | @object here fields gs hsettle hvalue hall =>
          rw [Json.hasInvalid, Json.fieldsHaveInvalid_iff] at hvalid
          have hstands := hD.closed.settle hn hsettle
          have hnodup := hstands.nodup_keys hD hvalue
          refine (alike_object_iff hsettle hsettle hvalue hvalue).mpr ⟨rfl, fun f hf => ?_⟩
          have hfield : (f.1, here.part (.key f.1) f.2) ∈ here.fieldNodes fields :=
            List.mem_map.mpr ⟨f, hf, rfl⟩
          obtain ⟨g, hg, -, hunfolded⟩ := exists_left_of_forall₂ hall.flip _ hfield
          exact ⟨f.2, Json.lookup_of_mem hnodup hf,
            ih (hD.closed.listed hstands hvalue f hf) hunfolded (hvalid g hg)⟩
      | scalar hsettle hlist hobject =>
          exact .scalar hsettle hsettle (Json.sameScalar_self hlist hobject hvalid)

/-- A node that stands for a value without invalid numbers is like itself. -/
theorem alike_self {D : Set Document} (hD : Sources D) (hn : Stands D n) (h : n.unfolded = .ok v)
    (hvalid : v.hasInvalid = false) : Alike n n := by
  obtain ⟨k, hk, -⟩ := unfolded_eq_ok h
  exact alike_of_unfoldWithin hD hn hk hvalid

end ApiScaffold
