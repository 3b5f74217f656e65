import ApiScaffold.Proofs.Alike
import ApiScaffold.Proofs.WrittenPointers

set_option autoImplicit false

/-! # Responses in another order

Two values are the same up to order (`Reordered`) when they differ at most in the order of the
fields of objects at some places. Such values have the same size and are equal to the same values,
and listing the fields of one object in another order gives such values (`reordered_reorder`). -/

namespace ApiScaffold

/-- Two optional values that correspond are both there or both missing. -/
theorem rel_cases {α β : Type} {R : α → β → Prop} {a? : Option α} {b? : Option β}
    (h : Option.Rel R a? b?) :
    a? = none ∧ b? = none ∨ ∃ a b, a? = some a ∧ b? = some b ∧ R a b := by
  cases h with
  | none => exact Or.inl ⟨rfl, rfl⟩
  | some hR => exact Or.inr ⟨_, _, rfl, rfl, hR⟩

namespace Json

/-- Values at a place that differ at most in the order of the fields of objects at free places. A
place is told by the steps to it, the last one first. No object in the values has a key twice. -/
inductive Reordered (free : List ApiScaffold.Step → Prop) :
    List ApiScaffold.Step → Json → Json → Prop where
  | scalar {place : List ApiScaffold.Step} {v : Json} (h : v.isHashable = true) :
      Reordered free place v v
  | list {place : List ApiScaffold.Step} {xs ys : List Json} (hlength : xs.length = ys.length)
      (h : ∀ i x y, xs[i]? = some x → ys[i]? = some y → Reordered free (.index i :: place) x y) :
      Reordered free place (.arr xs) (.arr ys)
  | object {place : List ApiScaffold.Step} {fs gs : Fields} (honce : (fs.map (·.1)).Nodup)
      (hkeys : fs.map (·.1) = gs.map (·.1) ∨ free place ∧ (fs.map (·.1)).Perm (gs.map (·.1)))
      (h : ∀ key x y, fs.lookup key = some x → gs.lookup key = some y →
        Reordered free (.key key :: place) x y) :
      Reordered free place (.obj fs) (.obj gs)

variable {free : List ApiScaffold.Step → Prop} {place : List ApiScaffold.Step} {u v w : Json}
  {xs ys items : List Json} {fs gs fields : Fields}

/-- The items of two lists that are the same up to order in the items. -/
structure ItemsReordered (free : List ApiScaffold.Step → Prop) (place : List ApiScaffold.Step)
    (xs ys : List Json) : Prop where
  length : xs.length = ys.length
  get : ∀ i x y, xs[i]? = some x → ys[i]? = some y → Reordered free (.index i :: place) x y

/-- The fields of two objects that are the same up to order. -/
structure FieldsReordered (free : List ApiScaffold.Step → Prop) (place : List ApiScaffold.Step)
    (fs gs : Fields) : Prop where
  once : (fs.map (·.1)).Nodup
  keys : fs.map (·.1) = gs.map (·.1) ∨ free place ∧ (fs.map (·.1)).Perm (gs.map (·.1))
  lookup : ∀ key, Option.Rel (Reordered free (.key key :: place)) (fs.lookup key) (gs.lookup key)

theorem FieldsReordered.perm (h : FieldsReordered free place fs gs) :
    (fs.map (·.1)).Perm (gs.map (·.1)) := by
  rcases h.keys with heq | ⟨-, hperm⟩
  · rw [heq]
  · exact hperm

theorem FieldsReordered.once' (h : FieldsReordered free place fs gs) : (gs.map (·.1)).Nodup :=
  h.perm.nodup_iff.mp h.once

theorem FieldsReordered.length (h : FieldsReordered free place fs gs) : fs.length = gs.length := by
  simpa using h.perm.length_eq

theorem fieldsReordered_of (honce : (fs.map (·.1)).Nodup)
    (hkeys : fs.map (·.1) = gs.map (·.1) ∨ free place ∧ (fs.map (·.1)).Perm (gs.map (·.1)))
    (h : ∀ key x y, fs.lookup key = some x → gs.lookup key = some y →
      Reordered free (.key key :: place) x y) : FieldsReordered free place fs gs := by
  refine ⟨honce, hkeys, fun key => ?_⟩
  have hperm : (fs.map (·.1)).Perm (gs.map (·.1)) := by
    rcases hkeys with heq | ⟨-, hperm⟩
    · rw [heq]
    · exact hperm
  have hiff : (fs.lookup key).isSome = true ↔ (gs.lookup key).isSome = true := by
    rw [isSome_lookup_iff, isSome_lookup_iff, hperm.mem_iff]
  cases hx : fs.lookup key with
  | none =>
      cases hy : gs.lookup key with
      | none => exact .none
      | some y => simp [hx, hy] at hiff
  | some x =>
      cases hy : gs.lookup key with
      | none => simp [hx, hy] at hiff
      | some y => exact .some (h key x y hx hy)

theorem forall₂_of_getElem? {R : Json → Json → Prop} (hlength : xs.length = ys.length)
    (h : ∀ (i : Nat) x y, xs[i]? = some x → ys[i]? = some y → R x y) : List.Forall₂ R xs ys := by
  refine List.forall₂_iff_get.mpr ⟨hlength, fun i hx hy => ?_⟩
  exact h i _ _ (List.getElem?_eq_getElem hx) (List.getElem?_eq_getElem hy)

/-- The shapes that values can have which are the same up to order. -/
theorem Reordered.shapes (h : Reordered free place v w) :
    (v.isHashable = true ∧ w = v) ∨
      (∃ xs ys, v = .arr xs ∧ w = .arr ys ∧ ItemsReordered free place xs ys) ∨
      ∃ fs gs, v = .obj fs ∧ w = .obj gs ∧ FieldsReordered free place fs gs := by
  cases h with
  | scalar hscalar => exact Or.inl ⟨hscalar, rfl⟩
  | list hlength hitems => exact Or.inr (Or.inl ⟨_, _, rfl, rfl, hlength, hitems⟩)
  | object honce hkeys hfields =>
      exact Or.inr (Or.inr ⟨_, _, rfl, rfl, fieldsReordered_of honce hkeys hfields⟩)

theorem lookup_map_snd (change : String → Json → Json) (key : String) :
    (fields.map fun f => (f.1, change f.1 f.2)).lookup key =
      (fields.lookup key).map (change key) := by
  induction fields with
  | nil => rfl
  | cons f fields ih =>
      rw [List.map_cons, List.lookup_cons, List.lookup_cons]
      by_cases h : key = f.1
      · simp [h]
      · rw [beq_false_of_ne h]
        exact ih

/-- Fields with the same keys in the same order correspond one by one. -/
theorem FieldsReordered.forall₂ (h : FieldsReordered free place fs gs)
    (hkeys : fs.map (·.1) = gs.map (·.1)) :
    List.Forall₂ (fun f g => g.1 = f.1 ∧ Reordered free (.key f.1 :: place) f.2 g.2) fs gs := by
  refine List.forall₂_iff_get.mpr ⟨h.length, fun i hx hy => ?_⟩
  have hkey : gs[i].1 = fs[i].1 := by
    have hget := congrArg (·[i]?) hkeys
    simpa [List.getElem?_map, hx, hy, eq_comm] using hget
  refine ⟨hkey, ?_⟩
  have hfirst : fs.lookup fs[i].1 = some fs[i].2 := lookup_of_mem h.once (List.getElem_mem hx)
  have hsecond : gs.lookup fs[i].1 = some gs[i].2 :=
    hkey ▸ lookup_of_mem h.once' (List.getElem_mem hy)
  have hlookup := h.lookup fs[i].1
  rw [hfirst, hsecond] at hlookup
  cases hlookup with
  | some hvalues => exact hvalues

/-- Fields that are the same up to order correspond one by one once they are put in order. -/
theorem FieldsReordered.arrange (h : FieldsReordered free place fs gs) : ∃ mid,
    List.Forall₂ (fun f g => g.1 = f.1 ∧ Reordered free (.key f.1 :: place) f.2 g.2) fs mid ∧
      mid.Perm gs := by
  have hmid : ∀ key, ((fs.map fun f => (f.1, (gs.lookup f.1).getD .null)).lookup key) =
      gs.lookup key := by
    intro key
    rw [lookup_map_snd fun k _ => (gs.lookup k).getD .null]
    rcases rel_cases (h.lookup key) with ⟨hx, hy⟩ | ⟨x, y, hx, hy, -⟩ <;> simp [hx, hy]
  have hkeys : fs.map (·.1) = (fs.map fun f => (f.1, (gs.lookup f.1).getD .null)).map (·.1) := by
    simp [Function.comp_def]
  have honce := hkeys ▸ h.once
  refine ⟨fs.map fun f => (f.1, (gs.lookup f.1).getD .null), ?_, ?_⟩
  · have hfields : FieldsReordered free place fs _ :=
      ⟨h.once, Or.inl hkeys, fun key => (hmid key).symm ▸ h.lookup key⟩
    exact hfields.forall₂ hkeys
  · refine (List.perm_ext_iff_of_nodup (List.Nodup.of_map _ honce)
      (List.Nodup.of_map _ h.once')).mpr fun f => ?_
    exact ⟨fun hf => mem_of_lookup ((hmid f.1) ▸ lookup_of_mem honce hf),
      fun hf => mem_of_lookup ((hmid f.1).symm ▸ lookup_of_mem h.once' hf)⟩

/-- A value is the same up to order as itself when its objects have every key once. -/
theorem reordered_self (h : v.keysOnce = true) : Reordered free place v v := by
  induction hsize : sizeOf v using Nat.strong_induction_on generalizing v place with
  | _ size ih =>
      cases v with
      | arr items =>
          refine .list rfl fun i x y hx hy => ?_
          obtain rfl := Option.some.inj (hx.symm.trans hy)
          have hmem := List.mem_of_getElem? hx
          refine ih (sizeOf x) ?_ (keysOnce_arr.mp h x hmem) rfl
          have hlt := List.sizeOf_lt_of_mem hmem
          rw [← hsize, Json.arr.sizeOf_spec]
          omega
      | obj fields =>
          obtain ⟨honce, hall⟩ := keysOnce_obj.mp h
          refine .object honce (Or.inl rfl) fun key x y hx hy => ?_
          obtain rfl := Option.some.inj (hx.symm.trans hy)
          have hmem := mem_of_lookup hx
          refine ih (sizeOf x) ?_ (hall _ hmem) rfl
          have hlt := List.sizeOf_lt_of_mem hmem
          rw [← hsize, Json.obj.sizeOf_spec]
          have hfield : sizeOf (key, x) = 1 + sizeOf key + sizeOf x := rfl
          omega
      | _ => exact .scalar rfl

/-! ## What does not hang on the order -/

theorem Reordered.truthy (h : Reordered free place v w) : w.truthy = v.truthy := by
  rcases h.shapes with ⟨-, rfl⟩ | ⟨xs, ys, rfl, rfl, hall⟩ | ⟨fs, gs, rfl, rfl, hfields⟩
  · rfl
  · have hlength := hall.length
    cases xs <;> cases ys <;> simp_all [Json.truthy]
  · have hlength := hfields.length
    cases fs <;> cases gs <;> simp_all [Json.truthy]

theorem Reordered.isHashable (h : Reordered free place v w) : w.isHashable = v.isHashable := by
  rcases h.shapes with ⟨-, rfl⟩ | ⟨xs, ys, rfl, rfl, -⟩ | ⟨fs, gs, rfl, rfl, -⟩ <;> rfl

/-- Values that are neither lists nor objects are the same. -/
theorem Reordered.eq_iff (h : Reordered free place v w) (hu : u.isHashable = true) :
    w = u ↔ v = u := by
  rcases h.shapes with ⟨-, rfl⟩ | ⟨xs, ys, rfl, rfl, -⟩ | ⟨fs, gs, rfl, rfl, -⟩
  · rfl
  · constructor <;> (rintro rfl; cases hu)
  · constructor <;> (rintro rfl; cases hu)

theorem sizeItems_eq (items : List Json) : sizeItems items = (items.map size).sum := by
  induction items with
  | nil => rfl
  | cons x items ih => rw [sizeItems, ih, List.map_cons, List.sum_cons]

/-- The size of the fields of an object, counted key by key. -/
theorem sizeFields_eq (h : (fields.map (·.1)).Nodup) :
    sizeFields fields =
      ((fields.map (·.1)).map fun key => ((fields.lookup key).map size).getD 0).sum := by
  have hsum : ∀ fields : Fields, sizeFields fields = (fields.map fun f => f.2.size).sum := by
    intro fields
    induction fields with
    | nil => rfl
    | cons f fields ih => rw [sizeFields, ih, List.map_cons, List.sum_cons]
  rw [hsum, List.map_map]
  refine congrArg List.sum (List.map_congr_left fun f hf => ?_)
  rw [Function.comp_apply, lookup_of_mem h hf, Option.map_some, Option.getD_some]

theorem Reordered.size (h : Reordered free place v w) : w.size = v.size := by
  induction h with
  | scalar _ => rfl
  | @list place xs ys hlength _ ih =>
      have hsizes : ys.map Json.size = xs.map Json.size := by
        have hall := forall₂_of_getElem? (R := fun x y => y.size = x.size) hlength ih
        rw [← List.forall₂_eq_eq_eq, List.forall₂_map_left_iff, List.forall₂_map_right_iff]
        exact hall.flip
      rw [Json.size, Json.size, sizeItems_eq, sizeItems_eq, hsizes]
  | @object place fs gs honce hkeys h ih =>
      have hfields := fieldsReordered_of honce hkeys h
      have heach : ∀ key, ((gs.lookup key).map Json.size).getD 0 =
          ((fs.lookup key).map Json.size).getD 0 := by
        intro key
        rcases rel_cases (hfields.lookup key) with ⟨hx, hy⟩ | ⟨x, y, hx, hy, -⟩
        · rw [hx, hy]
        · rw [hx, hy, Option.map_some, Option.map_some, ih key x y hx hy]
      rw [Json.size, Json.size, sizeFields_eq hfields.once', sizeFields_eq honce]
      simp only [heach]
      exact congrArg (· + 1) (hfields.perm.symm.map _).sum_nat

/-- Whether values are equal to the same values. -/
def EqualAlike (v w : Json) : Prop := ∀ u, w.same u = v.same u ∧ u.same w = u.same v

theorem sameItems_congr (h : List.Forall₂ EqualAlike xs ys) (zs : List Json) :
    sameItems ys zs = sameItems xs zs ∧ sameItems zs ys = sameItems zs xs := by
  induction h generalizing zs with
  | nil => exact ⟨rfl, rfl⟩
  | cons hfirst _ ih =>
      cases zs with
      | nil => exact ⟨rfl, rfl⟩
      | cons z zs =>
          simp only [sameItems]
          exact ⟨by rw [(hfirst z).1, (ih zs).1], by rw [(hfirst z).2, (ih zs).2]⟩

theorem sameFields_iff_lookup (h : (fs.map (·.1)).Nodup) :
    Json.sameFields fs gs = true ↔
      ∀ key x, fs.lookup key = some x → ∃ y, gs.lookup key = some y ∧ x.same y = true := by
  rw [sameFields_iff]
  exact ⟨fun hall key x hx => hall (key, x) (mem_of_lookup hx),
    fun hall f hf => hall f.1 f.2 (lookup_of_mem h hf)⟩

theorem sameFields_congr (hfs : (fs.map (·.1)).Nodup) (hgs : (gs.map (·.1)).Nodup)
    (h : ∀ key, Option.Rel EqualAlike (fs.lookup key) (gs.lookup key)) (fields : Fields) :
    sameFields gs fields = sameFields fs fields ∧ sameFields fields gs = sameFields fields fs := by
  constructor
  · rw [Bool.eq_iff_iff, sameFields_iff_lookup hgs, sameFields_iff_lookup hfs]
    refine forall_congr' fun key => ?_
    rcases rel_cases (h key) with ⟨hx, hy⟩ | ⟨x, y, hx, hy, hequal⟩
    · simp [hx, hy]
    · simp [hx, hy, (hequal _).1]
  · rw [Bool.eq_iff_iff, sameFields_iff, sameFields_iff]
    refine forall_congr' fun f => forall_congr' fun _ => ?_
    rcases rel_cases (h f.1) with ⟨hx, hy⟩ | ⟨x, y, hx, hy, hequal⟩
    · simp [hx, hy]
    · simp [hx, hy, (hequal _).2]

/-- Values that are the same up to order are equal to the same values. -/
theorem Reordered.equalAlike (h : Reordered free place v w) : EqualAlike v w := by
  induction h with
  | scalar _ => exact fun u => ⟨rfl, rfl⟩
  | @list place xs ys hlength _ ih =>
      intro u
      have hall : List.Forall₂ EqualAlike xs ys := forall₂_of_getElem? hlength ih
      cases u with
      | arr zs => simpa only [Json.same] using sameItems_congr hall zs
      | _ => simp [Json.same, Json.sameScalar, Json.asInt?]
  | @object place fs gs honce hkeys h ih =>
      intro u
      have hfields := fieldsReordered_of honce hkeys h
      have hall : ∀ key, Option.Rel EqualAlike (fs.lookup key) (gs.lookup key) := by
        intro key
        rcases rel_cases (hfields.lookup key) with ⟨hx, hy⟩ | ⟨x, y, hx, hy, -⟩
        · rw [hx, hy]
          exact .none
        · rw [hx, hy]
          exact .some (ih key x y hx hy)
      cases u with
      | obj fields =>
          obtain ⟨hleft, hright⟩ := sameFields_congr honce hfields.once' hall fields
          simp only [Json.same, hleft, hright, hfields.length, and_self]
      | _ => simp [Json.same, Json.sameScalar, Json.asInt?]

/-! ## Listing fields in another order -/

/-- A value in which the object that steps lead to lists the given fields. -/
def reorder (order : Fields) : List ApiScaffold.Step → Json → Json
  | [], .obj _ => .obj order
  | .key key :: steps, .obj fields =>
    .obj (fields.map fun f => (f.1, if f.1 = key then reorder order steps f.2 else f.2))
  | .index i :: steps, .arr items =>
    .arr (items.mapIdx fun j x => if j = i then reorder order steps x else x)
  | _, v => v

theorem lookup_of_perm {order : Fields} (honce : (fields.map (·.1)).Nodup)
    (hperm : order.Perm fields) (key : String) : order.lookup key = fields.lookup key := by
  have honce' : (order.map (·.1)).Nodup := (hperm.map _).nodup_iff.mpr honce
  refine Option.ext fun u => ?_
  exact ⟨fun h => lookup_of_mem honce (hperm.mem_iff.mp (mem_of_lookup h)),
    fun h => lookup_of_mem honce' (hperm.mem_iff.mpr (mem_of_lookup h))⟩

/-- A value is the same up to order when an object at a free place lists its fields in another
order. -/
theorem reordered_reorder {order : Fields} (steps : List ApiScaffold.Step)
    (hfree : free (steps.reverse ++ place)) (hv : v.keysOnce = true)
    (hat : v.along? steps = some (.obj fields)) (hperm : order.Perm fields) :
    Reordered free place v (v.reorder order steps) := by
  induction steps generalizing v place with
  | nil =>
      cases hat
      obtain ⟨honce, hall⟩ := keysOnce_obj.mp hv
      refine .object honce (Or.inr ⟨hfree, (hperm.map _).symm⟩) fun key x y hx hy => ?_
      rw [lookup_of_perm honce hperm, hx] at hy
      obtain rfl := Option.some.inj hy
      exact reordered_self (hall _ (mem_of_lookup hx))
  | cons step steps ih =>
      rw [along?, List.foldlM_cons] at hat
      obtain ⟨u, hu, hat⟩ := Option.bind_eq_some_iff.mp hat
      rw [List.reverse_cons, List.append_assoc] at hfree
      unfold enter? at hu
      split at hu
      · next fields key =>
          obtain ⟨honce, hall⟩ := keysOnce_obj.mp hv
          refine .object honce (Or.inl (by simp [Function.comp_def])) fun key' x y hx hy => ?_
          rw [lookup_map_snd (fun k v => if k = key then reorder order steps v else v), hx] at hy
          obtain rfl := Option.some.inj hy
          have honceHere := hall _ (mem_of_lookup hx)
          dsimp only
          split
          · next heq =>
              subst heq
              obtain rfl := Option.some.inj (hx.symm.trans hu)
              exact ih hfree honceHere hat
          · exact reordered_self honceHere
      · next items i =>
          refine .list (by simp) fun j x y hx hy => ?_
          rw [List.getElem?_mapIdx, hx] at hy
          obtain rfl := Option.some.inj hy
          have honceHere := keysOnce_arr.mp hv x (List.mem_of_getElem? hx)
          dsimp only
          split
          · next heq =>
              subst heq
              obtain rfl := Option.some.inj (hx.symm.trans hu)
              exact ih hfree honceHere hat
          · exact reordered_self honceHere
      · cases hu

end Json

end ApiScaffold
