import ApiScaffold.Endpoint.Compiler
import ApiScaffold.Proofs.Numbers
import ApiScaffold.Proofs.Places

set_option autoImplicit false

/-! # Equal schemas

Nodes are alike when they stand for equal values (`Alike`): lists item by item, objects field by
field in any order, everything else by what it is worth. What the program compares says so
(`alike_of_equal`), being alike is symmetric and transitive, and a schema that is like one that
describes an object describes an object. -/

namespace ApiScaffold

variable {a b n left right : Node} {D : Set Document}

/-- Two nodes stand for equal values. -/
inductive Alike : Node → Node → Prop where
  | list {a b left right : Node} {xs ys : List Json} (ha : a.settle = .ok left)
      (hb : b.settle = .ok right) (hxs : left.value = .arr xs) (hys : right.value = .arr ys)
      (hlength : xs.length = ys.length)
      (h : ∀ i x y, xs[i]? = some x → ys[i]? = some y →
        Alike (left.part (.index i) x) (right.part (.index i) y)) : Alike a b
  | object {a b left right : Node} {fs gs : Fields} (ha : a.settle = .ok left)
      (hb : b.settle = .ok right) (hfs : left.value = .obj fs) (hgs : right.value = .obj gs)
      (hlength : fs.length = gs.length) (hkeys : ∀ f ∈ fs, (gs.lookup f.1).isSome = true)
      (h : ∀ f ∈ fs, ∀ y, gs.lookup f.1 = some y →
        Alike (left.part (.key f.1) f.2) (right.part (.key f.1) y)) : Alike a b
  | scalar {a b left right : Node} (ha : a.settle = .ok left) (hb : b.settle = .ok right)
      (h : left.value.sameScalar right.value = true) : Alike a b

/-! ## What the program compares -/

theorem allM_eq_ok_true {α : Type} {f : α → Except Fault Bool} {xs : List α}
    (h : xs.allM f = .ok true) : ∀ x ∈ xs, f x = .ok true := by
  induction xs with
  | nil => exact fun x hx => absurd hx List.not_mem_nil
  | cons x xs ih =>
      obtain ⟨first, hfirst, h⟩ := bind_eq_ok.mp h
      cases first with
      | false => cases pure_eq_ok.mp h
      | true =>
          intro y hy
          rcases List.mem_cons.mp hy with rfl | hy
          · exact hfirst
          · exact ih h y hy

theorem getElem?_itemNodes {items : List Json} {i : Nat} {x : Json} (h : items[i]? = some x) :
    (n.itemNodes items)[i]? = some (n.part (.index i) x) := by
  simp [Node.itemNodes, h]

/-- The comparison of whole values finds alike nodes, whatever its fuel. -/
theorem alike_of_equalWithin {fuel : Nat} (h : Node.equalWithin fuel a b = .ok true) :
    Alike a b := by
  induction fuel generalizing a b with
  | zero => cases h
  | succ fuel ih =>
      obtain ⟨left, hleft, h⟩ := bind_eq_ok.mp h
      obtain ⟨right, hright, h⟩ := bind_eq_ok.mp h
      split at h
      · next xs ys hxs hys =>
          split at h
          · cases pure_eq_ok.mp h
          · next hlength =>
              have hall := allM_eq_ok_true h
              refine .list hleft hright hxs hys (by simpa using hlength) fun i x y hx hy => ih ?_
              refine hall (left.part (.index i) x, right.part (.index i) y) ?_
              refine List.mem_of_getElem? (i := i) ?_
              rw [List.getElem?_zip_eq_some]
              exact ⟨getElem?_itemNodes hx, getElem?_itemNodes hy⟩
      · next fs gs hfs hgs =>
          split at h
          · cases pure_eq_ok.mp h
          · next hlength =>
              have hall := allM_eq_ok_true h
              have hfield : ∀ f ∈ fs, ∃ y, gs.lookup f.1 = some y ∧
                  Node.equalWithin fuel (left.part (.key f.1) f.2) (right.part (.key f.1) y) =
                    .ok true := by
                intro f hf
                have hthis := hall (f.1, left.part (.key f.1) f.2) (List.mem_map.mpr ⟨f, hf, rfl⟩)
                split at hthis
                · next y hy => exact ⟨y, hy, hthis⟩
                · cases pure_eq_ok.mp hthis
              refine .object hleft hright hfs hgs (by simpa using hlength) ?_ ?_
              · intro f hf
                obtain ⟨y, hy, -⟩ := hfield f hf
                rw [hy]
                rfl
              · intro f hf y hy
                obtain ⟨y', hy', hequal⟩ := hfield f hf
                obtain rfl : y = y' := Option.some.inj (hy.symm.trans hy')
                exact ih hequal
      · exact .scalar hleft hright (pure_eq_ok.mp h)

theorem sameItems_iff {xs ys : List Json} : Json.sameItems xs ys = true ↔
    xs.length = ys.length ∧
      ∀ (i : Nat) (x y : Json), xs[i]? = some x → ys[i]? = some y → x.same y = true := by
  induction xs generalizing ys with
  | nil => cases ys <;> simp [Json.sameItems]
  | cons x xs ih =>
      cases ys with
      | nil => simp [Json.sameItems]
      | cons y ys =>
          rw [Json.sameItems, Bool.and_eq_true, ih]
          constructor
          · rintro ⟨hfirst, hlength, hrest⟩
            refine ⟨by simp [hlength], fun i => ?_⟩
            cases i with
            | zero => simpa using hfirst
            | succ i => simpa using hrest i
          · rintro ⟨hlength, hall⟩
            exact ⟨hall 0 x y rfl rfl, by simpa using hlength, fun i => hall (i + 1)⟩

theorem sameFields_iff {fs gs : Fields} : Json.sameFields fs gs = true ↔
    ∀ f ∈ fs, ∃ y, gs.lookup f.1 = some y ∧ f.2.same y = true := by
  induction fs with
  | nil => simp [Json.sameFields]
  | cons f fs ih =>
      rw [Json.sameFields, List.forall_mem_cons, ← ih]
      cases gs.lookup f.1 with
      | none => simp
      | some y => simp

/-- The comparison of values that are written out finds alike nodes. -/
theorem alike_of_same (ha : a.document.linked = false) (hb : b.document.linked = false)
    (h : a.value.same b.value = true) : Alike a b := by
  induction hsize : sizeOf a.value using Nat.strong_induction_on generalizing a b with
  | _ size ih =>
      have hasettle : a.settle = .ok a := Node.settle_of_plain ha
      have hbsettle : b.settle = .ok b := Node.settle_of_plain hb
      unfold Json.same at h
      split at h
      · next xs ys hxs hys =>
          obtain ⟨hlength, hall⟩ := sameItems_iff.mp h
          refine .list hasettle hbsettle hxs hys hlength fun i x y hx hy => ?_
          refine ih (sizeOf x) ?_ ha hb (hall i x y hx hy) rfl
          have hlt := List.sizeOf_lt_of_mem (List.mem_of_getElem? hx)
          rw [← hsize, hxs, Json.arr.sizeOf_spec]
          omega
      · next fs gs hfs hgs =>
          rw [Bool.and_eq_true, beq_iff_eq, sameFields_iff] at h
          obtain ⟨hlength, hall⟩ := h
          refine .object hasettle hbsettle hfs hgs hlength ?_ ?_
          · intro f hf
            obtain ⟨y, hy, -⟩ := hall f hf
            rw [hy]
            rfl
          · intro f hf y hy
            obtain ⟨y', hy', hsame⟩ := hall f hf
            obtain rfl : y = y' := Option.some.inj (hy.symm.trans hy')
            refine ih (sizeOf f.2) ?_ ha hb hsame rfl
            have hlt := List.sizeOf_lt_of_mem hf
            have hfield : sizeOf f = 1 + sizeOf f.1 + sizeOf f.2 := by
              cases f
              rfl
            rw [← hsize, hfs, Json.obj.sizeOf_spec]
            omega
      · exact .scalar hasettle hbsettle h

/-- The comparison of nodes finds alike nodes. -/
theorem alike_of_equal (h : a.equal b = .ok true) : Alike a b := by
  unfold Node.equal at h
  split at h
  · exact alike_of_equalWithin h
  · next hplain =>
      rw [Bool.or_eq_true, not_or, Bool.not_eq_true, Bool.not_eq_true] at hplain
      exact alike_of_same hplain.1 hplain.2 (pure_eq_ok.mp h)

/-! ## Equivalence -/

theorem isSome_lookup_iff {fields : Fields} {key : String} :
    (fields.lookup key).isSome = true ↔ key ∈ fields.map (·.1) := by
  induction fields with
  | nil => simp
  | cons f fields ih =>
      rw [List.lookup_cons, List.map_cons, List.mem_cons, ← ih]
      by_cases h : key = f.1
      · simp [h]
      · rw [beq_false_of_ne h, or_iff_right h]

/-- Objects of equally many fields have the same keys when one has those of the other. -/
theorem isSome_lookup_of_length {fs gs : Fields} (hfs : (fs.map (·.1)).Nodup)
    (hlength : fs.length = gs.length) (hkeys : ∀ f ∈ fs, (gs.lookup f.1).isSome = true)
    {key : String} (h : (gs.lookup key).isSome = true) : (fs.lookup key).isSome = true := by
  have hsubset : fs.map (·.1) ⊆ gs.map (·.1) := by
    intro key hkey
    obtain ⟨f, hf, rfl⟩ := List.mem_map.mp hkey
    exact isSome_lookup_iff.mp (hkeys f hf)
  have hperm : (fs.map (·.1)).Perm (gs.map (·.1)) :=
    (List.subperm_of_subset hfs hsubset).perm_of_length_le (by simp [hlength])
  exact isSome_lookup_iff.mpr (hperm.symm.subset (isSome_lookup_iff.mp h))

theorem Stands.nodup_keys (hD : Sources D) (hn : Stands D n) {fields : Fields}
    (hfields : n.value = .obj fields) : (fields.map (·.1)).Nodup := by
  have honce := hn.keysOnce hD
  rw [hfields, Json.keysOnce_obj] at honce
  exact honce.1

/-- Equality does not hang on the side, where every key is there once. -/
theorem Alike.symm (hD : Sources D) (ha : Stands D a) (hb : Stands D b) (h : Alike a b) :
    Alike b a := by
  have hP : Closed (Stands D) := hD.closed
  induction h with
  | list hleft hright hxs hys hlength _ ih =>
      refine .list hright hleft hys hxs hlength.symm fun i y x hy hx => ?_
      exact ih i x y hx hy (hP.item (hP.settle ha hleft) hxs hx)
        (hP.item (hP.settle hb hright) hys hy)
  | object hleft hright hfs hgs hlength hkeys _ ih =>
      have hleftStands := hP.settle ha hleft
      have hrightStands := hP.settle hb hright
      have hfsNodup := hleftStands.nodup_keys hD hfs
      have hgsNodup := hrightStands.nodup_keys hD hgs
      refine .object hright hleft hgs hfs hlength.symm ?_ ?_
      · intro g hg
        refine isSome_lookup_of_length hfsNodup hlength hkeys ?_
        rw [Json.lookup_of_mem hgsNodup hg]
        rfl
      · intro g hg x hx
        have hy := Json.lookup_of_mem hgsNodup hg
        exact ih (g.1, x) (Json.mem_of_lookup hx) g.2 hy (hP.lookup hleftStands hfs hx)
          (hP.lookup hrightStands hgs hy)
  | scalar hleft hright hsame => exact .scalar hright hleft (Json.sameScalar_symm hsame)

theorem sameScalar_ne_arr {v : Json} {xs : List Json} :
    Json.sameScalar v (.arr xs) = false := by
  cases v <;> simp [Json.sameScalar, Json.asInt?]

theorem sameScalar_ne_obj {v : Json} {fs : Fields} : Json.sameScalar v (.obj fs) = false := by
  cases v <;> simp [Json.sameScalar, Json.asInt?]

theorem Alike.trans {c : Node} (h : Alike a b) (h' : Alike b c) : Alike a c := by
  induction h generalizing c with
  | list hleft hright hxs hys hlength _ ih =>
      cases h' with
      | list hright' hlast hys' hzs hlength' h' =>
          cases hright.symm.trans hright'
          obtain rfl := Json.arr.inj (hys.symm.trans hys')
          refine .list hleft hlast hxs hzs (hlength.trans hlength') fun i x z hx hz => ?_
          have hy := List.getElem?_eq_getElem (hlength ▸ (List.getElem?_eq_some_iff.mp hx).1)
          exact ih i x _ hx hy (h' i _ z hy hz)
      | object hright' _ hgs =>
          cases hright.symm.trans hright'
          cases hys.symm.trans hgs
      | scalar hright' _ hsame =>
          cases hright.symm.trans hright'
          have hsame := Json.sameScalar_symm hsame
          rw [hys, sameScalar_ne_arr] at hsame
          cases hsame
  | object hleft hright hfs hgs hlength hkeys _ ih =>
      cases h' with
      | list hright' _ hys =>
          cases hright.symm.trans hright'
          cases hgs.symm.trans hys
      | object hright' hlast hgs' hhs hlength' hkeys' h' =>
          cases hright.symm.trans hright'
          obtain rfl := Json.obj.inj (hgs.symm.trans hgs')
          refine .object hleft hlast hfs hhs (hlength.trans hlength') ?_ ?_
          · intro f hf
            obtain ⟨y, hy⟩ := Option.isSome_iff_exists.mp (hkeys f hf)
            exact hkeys' (f.1, y) (Json.mem_of_lookup hy)
          · intro f hf z hz
            obtain ⟨y, hy⟩ := Option.isSome_iff_exists.mp (hkeys f hf)
            exact ih f hf y hy (h' (f.1, y) (Json.mem_of_lookup hy) z hz)
      | scalar hright' _ hsame =>
          cases hright.symm.trans hright'
          have hsame := Json.sameScalar_symm hsame
          rw [hgs, sameScalar_ne_obj] at hsame
          cases hsame
  | scalar hleft hright hsame =>
      cases h' with
      | list hright' _ hys =>
          cases hright.symm.trans hright'
          rw [hys, sameScalar_ne_arr] at hsame
          cases hsame
      | object hright' _ hgs =>
          cases hright.symm.trans hright'
          rw [hgs, sameScalar_ne_obj] at hsame
          cases hsame
      | scalar hright' hlast hsame' =>
          cases hright.symm.trans hright'
          exact .scalar hleft hlast (Json.sameScalar_trans hsame hsame')

/-! ## What alike nodes say -/

/-- A value that is equal to nothing but itself: null or a text. -/
def Json.word? : Json → Option Json
  | .null => some .null
  | .str s => some (.str s)
  | _ => none

theorem Json.eq_of_word? {v w : Json} (h : v.word? = some w) : v = w := by
  cases v <;> simp_all [Json.word?]

theorem Json.word?_of_sameScalar {v w : Json} (h : v.sameScalar w = true) :
    w.word? = v.word? := by
  rcases Json.sameScalar_cases h with ⟨rfl, rfl⟩ | ⟨s, rfl, rfl⟩ | ⟨m, hm⟩ | ⟨x, rfl⟩
  · rfl
  · rfl
  · cases v <;> cases w <;> simp_all [Json.sameScalar, Json.asInt?, Json.word?]
  · cases w <;> simp_all [Json.sameScalar, Json.asInt?, Json.word?]

theorem Node.opened_eq_ok {v : Json} :
    n.opened = .ok v ↔ ∃ here, n.settle = .ok here ∧ here.value = v := by
  unfold Node.opened
  cases n.settle <;> simp [Except.map]

theorem Alike.opened (h : Alike a b) {v : Json} (hv : a.opened = .ok v) :
    ∃ w, b.opened = .ok w ∧ w.word? = v.word? := by
  obtain ⟨here, hhere, rfl⟩ := Node.opened_eq_ok.mp hv
  cases h with
  | list hleft hright hxs hys =>
      cases hleft.symm.trans hhere
      exact ⟨_, Node.opened_eq_ok.mpr ⟨_, hright, hys⟩, by rw [hxs]; rfl⟩
  | object hleft hright hfs hgs =>
      cases hleft.symm.trans hhere
      exact ⟨_, Node.opened_eq_ok.mpr ⟨_, hright, hgs⟩, by rw [hfs]; rfl⟩
  | scalar hleft hright hsame =>
      cases hleft.symm.trans hhere
      exact ⟨_, Node.opened_eq_ok.mpr ⟨_, hright, rfl⟩, Json.word?_of_sameScalar hsame⟩

theorem Alike.isObject (h : Alike a b) {v : Bool} (hv : a.isObject = .ok v) :
    b.isObject = .ok v := by
  obtain ⟨here, hhere, hv⟩ := bind_eq_ok.mp hv
  cases h with
  | list hleft hright hxs hys =>
      cases hleft.symm.trans hhere
      rw [hxs] at hv
      exact bind_eq_ok.mpr ⟨_, hright, by rw [hys]; exact hv⟩
  | object hleft hright hfs hgs =>
      cases hleft.symm.trans hhere
      rw [hfs] at hv
      exact bind_eq_ok.mpr ⟨_, hright, by rw [hgs]; exact hv⟩
  | @scalar _ _ left right hleft hright hsame =>
      cases hleft.symm.trans hhere
      refine bind_eq_ok.mpr ⟨_, hright, ?_⟩
      split at hv
      · next fields hfields =>
          have hsame := Json.sameScalar_symm hsame
          rw [hfields, sameScalar_ne_obj] at hsame
          cases hsame
      · split
        · next fields hfields =>
            rw [hfields, sameScalar_ne_obj] at hsame
            cases hsame
        · exact hv

/-- The fields of alike objects are alike, also where one is missing. -/
theorem Alike.get (hD : Sources D) (ha : Stands D a) (h : Alike a b)
    {key : String} (hget : a.get key = .ok n) : ∃ n', b.get key = .ok n' ∧ Alike n n' := by
  obtain ⟨here, hhere, hget⟩ := bind_eq_ok.mp hget
  split at hget
  · next fields hfields =>
      cases pure_eq_ok.mp hget
      cases h with
      | list hleft _ hxs =>
          cases hleft.symm.trans hhere
          cases hxs.symm.trans hfields
      | scalar hleft _ hsame =>
          cases hleft.symm.trans hhere
          have hsame := Json.sameScalar_symm hsame
          rw [hfields, sameScalar_ne_obj] at hsame
          cases hsame
      | @object _ _ left right fs gs hleft hright hfs hgs hlength hkeys hall =>
          cases hleft.symm.trans hhere
          obtain rfl := Json.obj.inj (hfs.symm.trans hfields)
          refine ⟨right.part (.key key) ((gs.lookup key).getD .null),
            bind_eq_ok.mpr ⟨right, hright, by rw [hgs]; rfl⟩, ?_⟩
          have hnodup := (hD.closed.settle ha hleft).nodup_keys hD hfs
          cases hx : fs.lookup key with
          | some x =>
              obtain ⟨y, hy⟩ := Option.isSome_iff_exists.mp (hkeys (key, x) (Json.mem_of_lookup hx))
              rw [hy]
              exact hall (key, x) (Json.mem_of_lookup hx) y hy
          | none =>
              have hnone : gs.lookup key = none := by
                by_contra hsome
                have hthere := isSome_lookup_of_length hnodup hlength hkeys
                  (Option.isSome_iff_ne_none.mpr hsome)
                rw [hx] at hthere
                cases hthere
              rw [hnone]
              exact .scalar (Node.settle_of_noLink rfl) (Node.settle_of_noLink rfl) rfl
  · exact absurd hget throw_ne_ok

theorem Alike.has (h : Alike a b) {key : String} (hhas : a.has key = .ok true) :
    b.has key = .ok true := by
  obtain ⟨here, hhere, hhas⟩ := bind_eq_ok.mp hhas
  split at hhas
  · next fields hfields =>
      have hthere := pure_eq_ok.mp hhas
      cases h with
      | list hleft _ hxs =>
          cases hleft.symm.trans hhere
          cases hxs.symm.trans hfields
      | scalar hleft _ hsame =>
          cases hleft.symm.trans hhere
          have hsame := Json.sameScalar_symm hsame
          rw [hfields, sameScalar_ne_obj] at hsame
          cases hsame
      | object hleft hright hfs hgs _ hkeys _ =>
          cases hleft.symm.trans hhere
          obtain rfl := Json.obj.inj (hfs.symm.trans hfields)
          obtain ⟨x, hx⟩ := Option.isSome_iff_exists.mp hthere
          refine bind_eq_ok.mpr ⟨_, hright, ?_⟩
          rw [hgs]
          exact pure_eq_ok.mpr (hkeys (key, x) (Json.mem_of_lookup hx))
  · exact absurd hhas throw_ne_ok

theorem firstType_alike {xs ys : List Node} (h : List.Forall₂ Alike xs ys) {v : Json}
    (hv : Schema.firstType xs = .ok v) :
    ∃ w, Schema.firstType ys = .ok w ∧ w.word? = v.word? := by
  induction h with
  | nil => exact ⟨v, hv, rfl⟩
  | cons hfirst _ ih =>
      obtain ⟨value, hvalue, hv⟩ := bind_eq_ok.mp hv
      obtain ⟨value', hvalue', hword⟩ := hfirst.opened hvalue
      split at hv
      · next hnull =>
          obtain ⟨w, hw, hsame⟩ := ih hv
          have hnull' : value' = .str "null" := Json.eq_of_word? (hword.trans (by rw [hnull]; rfl))
          exact ⟨w, bind_eq_ok.mpr ⟨value', hvalue', by rw [if_pos hnull']; exact hw⟩, hsame⟩
      · next hother =>
          cases pure_eq_ok.mp hv
          have hother' : value' ≠ .str "null" := by
            rintro rfl
            exact hother (Json.eq_of_word? (hword.symm.trans rfl))
          exact ⟨value', bind_eq_ok.mpr ⟨value', hvalue', by rw [if_neg hother']; rfl⟩, hword⟩

theorem forall₂_itemNodes {xs ys : List Json} (hlength : xs.length = ys.length)
    (h : ∀ i x y, xs[i]? = some x → ys[i]? = some y →
      Alike (left.part (.index i) x) (right.part (.index i) y)) :
    List.Forall₂ Alike (left.itemNodes xs) (right.itemNodes ys) := by
  refine List.forall₂_iff_get.mpr ⟨by simp [Node.itemNodes, hlength], fun i hi hi' => ?_⟩
  simp only [Node.itemNodes, List.length_mapIdx] at hi hi'
  have hthis := h i _ _ (List.getElem?_eq_getElem hi) (List.getElem?_eq_getElem hi')
  simpa [Node.itemNodes] using hthis

theorem Alike.typeOf (hD : Sources D) (ha : Stands D a) (h : Alike a b)
    {v : Json} (hv : Schema.typeOf a = .ok v) :
    ∃ w, Schema.typeOf b = .ok w ∧ w.word? = v.word? := by
  obtain ⟨isObject, hobject, hv⟩ := bind_eq_ok.mp hv
  have hobject' := h.isObject hobject
  cases isObject with
  | false =>
      cases pure_eq_ok.mp hv
      exact ⟨.null, bind_eq_ok.mpr ⟨false, hobject', rfl⟩, rfl⟩
  | true =>
      obtain ⟨type, htype, hv⟩ := bind_eq_ok.mp hv
      obtain ⟨here, hhere, hv⟩ := bind_eq_ok.mp hv
      obtain ⟨type', htype', halike⟩ := h.get hD ha htype
      cases halike with
      | list hleft hright hxs hys hlength hall =>
          cases hleft.symm.trans hhere
          rw [hxs] at hv
          obtain ⟨w, hw, hword⟩ := firstType_alike (forall₂_itemNodes hlength hall) hv
          refine ⟨w, bind_eq_ok.mpr ⟨true, hobject', bind_eq_ok.mpr ⟨type', htype',
            bind_eq_ok.mpr ⟨_, hright, ?_⟩⟩⟩, hword⟩
          rw [hys]
          exact hw
      | @object _ _ left right fs gs hleft hright hfs hgs =>
          cases hleft.symm.trans hhere
          rw [hfs] at hv
          cases pure_eq_ok.mp hv
          refine ⟨.obj gs, bind_eq_ok.mpr ⟨true, hobject', bind_eq_ok.mpr ⟨type', htype',
            bind_eq_ok.mpr ⟨_, hright, ?_⟩⟩⟩, rfl⟩
          rw [hgs]
          rfl
      | @scalar _ _ left right hleft hright hsame =>
          cases hleft.symm.trans hhere
          split at hv
          · next items hitems =>
              have hsame := Json.sameScalar_symm hsame
              rw [hitems, sameScalar_ne_arr] at hsame
              cases hsame
          · cases pure_eq_ok.mp hv
            refine ⟨right.value, bind_eq_ok.mpr ⟨true, hobject', bind_eq_ok.mpr ⟨type', htype',
              bind_eq_ok.mpr ⟨right, hright, ?_⟩⟩⟩, Json.word?_of_sameScalar hsame⟩
            split
            · next items hitems =>
                rw [hitems, sameScalar_ne_arr] at hsame
                cases hsame
            · rfl

theorem Alike.plain (hD : Sources D) (ha : Stands D a) (h : Alike a b)
    (hplain : a.pointer? = .ok none) : b.pointer? = .ok none := by
  obtain ⟨isObject, hobject, hplain⟩ := bind_eq_ok.mp hplain
  have hobject' := h.isObject hobject
  cases isObject with
  | false => exact bind_eq_ok.mpr ⟨false, hobject', rfl⟩
  | true =>
      obtain ⟨field, hfield, hplain⟩ := bind_eq_ok.mp hplain
      obtain ⟨value, hvalue, hplain⟩ := bind_eq_ok.mp hplain
      obtain ⟨field', hfield', halike⟩ := h.get hD ha hfield
      obtain ⟨value', hvalue', hword⟩ := halike.opened hvalue
      refine bind_eq_ok.mpr ⟨true, hobject', bind_eq_ok.mpr ⟨field', hfield',
        bind_eq_ok.mpr ⟨value', hvalue', ?_⟩⟩⟩
      split
      · next text =>
          rw [Json.eq_of_word? hword.symm] at hplain
          cases pure_eq_ok.mp hplain
      · rfl

/-! ## Descriptions of objects -/

/-- A schema that describes an object: it says so, or says no type and has properties. -/
structure DescribesObject (n : Node) : Prop where
  object : n.isObject = .ok true
  plain : n.pointer? = .ok none
  kind : Schema.typeOf n = .ok (.str "object") ∨
    Schema.typeOf n = .ok .null ∧ n.has "properties" = .ok true

theorem isReference_eq_false_iff : n.isReference = .ok false ↔ n.pointer? = .ok none := by
  unfold Node.isReference
  cases n.pointer? <;> simp [Except.map]

theorem describesObject_of_inline (h : EndpointCompiler.isInlineResponse n = .ok true) :
    DescribesObject n := by
  obtain ⟨isObject, hobject, h⟩ := bind_eq_ok.mp h
  cases isObject with
  | false => cases pure_eq_ok.mp h
  | true =>
      obtain ⟨isReference, href, h⟩ := bind_eq_ok.mp h
      cases isReference with
      | true => cases pure_eq_ok.mp h
      | false =>
          refine ⟨hobject, isReference_eq_false_iff.mp href, ?_⟩
          obtain ⟨type, htype, h⟩ := bind_eq_ok.mp h
          split at h
          · next hkind => exact Or.inl (hkind ▸ htype)
          · split at h
            · next hkind => exact Or.inr ⟨hkind ▸ htype, h⟩
            · cases pure_eq_ok.mp h

/-- A schema like one that describes an object describes an object. -/
theorem DescribesObject.alike (hD : Sources D) (ha : Stands D a)
    (hobject : DescribesObject a) (h : Alike a b) : DescribesObject b where
  object := h.isObject hobject.object
  plain := h.plain hD ha hobject.plain
  kind := by
    rcases hobject.kind with htype | ⟨htype, hhas⟩
    · obtain ⟨w, hw, hword⟩ := h.typeOf hD ha htype
      exact Or.inl (Json.eq_of_word? hword ▸ hw)
    · obtain ⟨w, hw, hword⟩ := h.typeOf hD ha htype
      exact Or.inr ⟨Json.eq_of_word? hword ▸ hw, h.has hhas⟩

/-- It becomes a class. -/
theorem DescribesObject.isModel (h : DescribesObject n) : Schema.isModel n = .ok true := by
  have href := isReference_eq_false_iff.mpr h.plain
  rcases h.kind with htype | ⟨htype, hhas⟩
  · simp [Schema.isModel, h.object, href, htype, bind, Except.bind, pure, Except.pure]
  · simp [Schema.isModel, h.object, href, htype, hhas, bind, Except.bind, pure, Except.pure]

theorem DescribesObject.not_isStringEnum (h : DescribesObject n) :
    Schema.isStringEnum n = .ok false := by
  rcases h.kind with htype | ⟨htype, -⟩
  · simp [Schema.isStringEnum, htype, bind, Except.bind, pure, Except.pure]
  · simp [Schema.isStringEnum, htype, bind, Except.bind, pure, Except.pure]

end ApiScaffold
