import ApiScaffold.Proofs.Looking
import Mathlib.Data.Set.Insert

set_option autoImplicit false

/-! # Places

A node stands at its place when its value is the value that its trail leads to from the root of its
document. Looking leads from nodes at their places to nodes at theirs, so among documents that are
told apart by their tags two nodes at the same place are the same node. For that the keys of an
object must be different, as they are when it was read. -/

namespace ApiScaffold

/-! ## Keys -/

namespace Json

mutual

/-- Whether no object in a value has a key twice. -/
def keysOnce : Json → Bool
  | .arr items => keysOnceItems items
  | .obj fields => decide (fields.map (·.1)).Nodup && keysOnceFields fields
  | _ => true

/-- `keysOnce` for the items of a list. -/
def keysOnceItems : List Json → Bool
  | [] => true
  | x :: rest => keysOnce x && keysOnceItems rest

/-- `keysOnce` for the fields of an object. -/
def keysOnceFields : Fields → Bool
  | [] => true
  | (_, x) :: rest => keysOnce x && keysOnceFields rest

end

theorem keysOnceItems_iff {items : List Json} :
    keysOnceItems items = true ↔ ∀ x ∈ items, x.keysOnce = true := by
  induction items with
  | nil => simp [keysOnceItems]
  | cons x items ih => simp [keysOnceItems, ih]

theorem keysOnceFields_iff {fields : Fields} :
    keysOnceFields fields = true ↔ ∀ f ∈ fields, f.2.keysOnce = true := by
  induction fields with
  | nil => simp [keysOnceFields]
  | cons f fields ih => simp [keysOnceFields, ih]

theorem keysOnce_arr {items : List Json} :
    (arr items).keysOnce = true ↔ ∀ x ∈ items, x.keysOnce = true := by
  rw [keysOnce, keysOnceItems_iff]

theorem keysOnce_obj {fields : Fields} :
    (obj fields).keysOnce = true ↔
      (fields.map (·.1)).Nodup ∧ ∀ f ∈ fields, f.2.keysOnce = true := by
  rw [keysOnce, Bool.and_eq_true, decide_eq_true_iff, keysOnceFields_iff]

theorem mem_of_lookup {fields : Fields} {key : String} {u : Json}
    (h : fields.lookup key = some u) : (key, u) ∈ fields := by
  obtain ⟨before, after, rfl, -⟩ := List.lookup_eq_some_iff.mp h
  simp

/-- A field is found under its key when keys are different. -/
theorem lookup_of_mem {fields : Fields} (hnodup : (fields.map (·.1)).Nodup) {key : String}
    {u : Json} (h : (key, u) ∈ fields) : fields.lookup key = some u := by
  induction fields with
  | nil => exact absurd h List.not_mem_nil
  | cons f fields ih =>
      rw [List.map_cons, List.nodup_cons] at hnodup
      rw [List.lookup_cons]
      rcases List.mem_cons.mp h with rfl | h
      · simp
      · have hne : key ≠ f.1 := by
          rintro rfl
          exact hnodup.1 (List.mem_map.mpr ⟨_, h, rfl⟩)
        rw [beq_false_of_ne hne]
        exact ih hnodup.2 h

/-! ## Steps -/

/-- What looking at a step of a value shows: a field, an item, a character or the name of a
field. -/
def at? : Json → ApiScaffold.Step → Option Json
  | .obj fields, .key key => fields.lookup key
  | .obj fields, .index i => (fields[i]?).map fun f => .str f.1
  | .arr items, .index i => items[i]?
  | .str s, .index i => (s.toList[i]?).map fun c => .str (String.singleton c)
  | _, _ => none

theorem keysOnce_at? {v u : Json} {step : ApiScaffold.Step} (hv : v.keysOnce = true)
    (hu : v.at? step = some u) : u.keysOnce = true := by
  unfold at? at hu
  split at hu
  · exact (keysOnce_obj.mp hv).2 _ (mem_of_lookup hu)
  · obtain ⟨f, -, rfl⟩ := Option.map_eq_some_iff.mp hu
    rfl
  · exact keysOnce_arr.mp hv u (List.mem_of_getElem? hu)
  · obtain ⟨c, -, rfl⟩ := Option.map_eq_some_iff.mp hu
    rfl
  · cases hu

end Json

/-- The value that a trail leads to from the root, if it leads anywhere. -/
def Document.valueAt? (d : Document) : List Step → Option Json
  | [] => some d.root
  | step :: trail => (d.valueAt? trail).bind (·.at? step)

theorem Document.keysOnce_valueAt? {d : Document} (h : d.root.keysOnce = true)
    {trail : List Step} {v : Json} (hv : d.valueAt? trail = some v) : v.keysOnce = true := by
  induction trail generalizing v with
  | nil =>
      cases hv
      exact h
  | cons step trail ih =>
      obtain ⟨u, hu, hv⟩ := Option.bind_eq_some_iff.mp hv
      exact Json.keysOnce_at? (ih hu) hv

/-! ## Standing at a place -/

/-- Documents as they are read: objects have every key once, and tags tell documents apart. -/
structure Sources (D : Set Document) : Prop where
  keysOnce : ∀ d ∈ D, d.root.keysOnce = true
  tags : ∀ d ∈ D, ∀ e ∈ D, d.tag = e.tag → d = e

theorem sources_singleton {d : Document} (h : d.root.keysOnce = true) : Sources {d} where
  keysOnce _ he := by
    obtain rfl := Set.mem_singleton_iff.mp he
    exact h
  tags _ he _ hf _ :=
    (Set.mem_singleton_iff.mp he).trans (Set.mem_singleton_iff.mp hf).symm

/-- A node has the value that stands at its place, and null where nothing stands. -/
structure Stands (D : Set Document) (n : Node) : Prop where
  document : n.document ∈ D
  value : n.value = (n.document.valueAt? n.trail).getD .null

section Stands

variable {D : Set Document} {n : Node}

theorem stands_top {d : Document} (hd : d ∈ D) : Stands D d.top := ⟨hd, rfl⟩

theorem Stands.keysOnce (h : Sources D) (hn : Stands D n) : n.value.keysOnce = true := by
  rw [hn.value]
  cases hv : n.document.valueAt? n.trail with
  | none => rfl
  | some v => exact Document.keysOnce_valueAt? (h.keysOnce _ hn.document) hv

theorem Stands.valueAt? (hn : Stands D n) (hthere : n.value ≠ .null) :
    n.document.valueAt? n.trail = some n.value := by
  have hvalue := hn.value
  cases hv : n.document.valueAt? n.trail with
  | none =>
      rw [hv] at hvalue
      exact absurd hvalue hthere
  | some v =>
      rw [hv] at hvalue
      rw [hvalue]
      rfl

theorem Stands.part (hn : Stands D n) (hthere : n.value ≠ .null) {step : Step} {u : Json}
    (hu : u = (n.value.at? step).getD .null) : Stands D (n.part step u) := by
  refine ⟨hn.document, ?_⟩
  change u = ((n.document.valueAt? n.trail).bind (·.at? step)).getD .null
  rw [hn.valueAt? hthere]
  exact hu

/-- Nothing stands under a key of a value that counts as false. -/
theorem Stands.part_of_falsy (hn : Stands D n) (hfalsy : n.value.truthy = false) (key : String) :
    Stands D (n.part (.key key) .null) := by
  refine ⟨hn.document, ?_⟩
  change Json.null = ((n.document.valueAt? n.trail).bind (·.at? (.key key))).getD .null
  have hvalue := hn.value
  cases hv : n.document.valueAt? n.trail with
  | none => rfl
  | some v =>
      rw [hv] at hvalue
      obtain rfl : n.value = v := hvalue
      cases hvalue : n.value with
      | obj fields =>
          rw [hvalue] at hfalsy
          cases fields with
          | nil => rfl
          | cons f fields => cases hfalsy
      | _ => rfl

/-- Looking leads from nodes at their places to nodes at theirs. -/
theorem Sources.closed (h : Sources D) : Closed (Stands D) where
  top hn := stands_top hn.document
  field key hn hfields := by
    refine hn.part (by simp [hfields]) ?_
    rw [hfields]
    rfl
  listed hn hfields f hf := by
    refine hn.part (by simp [hfields]) ?_
    have honce := hn.keysOnce h
    rw [hfields, Json.keysOnce_obj] at honce
    rw [hfields]
    change f.2 = (List.lookup f.1 _).getD .null
    rw [Json.lookup_of_mem honce.1 hf]
    rfl
  item hn hitems hu := by
    refine hn.part (by simp [hitems]) ?_
    rw [hitems]
    simp [Json.at?, hu]
  char hn hs hc := by
    refine hn.part (by simp [hs]) ?_
    rw [hs]
    simp [Json.at?, hc]
  name hn hfields hf := by
    refine hn.part (by simp [hfields]) ?_
    rw [hfields]
    simp [Json.at?, hf]

/-- A node that is at the place of one of some nodes is at the place of one of more nodes. -/
theorem any_samePlace_mono {seen more : List Node} (hsub : seen ⊆ more)
    (h : seen.any (·.samePlace n) = true) : more.any (·.samePlace n) = true := by
  obtain ⟨v, hv, hsame⟩ := List.any_eq_true.mp h
  exact List.any_eq_true.mpr ⟨v, hsub hv, hsame⟩

/-- Nodes at the same place are the same node. -/
theorem Stands.eq_of_samePlace (h : Sources D) {a b : Node} (ha : Stands D a) (hb : Stands D b)
    (hsame : a.samePlace b = true) : a = b := by
  simp only [Node.samePlace, Bool.and_eq_true, beq_iff_eq] at hsame
  have hdocument : a.document = b.document :=
    h.tags _ ha.document _ hb.document hsame.1
  have hvalue : a.value = b.value := by
    rw [ha.value, hb.value, hdocument, hsame.2]
  obtain ⟨document, trail, value⟩ := a
  obtain ⟨document', trail', value'⟩ := b
  obtain rfl : document = document' := hdocument
  obtain rfl : trail = trail' := hsame.2
  obtain rfl : value = value' := hvalue
  rfl

end Stands

end ApiScaffold
