import ApiScaffold.Model.Registry
import Mathlib.Data.List.Nodup
import Mathlib.Data.List.Perm.Subperm
import Std.Data.String.ToNat

set_option autoImplicit false

/-! # What a registry keeps

A registry only ever grows: later registries extend earlier ones (`Extends`), so a name keeps its
model. A name claimed for a schema is the first candidate that is free or has the same schema. What
stands behind it later changes nothing in that, so claiming a name for the schema again gives the
same name and registers nothing (`claim_again`). -/

namespace ApiScaffold.Registry

variable {r r' : Registry} {e : Entry}

/-! ## Names -/

/-- The names of all models, in the order of their registration. -/
def names (r : Registry) : List String := r.entries.map (·.name)

@[simp]
theorem length_names : r.names.length = r.size := by
  simp [names, size]

theorem contains_iff {name : String} : r.contains name = true ↔ name ∈ r.names := by
  simp [contains, find?, names]

theorem find?_eq_none_iff {name : String} : r.find? name = none ↔ name ∉ r.names := by
  rw [← contains_iff, contains, Option.not_isSome_iff_eq_none]

theorem name_of_find? {name : String} (h : r.find? name = some e) : e.name = name := by
  simpa using List.find?_some h

theorem mem_of_find? {name : String} (h : r.find? name = some e) : e ∈ r.entries :=
  List.mem_of_find?_eq_some h

theorem mem_names_of_find? {name : String} (h : r.find? name = some e) : name ∈ r.names :=
  name_of_find? h ▸ List.mem_map_of_mem (mem_of_find? h)

theorem find?_of_mem (hnodup : r.names.Nodup) (h : e ∈ r.entries) :
    r.find? e.name = some e := by
  obtain ⟨e', he'⟩ := Option.isSome_iff_exists.mp
    (contains_iff.mpr (List.mem_map_of_mem h) : (r.find? e.name).isSome = true)
  rw [he']
  exact congrArg some (List.inj_on_of_nodup_map hnodup (mem_of_find? he') h (name_of_find? he'))

/-! ## Registering -/

theorem register_of_mem (h : e.name ∈ r.names) : r.register e = r := by
  simp only [register, contains_iff.mpr h, if_true]

theorem register_of_notMem (h : e.name ∉ r.names) :
    r.register e = { r with waiting := r.waiting ++ [e] } := by
  have hc : ¬ r.contains e.name = true := fun hc => h (contains_iff.mp hc)
  simp only [register, if_neg hc]

theorem entries_register_of_notMem (h : e.name ∉ r.names) :
    (r.register e).entries = r.entries ++ [e] := by
  simp [register_of_notMem h, entries]

theorem find?_register_of_notMem (h : e.name ∉ r.names) : (r.register e).find? e.name = some e := by
  have hnone := find?_eq_none_iff.mpr h
  unfold find? at hnone ⊢
  rw [entries_register_of_notMem h, List.find?_append, hnone]
  simp

theorem mem_names_register {name : String} :
    name ∈ (r.register e).names ↔ name ∈ r.names ∨ name = e.name := by
  by_cases h : e.name ∈ r.names
  · rw [register_of_mem h]
    constructor
    · exact Or.inl
    · rintro (hmem | rfl) <;> assumption
  · simp [names, entries_register_of_notMem h]

theorem taken_register : (r.register e).taken = r.taken := by
  unfold register
  split <;> rfl

theorem nodup_register (h : r.names.Nodup) : (r.register e).names.Nodup := by
  by_cases hmem : e.name ∈ r.names
  · rw [register_of_mem hmem]
    exact h
  · have hnames : (r.register e).names = r.names ++ [e.name] := by
      simp [names, entries_register_of_notMem hmem]
    rw [hnames]
    exact h.append (List.nodup_singleton _) (List.disjoint_singleton.mpr hmem)

/-! ## Growth -/

/-- A registry has all models that another one has, in the same places. -/
def Extends (r r' : Registry) : Prop := r.entries <+: r'.entries

theorem Extends.refl (r : Registry) : Extends r r := List.prefix_rfl

theorem Extends.trans {r'' : Registry} (h : Extends r r') (h' : Extends r' r'') : Extends r r'' :=
  List.IsPrefix.trans h h'

theorem Extends.names (h : Extends r r') : r.names <+: r'.names := List.IsPrefix.map _ h

theorem Extends.mem (h : Extends r r') {name : String} (hmem : name ∈ r.names) : name ∈ r'.names :=
  h.names.subset hmem

theorem Extends.size_le (h : Extends r r') : r.size ≤ r'.size := List.IsPrefix.length_le h

theorem Extends.find? (h : Extends r r') {name : String} (hf : r.find? name = some e) :
    r'.find? name = some e := by
  obtain ⟨more, hmore⟩ := h
  unfold Registry.find? at hf ⊢
  rw [← hmore, List.find?_append, hf]
  rfl

theorem extends_register : Extends r (r.register e) := by
  by_cases h : e.name ∈ r.names
  · rw [register_of_mem h]
    exact Extends.refl r
  · rw [Extends, entries_register_of_notMem h]
    exact List.prefix_append _ _

theorem taken_pop? (h : r.pop? = some (e, r')) : r'.taken = r.taken ++ [e] := by
  unfold pop? at h
  split at h
  · cases h
  · cases h
    rfl

theorem extends_pop? (h : r.pop? = some (e, r')) : Extends r r' := by
  have hentries : r'.entries = r.entries := entries_pop? h
  exact ⟨[], by rw [hentries, List.append_nil]⟩

/-- Registering a model that an earlier registry has changes nothing. -/
theorem Extends.register (h : Extends (r.register e) r') : r'.register e = r' :=
  register_of_mem (h.mem (mem_names_register.mpr (Or.inr rfl)))

/-! ## Candidates -/

theorem ofBase_inj {a b : String} : ModelName.ofBase a = ModelName.ofBase b ↔ a = b := by
  simp [ModelName.ofBase, String.append_left_inj]

theorem candidate_inj {base : String} {i j : Nat} (hi : 1 ≤ i) (hj : 1 ≤ j)
    (h : candidate base i = candidate base j) : i = j := by
  unfold candidate at h
  rw [ofBase_inj] at h
  split at h
  · next hi' =>
      split at h
      · omega
      · exact absurd (String.append_eq_left_iff.mp h.symm) Nat.repr_ne_empty
  · next hi' =>
      split at h
      · simp [String.append_eq_left_iff] at h
      · exact Nat.repr_inj.mp ((String.append_right_inj _).mp h)

/-- The candidates for a schema in front of some attempt all belong to other schemas. -/
def TakenUpTo (r : Registry) (base : String) (schema : Node) (attempt : Nat) : Prop :=
  ∀ i, 1 ≤ i → i < attempt →
    ∃ e, r.find? (candidate base i) = some e ∧ sameSchema e.schema schema = .ok false

theorem Extends.takenUpTo (h : Extends r r') {base : String} {schema : Node} {attempt : Nat}
    (ht : TakenUpTo r base schema attempt) : TakenUpTo r' base schema attempt := by
  intro i hi hlt
  obtain ⟨e, he, hsame⟩ := ht i hi hlt
  exact ⟨e, h.find? he, hsame⟩

theorem TakenUpTo.succ {base : String} {schema : Node} {attempt : Nat}
    (h : TakenUpTo r base schema attempt) (he : r.find? (candidate base attempt) = some e)
    (hsame : sameSchema e.schema schema = .ok false) :
    TakenUpTo r base schema (attempt + 1) := by
  intro i hi hlt
  rcases Nat.lt_succ_iff_lt_or_eq.mp hlt with hlt | rfl
  · exact h i hi hlt
  · exact ⟨e, he, hsame⟩

/-- There are fewer candidates that are taken than models. -/
theorem TakenUpTo.lt_or_free {base : String} {schema : Node} {attempt : Nat}
    (h : TakenUpTo r base schema attempt) (hpos : 1 ≤ attempt) :
    attempt ≤ r.size ∨ (attempt = r.size + 1 ∧ candidate base attempt ∉ r.names) := by
  have hmem : ∀ i, 1 ≤ i → i < attempt → candidate base i ∈ r.names := by
    intro i hi hlt
    obtain ⟨e, he, -⟩ := h i hi hlt
    exact mem_names_of_find? he
  -- different attempts give different names, so they cannot be more than there are
  have hcount : ∀ n, (∀ i, 1 ≤ i → i ≤ n → candidate base i ∈ r.names) → n ≤ r.size := by
    intro n hn
    have hnodup : ((List.range' 1 n).map (candidate base)).Nodup := by
      refine List.Nodup.map_on ?_ List.nodup_range'
      intro i hi j hj hij
      exact candidate_inj (by simp at hi; omega) (by simp at hj; omega) hij
    have hsub : (List.range' 1 n).map (candidate base) ⊆ r.names := by
      intro name hname
      obtain ⟨i, hi, rfl⟩ := List.mem_map.mp hname
      exact hn i (by simp at hi; omega) (by simp at hi; omega)
    simpa using (hnodup.subperm hsub).length_le
  have hle : attempt - 1 ≤ r.size := hcount _ (fun i hi hle => hmem i hi (by omega))
  by_cases hlast : attempt ≤ r.size
  · exact Or.inl hlast
  · refine Or.inr ⟨by omega, fun hmem' => ?_⟩
    have hle' : attempt ≤ r.size := hcount _ (fun i hi hi' => by
      rcases Nat.lt_or_eq_of_le hi' with hlt | rfl
      · exact hmem i hi hlt
      · exact hmem')
    exact hlast hle'

/-! ## Claiming -/

/-- A name that a schema may have: it is free, or belongs to the same schema. -/
def Fits (r : Registry) (name : String) (schema : Node) : Prop :=
  name ∉ r.names ∨ ∃ e, r.find? name = some e ∧ sameSchema e.schema schema = .ok true

theorem freeName_spec {base : String} {schema : Node} (fuel : Nat) :
    ∀ attempt name, 1 ≤ attempt → attempt + fuel = r.size + 1 → TakenUpTo r base schema attempt →
      r.freeName base schema fuel attempt = .ok name →
      ∃ k, 1 ≤ k ∧ k ≤ r.size + 1 ∧ name = candidate base k ∧ TakenUpTo r base schema k ∧
        Fits r name schema := by
  induction fuel with
  | zero =>
      intro attempt name hpos hsum ht h
      obtain rfl : candidate base attempt = name := by simpa [freeName] using h
      refine ⟨attempt, hpos, by omega, rfl, ht, ?_⟩
      rcases ht.lt_or_free hpos with hle | ⟨-, hfree⟩
      · omega
      · exact Or.inl hfree
  | succ fuel ih =>
      intro attempt name hpos hsum ht h
      rw [freeName] at h
      split at h
      · next hnone =>
          obtain rfl : candidate base attempt = name := by simpa using h
          exact ⟨attempt, hpos, by omega, rfl, ht, Or.inl (find?_eq_none_iff.mp hnone)⟩
      · next e he =>
          cases hsame : sameSchema e.schema schema with
          | error fault => simp [hsame, bind, Except.bind] at h
          | ok same =>
              cases same with
              | true =>
                  obtain rfl : candidate base attempt = name := by
                    simpa [hsame, bind, Except.bind, pure, Except.pure] using h
                  exact ⟨attempt, hpos, by omega, rfl, ht, Or.inr ⟨e, he, hsame⟩⟩
              | false =>
                  refine ih (attempt + 1) name (by omega) (by omega) (ht.succ he hsame) ?_
                  simpa [hsame, bind, Except.bind] using h

theorem freeName_of_taken {base : String} {schema : Node} {k : Nat}
    (ht : TakenUpTo r base schema k) (he : r.find? (candidate base k) = some e)
    (hsame : sameSchema e.schema schema = .ok true) (fuel : Nat) :
    ∀ attempt, 1 ≤ attempt → attempt ≤ k → k ≤ attempt + fuel →
      r.freeName base schema fuel attempt = .ok (candidate base k) := by
  induction fuel with
  | zero =>
      intro attempt _ hle hge
      obtain rfl : attempt = k := by omega
      rfl
  | succ fuel ih =>
      intro attempt hpos hle hge
      rw [freeName]
      rcases Nat.lt_or_eq_of_le hle with hlt | rfl
      · obtain ⟨e', he', hother⟩ := ht attempt hpos hlt
        have hrest := ih (attempt + 1) (by omega) (by omega) (by omega)
        simpa [he', hother, bind, Except.bind] using hrest
      · simp [he, hsame, bind, Except.bind, pure, Except.pure]

/-- The model that a name is claimed for. -/
def claimed (name : String) (schema : Node) (source : String) : Entry :=
  { name, schema := if schema.isAbsent then none else some schema, source }

/-- What claiming a name does: the name is the first candidate that fits, and it is registered. -/
theorem claim_spec {base source name : String} {schema : Node}
    (h : r.claim base schema source = .ok (name, r')) :
    r' = r.register (claimed name schema source) ∧ Fits r name schema ∧
      ∃ k, 1 ≤ k ∧ k ≤ r.size + 1 ∧ name = candidate base k ∧ TakenUpTo r base schema k := by
  unfold claim at h
  cases hname : r.freeName base schema r.size 1 with
  | error fault => simp [hname, bind, Except.bind] at h
  | ok found =>
      simp only [hname, bind, Except.bind, pure, Except.pure, Except.ok.injEq, Prod.mk.injEq] at h
      obtain ⟨rfl, rfl⟩ := h
      obtain ⟨k, hpos, hle, hk, ht, hfits⟩ := freeName_spec r.size 1 found (Nat.le_refl 1)
        (Nat.add_comm 1 r.size) (fun i hi hlt => by omega) hname
      exact ⟨rfl, hfits, k, hpos, hle, hk, ht⟩

/-- A name that is free is claimed as it is. -/
theorem claim_of_free {base : String} {schema : Node} (source : String)
    (h : candidate base 1 ∉ r.names) :
    r.claim base schema source =
      .ok (candidate base 1, r.register (claimed (candidate base 1) schema source)) := by
  have hname : r.freeName base schema r.size 1 = .ok (candidate base 1) := by
    cases r.size with
    | zero => rfl
    | succ fuel => rw [freeName, find?_eq_none_iff.mpr h]
  unfold claim
  simp only [hname, bind, Except.bind, pure, Except.pure]
  rfl

theorem extends_claim {base source name : String} {schema : Node}
    (h : r.claim base schema source = .ok (name, r')) : Extends r r' := by
  rw [(claim_spec h).1]
  exact extends_register

theorem mem_of_claim {base source name : String} {schema : Node}
    (h : r.claim base schema source = .ok (name, r')) : name ∈ r'.names := by
  rw [(claim_spec h).1]
  exact mem_names_register.mpr (Or.inr rfl)

theorem samePlace_self (n : Node) : n.samePlace n = true := by
  simp [Node.samePlace]

theorem sameSchema_self {schema : Node} (h : schema.isAbsent = false) :
    sameSchema (some schema) schema = .ok true := by
  simp [sameSchema, h, samePlace_self]

/-- Claiming a name for the same schema again, on any later registry, gives the same name and
registers nothing. -/
theorem claim_again {base source name : String} {schema : Node} (hthere : schema.isAbsent = false)
    (h : r.claim base schema source = .ok (name, r')) {later : Registry} (hext : Extends r' later) :
    later.claim base schema source = .ok (name, later) := by
  obtain ⟨hr', hfits, k, hpos, hle, rfl, ht⟩ := claim_spec h
  subst hr'
  have hsame : ∃ e, later.find? (candidate base k) = some e ∧
      sameSchema e.schema schema = .ok true := by
    rcases hfits with hfree | ⟨e, he, hsame⟩
    · have hnew := find?_register_of_notMem (e := claimed (candidate base k) schema source) hfree
      refine ⟨_, hext.find? hnew, ?_⟩
      simp only [claimed, hthere, Bool.false_eq_true, if_false]
      exact sameSchema_self hthere
    · exact ⟨e, hext.find? (extends_register.find? he), hsame⟩
  obtain ⟨e, he, hsame⟩ := hsame
  have hsize : k ≤ later.size + 1 := by
    have := (extends_register.trans hext).size_le
    omega
  have hname := freeName_of_taken ((extends_register.trans hext).takenUpTo ht) he hsame later.size 1
    (Nat.le_refl 1) hpos (by omega)
  unfold claim
  simp only [hname, bind, Except.bind, pure, Except.pure]
  exact congrArg (fun r => Except.ok (candidate base k, r)) hext.register

end ApiScaffold.Registry
