import ApiScaffold.Proofs.Looking
import Mathlib.Data.Set.Finite.Lattice

set_option autoImplicit false

/-! # The nodes in reach

Looking into nodes leads to parts of values, along links and pointers to parts of whole documents,
and nowhere else. So from finitely many nodes only finitely many values can be reached, and mapping
a schema stays among them. -/

namespace ApiScaffold

/-! ## Parts of values -/

/-- What a value is made of: items, fields and their names, and the characters of a text. -/
def parts : Json → List Json
  | .arr items => items
  | .obj fields => fields.map (·.2) ++ fields.map (fun f => .str f.1)
  | .str s => s.toList.map fun c => .str (String.singleton c)
  | _ => []

/-- The values inside a value. -/
def WithinValue (v : Json) : Json → Prop := Relation.ReflTransGen (fun a b => b ∈ parts a) v

theorem withinValue_str {s : String} {u : Json} (h : WithinValue (.str s) u) :
    u = .str s ∨ ∃ c ∈ s.toList, u = .str (String.singleton c) := by
  induction h with
  | refl => exact Or.inl rfl
  | tail _ hpart ih =>
      right
      rcases ih with rfl | ⟨c, hc, rfl⟩
      · obtain ⟨c, hc, rfl⟩ := List.mem_map.mp hpart
        exact ⟨c, hc, rfl⟩
      · obtain ⟨d, hd, rfl⟩ := List.mem_map.mp hpart
        obtain rfl : d = c := by simpa using hd
        exact ⟨d, hc, rfl⟩

theorem finite_withinValue_str (s : String) : {u | WithinValue (.str s) u}.Finite := by
  refine ((List.finite_toSet (Json.str s ::
    s.toList.map fun c => Json.str (String.singleton c)))).subset ?_
  intro u hu
  rcases withinValue_str hu with rfl | ⟨c, hc, rfl⟩
  · exact List.mem_cons_self
  · exact List.mem_cons_of_mem _ (List.mem_map_of_mem hc)

theorem finite_withinValue_of_parts {v : Json}
    (h : ∀ u ∈ parts v, {w | WithinValue u w}.Finite) : {u | WithinValue v u}.Finite := by
  refine ((Set.finite_singleton v).union ((List.finite_toSet (parts v)).biUnion h)).subset ?_
  intro u hu
  rcases Relation.ReflTransGen.cases_head hu with rfl | ⟨w, hw, hwu⟩
  · exact Or.inl rfl
  · exact Or.inr (Set.mem_biUnion hw hwu)

/-- A value has finitely many values inside. -/
theorem finite_withinValue (v : Json) : {u | WithinValue v u}.Finite := by
  induction hsize : sizeOf v using Nat.strong_induction_on generalizing v with
  | _ n ih =>
      refine finite_withinValue_of_parts fun u hu => ?_
      cases v with
      | null => simp [parts] at hu
      | bool b => simp [parts] at hu
      | int n => simp [parts] at hu
      | float x => simp [parts] at hu
      | str s =>
          obtain ⟨c, -, rfl⟩ := List.mem_map.mp hu
          exact finite_withinValue_str _
      | arr items =>
          refine ih (sizeOf u) ?_ u rfl
          have hlt := List.sizeOf_lt_of_mem (show u ∈ items from hu)
          simp only [Json.arr.sizeOf_spec] at hsize
          omega
      | obj fields =>
          rcases List.mem_append.mp hu with hu | hu
          · obtain ⟨f, hf, rfl⟩ := List.mem_map.mp hu
            refine ih (sizeOf f.2) ?_ f.2 rfl
            have hlt := List.sizeOf_lt_of_mem hf
            have hfield : sizeOf f = 1 + sizeOf f.1 + sizeOf f.2 := by
              cases f
              rfl
            simp only [Json.obj.sizeOf_spec] at hsize
            omega
          · obtain ⟨f, -, rfl⟩ := List.mem_map.mp hu
            exact finite_withinValue_str _

/-! ## Worlds -/

/-- Values that looking into the nodes of some documents does not lead out of. -/
structure World (documents : Set Document) (values : Set Json) : Prop where
  null : Json.null ∈ values
  root : ∀ d ∈ documents, d.root ∈ values
  part : ∀ v ∈ values, ∀ u ∈ parts v, u ∈ values

/-- A node of a world. -/
def Lives (documents : Set Document) (values : Set Json) (n : Node) : Prop :=
  n.document ∈ documents ∧ n.value ∈ values

/-- Finitely many nodes live in a finite world. -/
theorem exists_world (nodes : List Node) :
    ∃ documents values, World documents values ∧ documents.Finite ∧ values.Finite ∧
      ∀ n ∈ nodes, Lives documents values n := by
  let roots := nodes.map (·.value) ++ nodes.map (·.document.root) ++ [Json.null]
  refine ⟨{d | d ∈ nodes.map (·.document)}, {u | ∃ v ∈ roots, WithinValue v u},
    ⟨?_, ?_, ?_⟩, List.finite_toSet _, ?_, ?_⟩
  · exact ⟨.null, by simp [roots], .refl⟩
  · intro d hd
    obtain ⟨n, hn, rfl⟩ := List.mem_map.mp hd
    refine ⟨n.document.root, ?_, .refl⟩
    simp only [roots, List.mem_append, List.mem_map]
    exact Or.inl (Or.inr ⟨n, hn, rfl⟩)
  · rintro v ⟨r, hr, hv⟩ u hu
    exact ⟨r, hr, hv.tail hu⟩
  · have hunion : {u | ∃ v ∈ roots, WithinValue v u} =
        ⋃ v ∈ {v | v ∈ roots}, {u | WithinValue v u} := by
      ext u
      simp
    rw [hunion]
    exact (List.finite_toSet roots).biUnion fun v _ => finite_withinValue v
  · intro n hn
    refine ⟨List.mem_map_of_mem hn, n.value, ?_, .refl⟩
    simp only [roots, List.mem_append, List.mem_map]
    exact Or.inl (Or.inl ⟨n, hn, rfl⟩)

/-! ## Looking into nodes -/

section Looking

variable {D : Set Document} {V : Set Json} {n : Node}

/-- Looking into the nodes of a world does not lead out of it. -/
theorem World.closed (h : World D V) : Closed (Lives D V) where
  top hn := ⟨hn.1, h.root _ hn.1⟩
  field {n fields} key hn hfields := by
    refine ⟨hn.1, ?_⟩
    cases hlookup : fields.lookup key with
    | none => exact h.null
    | some u =>
        refine h.part _ hn.2 u ?_
        obtain ⟨before, after, rfl, -⟩ := List.lookup_eq_some_iff.mp hlookup
        rw [hfields]
        simp [parts]
  listed hn hfields f hf := by
    refine ⟨hn.1, h.part _ hn.2 _ ?_⟩
    rw [hfields]
    exact List.mem_append_left _ (List.mem_map_of_mem hf)
  item hn hitems hu := by
    refine ⟨hn.1, h.part _ hn.2 _ ?_⟩
    rw [hitems]
    exact List.mem_of_getElem? hu
  char hn hs hc := by
    refine ⟨hn.1, h.part _ hn.2 _ ?_⟩
    rw [hs]
    exact List.mem_map_of_mem (List.mem_of_getElem? hc)
  name hn hfields hf := by
    refine ⟨hn.1, h.part _ hn.2 _ ?_⟩
    rw [hfields]
    exact List.mem_append_right _ (List.mem_map_of_mem (List.mem_of_getElem? hf))

/-- The pointer that a node holds is one of the texts of its world. -/
theorem Lives.pointer? (hn : Lives D V n) (h : World D V) {pointer : String}
    (hp : n.pointer? = .ok (some pointer)) : Json.str pointer ∈ V := by
  obtain ⟨target, htarget, hvalue⟩ := Mapper.reference_of_pointer? hp
  have hlives := h.closed.get hn htarget
  unfold Node.opened at hvalue
  cases hsettle : target.settle with
  | error fault => simp [hsettle, Except.map] at hvalue
  | ok here =>
      have hhere := (h.closed.settle hlives hsettle).2
      simp only [hsettle, Except.map, Except.ok.injEq] at hvalue
      rwa [hvalue] at hhere

end Looking

end ApiScaffold
