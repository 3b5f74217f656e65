import ApiScaffold.Proofs.Pointers
import ApiScaffold.Proofs.Alike

set_option autoImplicit false

/-! # The names of classes

A document gives the class of every named schema its usual name, and no other class a name
(`ModelNames.Usual`). The named schemas are at their places and have different names, so their
classes have too. -/

namespace ApiScaffold

namespace ModelNames

variable {names : ModelNames} {schemas : Node}

theorem mem_give {schema className : String} {entries : List (String × String)}
    {p : String × String} (h : p ∈ give schema className entries) :
    p = (schema, className) ∨ p ∈ entries := by
  induction entries with
  | nil => exact Or.inl (List.mem_singleton.mp h)
  | cons e entries ih =>
      obtain ⟨s, known⟩ := e
      rw [give] at h
      split at h
      · rcases List.mem_cons.mp h with rfl | h
        · exact Or.inl rfl
        · exact Or.inr (List.mem_cons_of_mem _ h)
      · rcases List.mem_cons.mp h with rfl | h
        · exact Or.inr List.mem_cons_self
        · exact (ih h).imp_right (List.mem_cons_of_mem _)

theorem mem_give_self {schema className : String} {entries : List (String × String)} :
    (schema, className) ∈ give schema className entries := by
  induction entries with
  | nil => exact List.mem_singleton_self _
  | cons e entries ih =>
      rw [give]
      split
      · exact List.mem_cons_self
      · exact List.mem_cons_of_mem _ ih

theorem mem_give_of_mem {schema className : String} {entries : List (String × String)}
    {p : String × String} (h : p ∈ entries) (hne : p.1 ≠ schema) :
    p ∈ give schema className entries := by
  induction entries with
  | nil => exact absurd h List.not_mem_nil
  | cons e entries ih =>
      rw [give]
      rcases List.mem_cons.mp h with rfl | h
      · rw [if_neg hne]
        exact List.mem_cons_self
      · split
        · exact List.mem_cons_of_mem _ h
        · exact List.mem_cons_of_mem _ (ih h)

/-- The schemas that have the usual name, and no others. -/
structure Usual (names : ModelNames) (schemas : List String) : Prop where
  usual : ∀ p ∈ names.entries, p.1 ∈ schemas ∧ p.2 = ModelName.ofBase p.1
  all : ∀ s ∈ schemas, (s, ModelName.ofBase s) ∈ names.entries

/-- When no class was given another name, every class has its usual one. -/
theorem classOf_of_entries (h : ∀ p ∈ names.entries, p.2 = ModelName.ofBase p.1)
    (schema : String) : names.classOf schema = ModelName.ofBase schema := by
  unfold ModelNames.classOf
  cases hfound : names.entries.lookup schema with
  | none => rfl
  | some className =>
      obtain ⟨before, after, heq, -⟩ := List.lookup_eq_some_iff.mp hfound
      exact h (schema, className) (by simp [heq])

theorem Usual.classOf {listed : List String} (h : Usual names listed) (schema : String) :
    names.classOf schema = ModelName.ofBase schema :=
  classOf_of_entries (fun p hp => (h.usual p hp).2) schema

theorem Usual.isSome_schemaOf? {listed : List String} (h : Usual names listed)
    {className : String} : (names.schemaOf? className).isSome = true ↔
      ∃ s ∈ listed, className = ModelName.ofBase s := by
  simp only [schemaOf?, Option.isSome_map, List.find?_isSome, beq_iff_eq]
  constructor
  · rintro ⟨p, hp, rfl⟩
    exact ⟨p.1, (h.usual p hp).1, (h.usual p hp).2⟩
  · rintro ⟨s, hs, rfl⟩
    exact ⟨_, h.all s hs, rfl⟩

theorem opened_names (here : Node) (found : Fields) :
    (here.itemNodes (found.map fun f => .str f.1)).map Node.opened =
      (here.fieldNodes found).map fun f => .ok (.str f.1) := by
  refine List.ext_getElem (by simp [Node.itemNodes, Node.fieldNodes]) fun i hi hi' => ?_
  simp only [Node.itemNodes, Node.fieldNodes, List.getElem_map, List.getElem_mapIdx]
  exact Node.opened_eq_ok.mpr ⟨_, Node.settle_of_noLink rfl, rfl⟩

/-- Going through an object meets the names of its fields. -/
theorem opened_entriesIfAny {n : Node} {fields : List (String × Node)}
    (hfields : n.fields = .ok fields) {nodes : List Node} (h : n.entriesIfAny = .ok nodes) :
    nodes.map Node.opened = fields.map fun f => .ok (.str f.1) := by
  obtain ⟨here, hhere, hfields⟩ := bind_eq_ok.mp hfields
  obtain ⟨truthy, htruthy, h⟩ := bind_eq_ok.mp h
  split at hfields
  · next found hfound =>
      obtain rfl := pure_eq_ok.mp hfields
      have hvalue : n.truthy = .ok (Json.obj found).truthy := by
        rw [Node.truthy, Node.opened, hhere, ← hfound]
        rfl
      obtain rfl : (Json.obj found).truthy = truthy := Except.ok.inj (hvalue.symm.trans htruthy)
      cases found with
      | nil =>
          cases pure_eq_ok.mp h
          rfl
      | cons f found =>
          obtain ⟨here', hhere', h⟩ := bind_eq_ok.mp h
          obtain rfl : here = here' := Except.ok.inj (hhere.symm.trans hhere')
          rw [hfound] at h
          obtain rfl := pure_eq_ok.mp h
          exact opened_names here (f :: found)
  · exact absurd hfields throw_ne_ok

theorem usual_of_ofSchemas {fields : List (String × Node)} (hfields : schemas.fields = .ok fields)
    (h : ofSchemas schemas = .ok names) : Usual names (fields.map (·.1)) := by
  obtain ⟨nodes, hnodes, h⟩ := bind_eq_ok.mp h
  have hopened := opened_entriesIfAny hfields hnodes
  have hkey : ∀ node ∈ nodes, ∃ f ∈ fields, node.opened = .ok (.str f.1) := by
    intro node hnode
    obtain ⟨f, hf, heq⟩ := List.mem_map.mp (hopened ▸ List.mem_map_of_mem hnode)
    exact ⟨f, hf, heq.symm⟩
  -- every name is met as a text, and the step for it registers its usual class
  have hstep : ∀ (names names' : ModelNames) (node : Node) (s : String),
      node.opened = .ok (.str s) → (do
        let key ← node.opened
        if !key.isHashable then throw .unfit
        return names.register key.display (ModelName.ofBase key.display)) = Except.ok names' →
      names' = names.register s (ModelName.ofBase s) := by
    intro names names' node s hs h
    obtain ⟨key, hkey, h⟩ := bind_eq_ok.mp h
    obtain rfl : key = .str s := Except.ok.inj (hkey.symm.trans hs)
    exact (pure_eq_ok.mp h).symm
  refine ⟨?_, ?_⟩
  · refine foldlM_keeps (P := fun names : ModelNames =>
      ∀ p ∈ names.entries, p.1 ∈ fields.map (·.1) ∧ p.2 = ModelName.ofBase p.1) ?_
      (fun p hp => absurd hp List.not_mem_nil) h
    intro names names' node hnode hnames hrun p hp
    obtain ⟨f, hf, hs⟩ := hkey node hnode
    rw [hstep names names' node f.1 hs hrun] at hp
    rcases mem_give hp with rfl | hp
    · exact ⟨List.mem_map_of_mem hf, rfl⟩
    · exact hnames p hp
  · have hall := foldlM_each (Q := fun (node : Node) (names : ModelNames) =>
      ∀ s, node.opened = .ok (.str s) → (s, ModelName.ofBase s) ∈ names.entries) ?_ ?_ h
    · intro s hs
      obtain ⟨f, hf, rfl⟩ := List.mem_map.mp hs
      obtain ⟨node, hnode, heq⟩ := List.mem_map.mp
        (hopened ▸ List.mem_map_of_mem hf : Except.ok (.str f.1) ∈ nodes.map Node.opened)
      exact hall node hnode f.1 heq
    · intro names names' node hnode hrun s hs
      rw [hstep names names' node s hs hrun]
      exact mem_give_self
    · intro node names names' node' hnode' hnames hrun s hs
      obtain ⟨f, -, hs'⟩ := hkey node' hnode'
      rw [hstep names names' node' f.1 hs' hrun]
      by_cases heq : s = f.1
      · rw [heq]
        exact mem_give_self
      · exact mem_give_of_mem (hnames s hs) heq

/-- Whatever lists the named schemas, a class has its usual name. -/
theorem classOf_of_ofSchemas (h : ofSchemas schemas = .ok names) (schema : String) :
    names.classOf schema = ModelName.ofBase schema := by
  obtain ⟨nodes, -, h⟩ := bind_eq_ok.mp h
  have hall : ∀ p ∈ names.entries, p.2 = ModelName.ofBase p.1 := by
    refine foldlM_keeps (P := fun names : ModelNames =>
      ∀ p ∈ names.entries, p.2 = ModelName.ofBase p.1) ?_ (fun p hp => absurd hp List.not_mem_nil) h
    intro names names' node _ hnames hrun
    obtain ⟨key, -, hrun⟩ := bind_eq_ok.mp hrun
    dsimp only at hrun
    split at hrun
    · exact absurd hrun throw_ne_ok
    · obtain rfl := pure_eq_ok.mp hrun
      intro p hp
      rcases mem_give hp with rfl | hp
      · rfl
      · exact hnames p hp
  exact classOf_of_entries hall schema

end ModelNames

/-! ## Named schemas -/

section Named

variable {D : Set Document} {document : Document} {spec : Option String} {m : Mapper}
  {fields : List (String × Node)}

/-- The named schemas of a document are at their places, and have different names. -/
theorem Mapper.fields_of_ofDocument (hD : Sources D) (hdocument : document ∈ D)
    (hm : Mapper.ofDocument document spec = .ok m) (hfields : m.components.fields = .ok fields) :
    (∀ f ∈ fields, Stands D f.2) ∧ (fields.map (·.1)).Nodup := by
  have hP : Closed (Stands D) := hD.closed
  obtain ⟨hcomponents, -, -⟩ := Mapper.ofDocument_eq_ok hm
  obtain ⟨parts, schemas, hparts, hschemas, hlast⟩ := Schema.components_eq_ok hcomponents
  obtain ⟨here, hhere, hfields⟩ := bind_eq_ok.mp hfields
  split at hfields
  · next found hfound =>
      obtain rfl := pure_eq_ok.mp hfields
      have hkeys : (here.fieldNodes found).map (·.1) = found.map (·.1) := by
        simp [Node.fieldNodes]
      rw [hkeys]
      rcases hlast with ⟨hthere, heq⟩ | ⟨-, heq⟩
      · rcases hschemas with ⟨-, hget⟩ | ⟨-, rfl⟩
        · have hin : Stands D here :=
            hP.settle (heq ▸ hP.get (hP.get (stands_top hdocument) hparts) hget) hhere
          exact ⟨hP.fieldNodes hin hfound, hin.nodup_keys hD hfound⟩
        · rw [Node.truthy, Node.opened, Node.settle_of_noLink rfl] at hthere
          cases hthere
      · rw [heq, Node.settle_of_noLink rfl] at hhere
        obtain rfl := Except.ok.inj hhere
        obtain rfl : [] = found := Json.obj.inj hfound
        exact ⟨fun f hf => absurd hf List.not_mem_nil, List.nodup_nil⟩
  · exact absurd hfields throw_ne_ok

theorem Mapper.usual_of_ofDocument (hm : Mapper.ofDocument document spec = .ok m)
    (hfields : m.components.fields = .ok fields) : m.names.Usual (fields.map (·.1)) :=
  ModelNames.usual_of_ofSchemas hfields (Mapper.ofDocument_eq_ok hm).2.2

end Named

end ApiScaffold
