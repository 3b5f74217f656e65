import ApiScaffold.Endpoint.Compiler
import ApiScaffold.Proofs.Reaching
import Mathlib.Data.List.Chain
import Mathlib.Data.List.Nodup
import Mathlib.Logic.Relation

set_option autoImplicit false

/-! # Chains of items

The type of a parameter goes down from a list to its items, along references, and nothing marks
where it has been. So there is no type when the items of a schema lead back to a schema that they
came from (`LeadsBack`), and looking for it comes to an end in all other cases: the schemas on the
way are parts of the document or of the schema, and a chain longer than there are parts comes back
to one of them (`parameterType_endless_iff`). -/

namespace ApiScaffold

/-! ## Going round -/

/-- A chain that is longer than the list of what can be on it goes round. -/
theorem exists_transGen_self {α : Type} {R : α → α → Prop} {chain all : List α}
    (hchain : chain.IsChain R) (hall : chain ⊆ all) (hlength : all.length < chain.length) :
    ∃ b ∈ chain, Relation.TransGen R b b := by
  have hpairwise : chain.Pairwise (Relation.TransGen R) :=
    (hchain.imp fun _ _ => Relation.TransGen.single).pairwise
  by_contra hnone
  have hnodup : chain.Nodup := by
    refine hpairwise.imp_of_mem fun ha _ hab heq => hnone ⟨_, ha, ?_⟩
    exact heq ▸ hab
  have hshort := (List.subperm_of_subset hnodup hall).length_le
  omega

/-! ## The parts of a document -/

mutual

/-- The nodes at and below a place, by what stands there. -/
def nodesBelow (document : Document) (trail : List Step) : Json → List Node
  | .arr items => ⟨document, trail, .arr items⟩ :: itemsBelow document trail 0 items
  | .obj fields => ⟨document, trail, .obj fields⟩ :: fieldsBelow document trail fields
  | v => [⟨document, trail, v⟩]

/-- `nodesBelow` for the items of a list from some place on. -/
def itemsBelow (document : Document) (trail : List Step) : Nat → List Json → List Node
  | _, [] => []
  | i, x :: rest =>
    nodesBelow document (.index i :: trail) x ++ itemsBelow document trail (i + 1) rest

/-- `nodesBelow` for the fields of an object. -/
def fieldsBelow (document : Document) (trail : List Step) : Fields → List Node
  | [] => []
  | (key, x) :: rest =>
    nodesBelow document (.key key :: trail) x ++ fieldsBelow document trail rest

end

section Below

variable {document : Document}

mutual

theorem length_nodesBelow : ∀ (trail : List Step) (v : Json),
    (nodesBelow document trail v).length = v.size
  | _, .null | _, .bool _ | _, .int _ | _, .float _ | _, .str _ => by
    simp [nodesBelow, Json.size]
  | trail, .arr items => by
    rw [nodesBelow, Json.size, List.length_cons, length_itemsBelow]
  | trail, .obj fields => by
    rw [nodesBelow, Json.size, List.length_cons, length_fieldsBelow]

theorem length_itemsBelow : ∀ (trail : List Step) (i : Nat) (items : List Json),
    (itemsBelow document trail i items).length = Json.sizeItems items
  | _, _, [] => rfl
  | trail, i, x :: rest => by
    rw [itemsBelow, Json.sizeItems, List.length_append, length_nodesBelow, length_itemsBelow]

theorem length_fieldsBelow : ∀ (trail : List Step) (fields : Fields),
    (fieldsBelow document trail fields).length = Json.sizeFields fields
  | _, [] => rfl
  | trail, (key, x) :: rest => by
    rw [fieldsBelow, Json.sizeFields, List.length_append, length_nodesBelow, length_fieldsBelow]

end

theorem self_mem_nodesBelow (trail : List Step) (v : Json) :
    ⟨document, trail, v⟩ ∈ nodesBelow document trail v := by
  cases v with
  | arr items => exact List.mem_cons_self
  | obj fields => exact List.mem_cons_self
  | _ => exact List.mem_singleton_self _

/-- A part of a node: an item of a list or a field of an object. -/
inductive IsPart (n : Node) : Node → Prop where
  | item {items : List Json} {i : Nat} {u : Json} (hitems : n.value = .arr items)
      (hu : items[i]? = some u) : IsPart n (n.part (.index i) u)
  | field {fields : Fields} {key : String} {u : Json} (hfields : n.value = .obj fields)
      (hu : (key, u) ∈ fields) : IsPart n (n.part (.key key) u)

theorem item_mem_itemsBelow {trail : List Step} {items : List Json} {i j : Nat} {u : Json}
    (hu : items[i]? = some u) :
    ⟨document, .index (j + i) :: trail, u⟩ ∈ itemsBelow document trail j items := by
  induction items generalizing i j with
  | nil => cases hu
  | cons x rest ih =>
      rw [itemsBelow]
      cases i with
      | zero =>
          obtain rfl := Option.some.inj hu
          exact List.mem_append_left _ (self_mem_nodesBelow _ _)
      | succ i =>
          have hrest := @ih i (j + 1) hu
          rw [Nat.succ_add_eq_add_succ] at hrest
          exact List.mem_append_right _ hrest

theorem field_mem_fieldsBelow {trail : List Step} {fields : Fields} {key : String} {u : Json}
    (hu : (key, u) ∈ fields) :
    ⟨document, .key key :: trail, u⟩ ∈ fieldsBelow document trail fields := by
  induction fields with
  | nil => exact absurd hu List.not_mem_nil
  | cons f rest ih =>
      obtain ⟨k, x⟩ := f
      rw [fieldsBelow]
      rcases List.mem_cons.mp hu with heq | hu
      · obtain ⟨rfl, rfl⟩ := Prod.mk.inj heq
        exact List.mem_append_left _ (self_mem_nodesBelow _ _)
      · exact List.mem_append_right _ (ih hu)

mutual

/-- What is below a place has its parts there too. -/
theorem part_mem_nodesBelow {n b : Node} (hb : IsPart n b) : ∀ (trail : List Step) (v : Json),
    n ∈ nodesBelow document trail v → b ∈ nodesBelow document trail v
  | trail, .null, hn | trail, .bool _, hn | trail, .int _, hn | trail, .float _, hn
  | trail, .str _, hn => by
    obtain rfl := List.mem_singleton.mp hn
    cases hb with
    | item hitems => cases hitems
    | field hfields => cases hfields
  | trail, .arr items, hn => by
    rcases List.mem_cons.mp hn with rfl | hn
    · cases hb with
      | @item _ i u hitems hu =>
          cases hitems
          have hmem : ⟨document, .index (0 + i) :: trail, u⟩ ∈ itemsBelow document trail 0 items :=
            item_mem_itemsBelow hu
          rw [Nat.zero_add] at hmem
          exact List.mem_cons_of_mem _ hmem
      | field hfields => cases hfields
    · exact List.mem_cons_of_mem _ (part_mem_itemsBelow hb trail 0 items hn)
  | trail, .obj fields, hn => by
    rcases List.mem_cons.mp hn with rfl | hn
    · cases hb with
      | item hitems => cases hitems
      | field hfields hu =>
          cases hfields
          exact List.mem_cons_of_mem _ (field_mem_fieldsBelow hu)
    · exact List.mem_cons_of_mem _ (part_mem_fieldsBelow hb trail fields hn)

theorem part_mem_itemsBelow {n b : Node} (hb : IsPart n b) :
    ∀ (trail : List Step) (i : Nat) (items : List Json),
    n ∈ itemsBelow document trail i items → b ∈ itemsBelow document trail i items
  | _, _, [], hn => absurd hn List.not_mem_nil
  | trail, i, x :: rest, hn => by
    rw [itemsBelow] at hn ⊢
    rcases List.mem_append.mp hn with hn | hn
    · exact List.mem_append_left _ (part_mem_nodesBelow hb _ x hn)
    · exact List.mem_append_right _ (part_mem_itemsBelow hb trail (i + 1) rest hn)

theorem part_mem_fieldsBelow {n b : Node} (hb : IsPart n b) :
    ∀ (trail : List Step) (fields : Fields),
    n ∈ fieldsBelow document trail fields → b ∈ fieldsBelow document trail fields
  | _, [], hn => absurd hn List.not_mem_nil
  | trail, (key, x) :: rest, hn => by
    rw [fieldsBelow] at hn ⊢
    rcases List.mem_append.mp hn with hn | hn
    · exact List.mem_append_left _ (part_mem_nodesBelow hb _ x hn)
    · exact List.mem_append_right _ (part_mem_fieldsBelow hb trail rest hn)

end

end Below

open Node (Plain closed_plain)

variable {r : Resolver} {n b schema : Node} {fuel : Nat}

/-- The nodes that references and the parts of a schema lead to. -/
def nodesInReach (r : Resolver) (schema : Node) : List Node :=
  nodesBelow r.document [] r.document.root ++ nodesBelow schema.document schema.trail schema.value

theorem length_nodesInReach (r : Resolver) (schema : Node) :
    (nodesInReach r schema).length = r.document.root.size + schema.value.size := by
  rw [nodesInReach, List.length_append, length_nodesBelow, length_nodesBelow]

theorem self_mem_nodesInReach (r : Resolver) (schema : Node) : schema ∈ nodesInReach r schema :=
  List.mem_append_right _ (self_mem_nodesBelow _ _)

theorem IsPart.mem_nodesInReach (h : IsPart n b) (hn : n ∈ nodesInReach r schema) :
    b ∈ nodesInReach r schema := by
  rcases List.mem_append.mp hn with hn | hn
  · exact List.mem_append_left _ (part_mem_nodesBelow h _ _ hn)
  · exact List.mem_append_right _ (part_mem_nodesBelow h _ _ hn)

theorem isPart_of_pointed {segment : String} (h : n.pointed segment = .ok (some b)) :
    IsPart n b := by
  rcases Node.pointed_eq_some h with
    ⟨items, i, u, hitems, -, hu, rfl⟩ | ⟨fields, u, hfields, hu, rfl⟩
  · exact .item hitems hu
  · exact .field hfields (Json.mem_of_lookup hu)

theorem mem_nodesInReach_of_locate {pointer : String} (h : r.locate pointer = .ok (some b)) :
    b ∈ nodesInReach r schema := by
  have hdescend : ∀ segments n, n ∈ nodesInReach r schema → n.descend segments = .ok (some b) →
      b ∈ nodesInReach r schema := by
    intro segments
    induction segments with
    | nil =>
        intro n hn h
        cases h
        exact hn
    | cons segment segments ih =>
        intro n hn h
        obtain ⟨found, hfound, h⟩ := bind_eq_ok.mp h
        cases found with
        | none => cases pure_eq_ok.mp h
        | some next => exact ih next ((isPart_of_pointed hfound).mem_nodesInReach hn) h
  unfold Resolver.locate at h
  split at h
  · exact hdescend _ _ (List.mem_append_left _ (self_mem_nodesBelow _ _)) h
  · cases h

/-! ## From a list to its items -/

/-- A node is a list whose items are described by another one, perhaps behind references. -/
structure ItemsOf (r : Resolver) (n b : Node) : Prop where
  object : n.isObject = .ok true
  type : Schema.typeOf n = .ok (.str "array")
  items : ∃ listed, n.get "items" = .ok listed ∧ r.derefIfAny listed = .ok (some b)
  there : b.isAbsent = false

/-- The items of a schema lead to a schema that they lead back to. -/
def LeadsBack (r : Resolver) (n : Node) : Prop :=
  ∃ b, Relation.ReflTransGen (ItemsOf r) n b ∧ Relation.TransGen (ItemsOf r) b b

theorem ItemsOf.plain (hr : r.document.linked = false) (hn : n.Plain) (h : ItemsOf r n b) :
    b.Plain := by
  obtain ⟨listed, hlisted, hderef⟩ := h.items
  exact Resolver.plain_derefIfAny hr (closed_plain.get hn hlisted) hderef

/-- References lead to where they start from or to where a pointer leads. -/
theorem eq_or_located_of_chase {seen : List String} (h : r.chase fuel seen n = .ok (.node b)) :
    b = n ∨ ∃ pointer, r.locate pointer = .ok (some b) := by
  induction fuel generalizing seen n with
  | zero => cases h
  | succ fuel ih =>
      obtain ⟨pointer?, -, h⟩ := bind_eq_ok.mp h
      cases pointer? with
      | none =>
          cases pure_eq_ok.mp h
          exact Or.inl rfl
      | some pointer =>
          dsimp only at h
          split at h
          · cases pure_eq_ok.mp h
          · obtain ⟨found, hfound, h⟩ := bind_eq_ok.mp h
            cases found with
            | none => cases pure_eq_ok.mp h
            | some next =>
                rcases ih h with rfl | hlocated
                · exact Or.inr ⟨pointer, hfound⟩
                · exact Or.inr hlocated

theorem ItemsOf.mem_nodesInReach (hn : n.Plain) (hin : n ∈ nodesInReach r schema)
    (h : ItemsOf r n b) : b ∈ nodesInReach r schema := by
  obtain ⟨listed, hlisted, hderef⟩ := h.items
  rcases eq_or_located_of_chase (Resolver.derefIfAny_eq_some hderef) with rfl | ⟨pointer, hlocate⟩
  · obtain ⟨fields, hfields, rfl⟩ := Node.get_of_plain hn hlisted
    have hthere := h.there
    cases hu : fields.lookup "items" with
    | none =>
        rw [hu] at hthere
        cases hthere
    | some u => exact (IsPart.field hfields (Json.mem_of_lookup hu)).mem_nodesInReach hin
  · exact mem_nodesInReach_of_locate hlocate

/-! ## Types of parameters -/

open EndpointCompiler (parameterTypeWithin parameterType)

/-- The type of a list is found from that of its items. -/
theorem ItemsOf.parameterTypeWithin (h : ItemsOf r n b) :
    parameterTypeWithin r (fuel + 1) (some n) =
      (parameterTypeWithin r fuel (some b)).map (· ++ "[]") := by
  obtain ⟨listed, hlisted, hderef⟩ := h.items
  rw [EndpointCompiler.parameterTypeWithin, ok_bind h.object, if_neg (by decide), ok_bind h.type,
    ok_bind hlisted, ok_bind hderef]
  dsimp only
  rw [h.there, if_neg (by decide)]
  rfl

theorem exists_itemsOf_of_endless (hr : r.document.linked = false) (hn : n.Plain)
    (h : EndpointCompiler.parameterTypeWithin r (fuel + 1) (some n) = .error .endless) :
    ∃ b, ItemsOf r n b ∧
      EndpointCompiler.parameterTypeWithin r fuel (some b) = .error .endless := by
  obtain ⟨isObject, hobject, h⟩ := hn.concludes_isObject.bind_eq_endless h
  split at h
  · cases h
  · next hnot =>
      obtain ⟨type, htype, h⟩ := (Schema.concludes_typeOf hn).bind_eq_endless h
      split at h
      · cases h
      · obtain ⟨listed, hlisted, h⟩ := (hn.concludes_get _).bind_eq_endless h
        have hplain : listed.Plain := closed_plain.get hn hlisted
        obtain ⟨items?, hitems, h⟩ :=
          (Resolver.concludes_derefIfAny hr hplain).bind_eq_endless h
        split at h
        · cases h
        · next items =>
            split at h
            · cases h
            · next hthere =>
                have hitemsOf : ItemsOf r n items :=
                  { object := by simpa [hobject] using hnot
                    type := htype
                    items := ⟨listed, hlisted, hitems⟩
                    there := by simpa using hthere }
                refine ⟨items, hitemsOf, ?_⟩
                by_contra hends
                obtain ⟨type, -, h⟩ := Concludes.bind_eq_endless hends h
                cases h
      · cases h
      · cases h
      · cases h
      · cases h

/-- No depth of lists is enough for a schema whose items lead back to where they came from. -/
theorem LeadsBack.endless (h : LeadsBack r n) (fuel : Nat) :
    EndpointCompiler.parameterTypeWithin r fuel (some n) = .error .endless := by
  obtain ⟨b, hto, hback⟩ := h
  induction fuel generalizing n with
  | zero => rfl
  | succ fuel ih =>
      -- there is always a next list: on the way to `b`, or from `b` on the way back
      have hnext : ∃ a, ItemsOf r n a ∧ Relation.ReflTransGen (ItemsOf r) a b := by
        rcases hto.cases_head with rfl | hto
        · exact Relation.TransGen.head'_iff.mp hback
        · exact hto
      obtain ⟨a, hitems, ha⟩ := hnext
      rw [hitems.parameterTypeWithin, ih ha]
      rfl

/-- Lists with no depth enough stand on a chain of items as long as that depth. -/
theorem exists_chain_of_endless (hr : r.document.linked = false) (hn : n.Plain)
    (hin : n ∈ nodesInReach r schema)
    (h : EndpointCompiler.parameterTypeWithin r fuel (some n) = .error .endless) :
    ∃ rest : List Node, (n :: rest).IsChain (ItemsOf r) ∧ rest.length = fuel ∧
      n :: rest ⊆ nodesInReach r schema := by
  induction fuel generalizing n with
  | zero => exact ⟨[], .singleton _, rfl, List.cons_subset.mpr ⟨hin, List.nil_subset _⟩⟩
  | succ fuel ih =>
      obtain ⟨b, hitems, hb⟩ := exists_itemsOf_of_endless hr hn h
      obtain ⟨rest, hchain, hlength, hsub⟩ :=
        ih (hitems.plain hr hn) (hitems.mem_nodesInReach hn hin) hb
      exact ⟨b :: rest, .cons_cons hitems hchain, by rw [List.length_cons, hlength],
        List.cons_subset.mpr ⟨hin, hsub⟩⟩

/-- The type of a parameter is not found just if the items of its schema lead back to a schema that
they came from. -/
theorem parameterType_endless_iff (hr : r.document.linked = false) (hn : n.Plain) :
    parameterType r (some n) = .error .endless ↔ LeadsBack r n := by
  refine ⟨fun h => ?_, fun h => h.endless _⟩
  obtain ⟨rest, hchain, hlength, hsub⟩ :=
    exists_chain_of_endless hr hn (self_mem_nodesInReach r n) h
  obtain ⟨b, hb, hback⟩ := exists_transGen_self hchain hsub (by
    rw [length_nodesInReach, List.length_cons, hlength, Option.map_some, Option.getD_some]
    omega)
  refine ⟨b, ?_, hback⟩
  rcases List.mem_cons.mp hb with rfl | hb
  · exact Relation.ReflTransGen.refl
  · exact (hchain.imp fun _ _ => Relation.ReflTransGen.single).rel_cons hb

end ApiScaffold
