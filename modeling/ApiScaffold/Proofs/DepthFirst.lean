import ApiScaffold.Proofs.Ordering

set_option autoImplicit false

/-! # Depth-first orders

Models are put in a depth-first order whatever they depend on: several models of one name, unknown
names, models that depend on themselves and cycles that share models are all allowed
(`ofModels_depthFirst`). The back edges are the dependencies that the order does not respect. Each
closes a cycle of others, and there are none just if there is no cycle.

Models that already stand behind what they depend on keep their order, so putting models in order
twice is the same as once, unless there are cycles (`ofModels_settled`). -/

namespace ApiScaffold.ModelOrder

variable {models : List Model}

/-! ## Without the back edges -/

/-- The models without some of the dependencies. -/
def prune (cut : List (String × String)) (models : List Model) : List Model :=
  models.map fun m => { m with dependsOn := m.dependsOn.filter fun d => !cut.contains (m.name, d) }

theorem pruned_prune (cut : List (String × String)) (models : List Model) :
    List.Forall₂ (Pruned cut) models (prune cut models) := by
  induction models with
  | nil => exact .nil
  | cons m models ih => exact .cons ⟨rfl, rfl⟩ ih

/-- A dependency that is left was there before, and is none of those that were cut. -/
theorem edge_of_pruned {cut : List (String × String)} {models' : List Model}
    (h : List.Forall₂ (Pruned cut) models models') {a b : String} (hedge : Edge models' a b) :
    Edge models a b ∧ (a, b) ∉ cut := by
  obtain ⟨m', hm', hb, hknown⟩ := hedge
  have hthere : (find? models a).isSome := (find?_isSome_pruned h).mp (by rw [hm']; rfl)
  obtain ⟨m, hm⟩ := Option.isSome_iff_exists.mp hthere
  obtain ⟨m'', hm'', hname, hdeps⟩ := find?_pruned h hm
  obtain rfl : m' = m'' := Option.some.inj (hm'.symm.trans hm'')
  rw [hdeps, name_of_find? hm] at hb
  have hkept : b ∈ m.dependsOn ∧ (a, b) ∉ cut := by simpa using hb
  exact ⟨⟨m, hm, hkept.1, (find?_isSome_pruned h).mp hknown⟩, hkept.2⟩

/-! ## Depth-first orders -/

/-- A dependency that is no back edge. -/
def Kept (models : List Model) (o : ModelOrder) (a b : String) : Prop :=
  Edge models a b ∧ (a, b) ∉ o.backEdges

/-- Models do not depend on themselves, directly or through others. -/
def Acyclic (models : List Model) : Prop :=
  ∀ a, ¬ Relation.TransGen (Edge models) a a

/-- What a depth-first order of models is. -/
structure DepthFirst (models : List Model) (o : ModelOrder) : Prop where
  /-- Every name has one place. -/
  names : o.placedNames.Perm (firsts (models.map (·.name)))
  /-- The first model of a name stands for all models of that name. -/
  first : ∀ m ∈ o.models, find? models m.name = some m
  /-- A model stands behind the models that it depends on, but for the back edges. -/
  earlier_iff : ∀ a b, Edge models a b → (Earlier o.placedNames b a ↔ (a, b) ∉ o.backEdges)
  /-- A back edge is a dependency that closes a cycle of dependencies that are no back edges. -/
  closes : ∀ a b, (a, b) ∈ o.backEdges →
    Edge models a b ∧ Relation.ReflTransGen (Kept models o) b a
  /-- There are back edges just if there are cycles. -/
  acyclic_iff : o.backEdges = [] ↔ Acyclic models

theorem earlier_iff_notMem_backEdges {a b : String} (h : Edge models a b) :
    Earlier (ofModels models).placedNames b a ↔ (a, b) ∉ (ofModels models).backEdges := by
  constructor
  · intro hearlier hback
    exact (leadsBack_of_mem hback).2.2 hearlier
  · intro hkept
    obtain ⟨m, hm, -⟩ := id h
    have hplaced : a ∈ (ofModels models).placedNames :=
      mem_placedNames_ofModels.mpr (by rw [hm]; rfl)
    exact (ofModels_sound.respected a hplaced b h).resolve_right hkept

/-- Back edges close cycles of dependencies that are none. -/
theorem kept_of_mem_backEdges {a b : String} (h : (a, b) ∈ (ofModels models).backEdges) :
    Relation.ReflTransGen (Kept models (ofModels models)) b a := by
  have hpruned := pruned_prune (ofModels models).backEdges models
  exact Relation.ReflTransGen.mono (fun _ _ => edge_of_pruned hpruned) _ _
    (ofModels_cycle hpruned h)

/-- Models that do not depend on each other in a circle have no back edges, and only these. -/
theorem backEdges_eq_nil_iff : (ofModels models).backEdges = [] ↔ Acyclic models := by
  constructor
  · intro hnone a hcycle
    -- along a dependency the place in the order goes down, so no way leads back
    have hdown : ∀ b, Relation.TransGen (Edge models) a b →
        Earlier (ofModels models).placedNames b a := by
      intro b hab
      induction hab with
      | single hedge => exact earlier_of_edge hnone hedge
      | tail _ hedge ih => exact (earlier_of_edge hnone hedge).trans ih
    exact Earlier.irrefl (hdown a hcycle)
  · intro hacyclic
    rw [List.eq_nil_iff_forall_not_mem]
    rintro ⟨a, b⟩ hback
    have hway : Relation.ReflTransGen (Edge models) b a :=
      Relation.ReflTransGen.mono (fun _ _ h => h.1) _ _ (kept_of_mem_backEdges hback)
    exact hacyclic a (Relation.TransGen.head' (leadsBack_of_mem hback).1 hway)

/-- Whatever models depend on, they are put in a depth-first order. -/
theorem ofModels_depthFirst (models : List Model) : DepthFirst models (ofModels models) where
  names := by
    refine (List.perm_ext_iff_of_nodup ofModels_sound.nodup (nodup_firsts _)).mpr fun a => ?_
    rw [mem_placedNames_ofModels, mem_firsts, find?_isSome]
  first := ofModels_sound.known
  earlier_iff a b h := earlier_iff_notMem_backEdges h
  closes a b h := ⟨(leadsBack_of_mem h).1, kept_of_mem_backEdges h⟩
  acyclic_iff := backEdges_eq_nil_iff

/-- Two cycles that share a model, a model that depends on itself, a name that no model has, and a
second model of a name. -/
example : (ofModels [
      { name := "A", dependsOn := ["B", "Missing"] },
      { name := "B", dependsOn := ["C", "A", "B"] },
      { name := "A", dependsOn := ["D"] },
      { name := "C", dependsOn := ["A"] }]) =
    { models := [
        { name := "C", dependsOn := ["A"] },
        { name := "B", dependsOn := ["C", "A", "B"] },
        { name := "A", dependsOn := ["B", "Missing"] }]
      backEdges := [("C", "A"), ("B", "A"), ("B", "B")] } := by
  decide +kernel

/-! ## Models that are in order -/

/-- Models of different names that stand behind those of them that they depend on. -/
def Settled (models : List Model) : Prop :=
  (models.map (·.name)).Nodup ∧ ∀ m ∈ models, ∀ d ∈ m.dependsOn, d ∈ models.map (·.name) →
    Earlier (models.map (·.name)) d m.name

instance : DecidablePred Settled := fun models =>
  inferInstanceAs (Decidable ((models.map (·.name)).Nodup ∧ ∀ m ∈ models, ∀ d ∈ m.dependsOn,
    d ∈ models.map (·.name) → (models.map (·.name)).idxOf d < (models.map (·.name)).idxOf m.name))

/-- A model is put behind the others when nothing that it depends on is still missing. -/
theorem visit_of_ready {fuel : Nat} {o : ModelOrder} {m : Model} (hm : find? models m.name = some m)
    (hnot : m.name ∉ o.placedNames)
    (hready : ∀ d ∈ m.dependsOn, (find? models d).isSome →
      d ∈ o.placedNames ∧ d ∉ m.name :: o.visiting) :
    visit models (fuel + 1) o m.name = { o with models := o.models ++ [m] } := by
  have hfollow : ∀ deps : List String, (∀ d ∈ deps, d ∈ m.dependsOn) →
      deps.foldl (follow models fuel m.name) (o.enter m.name) = o.enter m.name := by
    intro deps
    induction deps with
    | nil =>
        intro _
        rfl
    | cons d deps ih =>
        intro hdeps
        have hstep : follow models fuel m.name (o.enter m.name) d = o.enter m.name := by
          unfold follow
          split
          · rfl
          · next hknown =>
              obtain ⟨hplaced, hvisiting⟩ := hready d (hdeps d List.mem_cons_self)
                (by simpa [Option.isSome_iff_ne_none] using hknown)
              rw [if_neg (by simpa [enter] using hvisiting)]
              exact visit_of_placed hplaced
        rw [List.foldl_cons, hstep]
        exact ih fun d' hd' => hdeps d' (List.mem_cons_of_mem _ hd')
  rw [visit_of_find hnot hm, hfollow m.dependsOn fun _ hd => hd]
  simp [leave, enter]

/-- Models that are in order are put behind each other as they come. -/
theorem foldl_visit_of_settled {fuel : Nat} (h : Settled models) (rest : List Model) :
    ∀ front, models = front ++ rest →
      (rest.map (·.name)).foldl (visit models (fuel + 1)) { models := front } =
        { models := models } := by
  induction rest with
  | nil =>
      intro front hfront
      simp [hfront]
  | cons m rest ih =>
      intro front hfront
      have hmem : m ∈ models := by simp [hfront]
      have hnames : models.map (·.name) = front.map (·.name) ++ m.name :: rest.map (·.name) := by
        simp [hfront]
      have hnot : m.name ∉ front.map (·.name) := by
        have hnodup := h.1
        rw [hnames] at hnodup
        exact fun hfirst => List.disjoint_of_nodup_append hnodup hfirst List.mem_cons_self
      have hstep : visit models (fuel + 1) { models := front } m.name =
          { models := front ++ [m] } := by
        refine visit_of_ready (find?_of_mem h.1 hmem) hnot ?_
        intro d hd hknown
        have hearlier := h.2 m hmem d hd (find?_isSome.mp hknown)
        constructor
        · -- a name that is earlier than that of `m` is among those in front of it
          by_contra hlater
          rw [hnames] at hearlier
          exact not_earlier_append hlater hearlier
        · intro hself
          obtain rfl : d = m.name := by simpa using hself
          exact hearlier.irrefl
      rw [List.map_cons, List.foldl_cons, hstep]
      exact ih (front ++ [m]) (by simp [hfront])

theorem ofModels_of_settled (h : Settled models) : ofModels models = { models } := by
  rw [ofModels, firsts_of_nodup h.1]
  exact foldl_visit_of_settled h models [] rfl

/-- The order of models without cycles is in order. -/
theorem settled_ofModels (h : Acyclic models) : Settled (ofModels models).models := by
  refine ⟨ofModels_sound.nodup, ?_⟩
  intro m hm d hd hlisted
  have hedge : Edge models m.name d :=
    ⟨m, ofModels_sound.known m hm, hd, mem_placedNames_ofModels.mp hlisted⟩
  exact earlier_of_edge (backEdges_eq_nil_iff.mpr h) hedge

/-- Models that are in order stay as they are. So, without cycles, the order of models in order is
the same again. -/
theorem ofModels_settled (models : List Model) :
    (Settled models → (ofModels models).models = models) ∧
      (Acyclic models →
        (ofModels (ofModels models).models).models = (ofModels models).models) := by
  refine ⟨fun h => ?_, fun h => ?_⟩
  · rw [ofModels_of_settled h]
  · rw [ofModels_of_settled (settled_ofModels h)]

/-- Models in order, of which one depends on a name that none of them has. -/
def kennel : List Model := [
  { name := "Dog" },
  { name := "Kennel", dependsOn := ["Dog", "Licence"] },
  { name := "Owner", dependsOn := ["Kennel", "Dog"] }]

/-- The models of `kennel` stay as they are, and are put in this order if they come in the opposite
one. -/
theorem kennel_settled :
    (Settled kennel ∧ (ofModels kennel).models = kennel) ∧
      (Acyclic kennel.reverse ∧ (ofModels kennel.reverse).models = kennel ∧
        (ofModels (ofModels kennel.reverse).models).models = (ofModels kennel.reverse).models) := by
  have hsettled : Settled kennel := by decide
  have hacyclic : Acyclic kennel.reverse := backEdges_eq_nil_iff.mp (by decide)
  exact ⟨⟨hsettled, (ofModels_settled kennel).1 hsettled⟩, hacyclic, by decide,
    (ofModels_settled kennel.reverse).2 hacyclic⟩

end ApiScaffold.ModelOrder
