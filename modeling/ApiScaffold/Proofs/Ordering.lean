import ApiScaffold.Model.Ordering
import Mathlib.Data.List.Nodup
import Mathlib.Data.List.Perm.Subperm
import Mathlib.Logic.Relation

set_option autoImplicit false

/-! # What the order of models respects

Putting models in order gives every model one place. A dependency between two of them is a back
edge exactly when the order does not respect it, so the dependencies that are no back edges form no
cycle. Every back edge closes a cycle of dependencies that are none: cutting back edges cuts no more
than it must (`ofModels_cycle`). -/

namespace ApiScaffold.ModelOrder

/-! ## Earlier names -/

/-- `b` is in a list, and `a` is not in front of it. -/
def Earlier (names : List String) (b a : String) : Prop :=
  names.idxOf b < names.idxOf a

theorem Earlier.mem {names : List String} {a b : String} (h : Earlier names b a) : b ∈ names :=
  List.idxOf_lt_length_iff.mp (Nat.lt_of_lt_of_le h List.idxOf_le_length)

theorem Earlier.irrefl {names : List String} {a : String} : ¬ Earlier names a a :=
  Nat.lt_irrefl _

theorem Earlier.trans {names : List String} {a b c : String} (h : Earlier names a b)
    (h' : Earlier names b c) : Earlier names a c :=
  Nat.lt_trans h h'

/-- Of different names, an earlier one has a smaller place. -/
theorem Earlier.exists_lt {names : List String} (hnodup : names.Nodup) {a b : String}
    (h : Earlier names b a) {i : Nat} (ha : names[i]? = some a) :
    ∃ j < i, names[j]? = some b := by
  obtain ⟨hi, rfl⟩ := List.getElem?_eq_some_iff.mp ha
  have hplace : names.idxOf names[i] = i := hnodup.idxOf_getElem i hi
  refine ⟨names.idxOf b, ?_, List.getElem?_idxOf h.mem⟩
  unfold Earlier at h
  omega

/-- Names behind a list do not change what is earlier than one of its names. -/
theorem earlier_append_of_mem {names more : List String} {a b : String} (h : a ∈ names) :
    Earlier (names ++ more) b a ↔ Earlier names b a := by
  unfold Earlier
  rw [List.idxOf_append_of_mem h]
  have hlt : names.idxOf a < names.length := List.idxOf_lt_length_iff.mpr h
  by_cases hb : b ∈ names
  · rw [List.idxOf_append_of_mem hb]
  · rw [List.idxOf_append_of_notMem hb, List.idxOf_of_notMem hb]
    omega

/-- A name of a list is earlier than what comes behind the list. -/
theorem earlier_append_of_notMem {names more : List String} {a b : String} (hb : b ∈ names)
    (ha : a ∉ names) : Earlier (names ++ more) b a := by
  unfold Earlier
  rw [List.idxOf_append_of_mem hb, List.idxOf_append_of_notMem ha]
  have hlt : names.idxOf b < names.length := List.idxOf_lt_length_iff.mpr hb
  omega

theorem not_earlier_append {names more : List String} {a b : String} (hb : b ∉ names) :
    ¬ Earlier (names ++ a :: more) b a := by
  unfold Earlier
  rw [List.idxOf_append_of_notMem hb]
  by_cases ha : a ∈ names
  · have hlt : names.idxOf a < names.length := List.idxOf_lt_length_iff.mpr ha
    rw [List.idxOf_append_of_mem ha]
    omega
  · rw [List.idxOf_append_of_notMem ha]
    simp

/-! ## What a visit keeps -/

variable {models : List Model}

/-- The names of the models that have their place. -/
def placedNames (o : ModelOrder) : List String := o.models.map (·.name)

theorem placed_iff {o : ModelOrder} {name : String} :
    o.placed name = true ↔ name ∈ o.placedNames := by
  simp [placed, placedNames]

theorem name_of_find? {name : String} {model : Model} (h : find? models name = some model) :
    model.name = name := by
  simpa using List.find?_some h

theorem find?_isSome {name : String} :
    (find? models name).isSome = true ↔ name ∈ models.map (·.name) := by
  simp [find?]

/-- A dependency between two models that are put in order. -/
def Edge (models : List Model) (a b : String) : Prop :=
  ∃ model, find? models a = some model ∧ b ∈ model.dependsOn ∧ (find? models b).isSome

/-- The state of an order in the making: models have one place each, those that are being visited
have none yet, and the models with a place depend on earlier ones but for back edges. -/
structure Sound (models : List Model) (o : ModelOrder) : Prop where
  known : ∀ m ∈ o.models, find? models m.name = some m
  nodup : o.placedNames.Nodup
  visitingNodup : o.visiting.Nodup
  visitingKnown : ∀ a ∈ o.visiting, (find? models a).isSome
  apart : ∀ a ∈ o.visiting, a ∉ o.placedNames
  respected : ∀ a ∈ o.placedNames, ∀ b, Edge models a b →
    Earlier o.placedNames b a ∨ (a, b) ∈ o.backEdges

/-- A dependency of a model that has its place on one that is not earlier. -/
def LeadsBack (models : List Model) (o : ModelOrder) (e : String × String) : Prop :=
  Edge models e.1 e.2 ∧ e.1 ∈ o.placedNames ∧ ¬ Earlier o.placedNames e.2 e.1

/-- What going on from one state to another keeps: nothing is taken back, and the new back edges
lead back, but for some that are `own`. -/
structure Later (models : List Model) (own : String × String → Prop) (o o' : ModelOrder) :
    Prop where
  grown : o.models <+: o'.models
  visiting : o'.visiting = o.visiting
  backEdges : ∃ new, o'.backEdges = o.backEdges ++ new ∧ ∀ e ∈ new, own e ∨ LeadsBack models o' e

theorem Later.placedNames {own : String × String → Prop} {o o' : ModelOrder}
    (h : Later models own o o') : o.placedNames <+: o'.placedNames :=
  h.grown.map _

theorem LeadsBack.mono {o o' : ModelOrder} {e : String × String} (h : LeadsBack models o e)
    (hpre : o.placedNames <+: o'.placedNames) : LeadsBack models o' e := by
  obtain ⟨hedge, hmem, hnot⟩ := h
  obtain ⟨more, hmore⟩ := hpre
  refine ⟨hedge, ?_, ?_⟩
  · rw [← hmore]
    exact List.mem_append_left _ hmem
  · rw [← hmore, earlier_append_of_mem hmem]
    exact hnot

theorem Later.refl {own : String × String → Prop} (o : ModelOrder) : Later models own o o :=
  ⟨List.prefix_rfl, rfl, [], by simp, by simp⟩

theorem Later.trans {own : String × String → Prop} {o₁ o₂ o₃ : ModelOrder}
    (h : Later models own o₁ o₂) (h' : Later models own o₂ o₃) : Later models own o₁ o₃ := by
  obtain ⟨new, hnew, hback⟩ := h.backEdges
  obtain ⟨new', hnew', hback'⟩ := h'.backEdges
  refine ⟨h.grown.trans h'.grown, h'.visiting.trans h.visiting, new ++ new', ?_, ?_⟩
  · rw [hnew', hnew, List.append_assoc]
  · intro e he
    rcases List.mem_append.mp he with he | he
    · exact (hback e he).imp id (fun hl => hl.mono h'.placedNames)
    · exact hback' e he

theorem Later.weaken {own : String × String → Prop} {o o' : ModelOrder}
    (h : Later models (fun _ => False) o o') : Later models own o o' := by
  obtain ⟨new, hnew, hback⟩ := h.backEdges
  exact ⟨h.grown, h.visiting, new, hnew, fun e he => Or.inr ((hback e he).resolve_left id)⟩

/-- What is done for one dependency of a model that is being visited. -/
def follow (models : List Model) (fuel : Nat) (name : String) (o : ModelOrder)
    (dependency : String) : ModelOrder :=
  if (find? models dependency).isNone then o
  else if o.visiting.contains dependency then
    { o with backEdges := o.backEdges ++ [(name, dependency)] }
  else visit models fuel o dependency

/-- The state in which the dependencies of a model are followed. -/
def enter (o : ModelOrder) (name : String) : ModelOrder :=
  { o with visiting := name :: o.visiting }

/-- The state after the dependencies of a model have been followed. -/
def leave (o : ModelOrder) (model : Model) (name : String) : ModelOrder :=
  { o with models := o.models ++ [model], visiting := o.visiting.erase name }

theorem visit_of_placed {fuel : Nat} {o : ModelOrder} {name : String}
    (h : name ∈ o.placedNames) : visit models fuel o name = o := by
  cases fuel with
  | zero => rfl
  | succ fuel => simp [visit, placed_iff.mpr h]

theorem visit_of_find {fuel : Nat} {o : ModelOrder} {name : String} {model : Model}
    (h : name ∉ o.placedNames) (hm : find? models name = some model) :
    visit models (fuel + 1) o name =
      leave (model.dependsOn.foldl (follow models fuel name) (o.enter name)) model name := by
  have hp : o.placed name = false := by
    rw [Bool.eq_false_iff]
    exact fun hp => h (placed_iff.mp hp)
  simp only [visit, hp, hm]
  rfl

theorem visiting_length_le {o : ModelOrder} (h : Sound models o) :
    o.visiting.length ≤ models.length := by
  have hsub : o.visiting ⊆ models.map (·.name) := fun a ha => find?_isSome.mp (h.visitingKnown a ha)
  simpa using (h.visitingNodup.subperm hsub).length_le

theorem Sound.enter {o : ModelOrder} {name : String} (h : Sound models o)
    (hknown : (find? models name).isSome) (hnot : name ∉ o.visiting)
    (hplaced : name ∉ o.placedNames) : Sound models (o.enter name) where
  known := h.known
  nodup := h.nodup
  visitingNodup := List.nodup_cons.mpr ⟨hnot, h.visitingNodup⟩
  visitingKnown := by
    intro a ha
    rcases List.mem_cons.mp ha with rfl | ha
    · exact hknown
    · exact h.visitingKnown a ha
  apart := by
    intro a ha
    rcases List.mem_cons.mp ha with rfl | ha
    · exact hplaced
    · exact h.apart a ha
  respected := h.respected

/-- The back edges that start from a model while it is being visited. -/
def FromVisited (models : List Model) (name : String) (visiting : List String)
    (e : String × String) : Prop :=
  e.1 = name ∧ e.2 ∈ visiting ∧ Edge models e.1 e.2

theorem leave_sound {o : ModelOrder} {name : String} {model : Model} {visiting : List String}
    (h : Sound models o) (hm : find? models name = some model)
    (hvis : o.visiting = name :: visiting)
    (hdeps : ∀ d ∈ model.dependsOn, (find? models d).isSome →
      d ∈ o.placedNames ∨ (name, d) ∈ o.backEdges) : Sound models (o.leave model name) := by
  have hname : model.name = name := name_of_find? hm
  have hnot : name ∉ o.placedNames := h.apart name (by simp [hvis])
  have hnames : (o.leave model name).placedNames = o.placedNames ++ [name] := by
    simp [leave, placedNames, hname]
  have hvisiting : (o.leave model name).visiting = visiting := by simp [leave, hvis]
  have hnodup := h.visitingNodup
  rw [hvis, List.nodup_cons] at hnodup
  refine ⟨?_, ?_, ?_, ?_, ?_, ?_⟩
  · intro m hmem
    rcases List.mem_append.mp hmem with hmem | hmem
    · exact h.known m hmem
    · rw [List.mem_singleton.mp hmem, hname]
      exact hm
  · rw [hnames]
    exact h.nodup.append (List.nodup_singleton name) (List.disjoint_singleton.mpr hnot)
  · rw [hvisiting]
    exact hnodup.2
  · intro a ha
    rw [hvisiting] at ha
    exact h.visitingKnown a (by simp [hvis, ha])
  · intro a ha
    rw [hvisiting] at ha
    rw [hnames, List.mem_append, List.mem_singleton]
    rintro (hmem | rfl)
    · exact h.apart a (by simp [hvis, ha]) hmem
    · exact hnodup.1 ha
  · intro a ha b hedge
    rw [hnames] at ha ⊢
    rcases List.mem_append.mp ha with ha | ha
    · rw [earlier_append_of_mem ha]
      exact h.respected a ha b hedge
    · obtain rfl := List.mem_singleton.mp ha
      obtain ⟨model', hm', hb, hknown⟩ := hedge
      obtain rfl : model = model' := Option.some.inj (hm.symm.trans hm')
      exact (hdeps b hb hknown).imp (fun hmem => earlier_append_of_notMem hmem hnot) id

theorem leave_later {o₁ o₂ : ModelOrder} {name : String} {model : Model}
    (h : Sound models o₂) (hm : find? models name = some model)
    (hlater : Later models (FromVisited models name (o₁.enter name).visiting)
      (o₁.enter name) o₂) : Later models (fun _ => False) o₁ (o₂.leave model name) := by
  have hname : model.name = name := name_of_find? hm
  have hvis : o₂.visiting = name :: o₁.visiting := hlater.visiting
  have hnames : (o₂.leave model name).placedNames = o₂.placedNames ++ [name] := by
    simp [leave, placedNames, hname]
  obtain ⟨new, hnew, hback⟩ := hlater.backEdges
  refine ⟨hlater.grown.trans (List.prefix_append _ _), by simp [leave, hvis], new, hnew, ?_⟩
  intro e he
  refine Or.inr ?_
  rcases hback e he with ⟨hfrom, hto, hedge⟩ | hleads
  · -- the target is still being visited, so it has no place in front of the model
    have hto' : e.2 ∉ o₂.placedNames := h.apart e.2 (by rw [hvis]; exact hto)
    refine ⟨hedge, ?_, ?_⟩
    · rw [hnames, hfrom]
      exact List.mem_append_right _ (List.mem_singleton_self name)
    · rw [hnames, hfrom]
      exact not_earlier_append hto'
  · exact hleads.mono (by rw [hnames]; exact List.prefix_append _ _)

/-- The statement for a visit at some fuel. -/
def VisitKeeps (models : List Model) (fuel : Nat) : Prop :=
  ∀ o name, Sound models o → (find? models name).isSome → name ∉ o.visiting →
    models.length < fuel + o.visiting.length →
    Sound models (visit models fuel o name) ∧
      Later models (fun _ => False) o (visit models fuel o name) ∧
      name ∈ (visit models fuel o name).placedNames

theorem follow_keeps {fuel : Nat} (hvisit : VisitKeeps models fuel) {name dependency : String}
    {model : Model} (hm : find? models name = some model) (hdep : dependency ∈ model.dependsOn)
    {o : ModelOrder} (h : Sound models o) (hfuel : models.length < fuel + o.visiting.length) :
    Sound models (follow models fuel name o dependency) ∧
      Later models (FromVisited models name o.visiting) o (follow models fuel name o dependency) ∧
      ((find? models dependency).isSome →
        dependency ∈ (follow models fuel name o dependency).placedNames ∨
        (name, dependency) ∈ (follow models fuel name o dependency).backEdges) := by
  unfold follow
  split
  · next hnone =>
      refine ⟨h, Later.refl o, fun hsome => ?_⟩
      simp [Option.isNone_iff_eq_none.mp hnone] at hsome
  · next hknown =>
      have hsome : (find? models dependency).isSome := by
        simpa [Option.isSome_iff_ne_none, Option.isNone_iff_eq_none] using hknown
      split
      · next hvis =>
          have hmem : dependency ∈ o.visiting := by simpa using hvis
          refine ⟨⟨h.known, h.nodup, h.visitingNodup, h.visitingKnown, h.apart, ?_⟩, ?_, ?_⟩
          · intro a ha b hedge
            exact (h.respected a ha b hedge).imp id (List.mem_append_left _)
          · refine ⟨List.prefix_rfl, rfl, [(name, dependency)], rfl, ?_⟩
            intro e he
            obtain rfl := List.mem_singleton.mp he
            exact Or.inl ⟨rfl, hmem, model, hm, hdep, hsome⟩
          · intro _
            exact Or.inr (List.mem_append_right _ (List.mem_singleton_self _))
      · next hvis =>
          have hnot : dependency ∉ o.visiting := by simpa using hvis
          obtain ⟨hs, hl, hp⟩ := hvisit o dependency h hsome hnot hfuel
          exact ⟨hs, hl.weaken, fun _ => Or.inl hp⟩

theorem foldl_follow_keeps {fuel : Nat} (hvisit : VisitKeeps models fuel) {name : String}
    {model : Model} (hm : find? models name = some model) (deps : List String)
    (hdeps : ∀ d ∈ deps, d ∈ model.dependsOn) :
    ∀ o, Sound models o → models.length < fuel + o.visiting.length →
      Sound models (deps.foldl (follow models fuel name) o) ∧
        Later models (FromVisited models name o.visiting) o
          (deps.foldl (follow models fuel name) o) ∧
        ∀ d ∈ deps, (find? models d).isSome →
          d ∈ (deps.foldl (follow models fuel name) o).placedNames ∨
          (name, d) ∈ (deps.foldl (follow models fuel name) o).backEdges := by
  induction deps with
  | nil =>
      intro o h _
      exact ⟨h, Later.refl o, by simp⟩
  | cons d deps ih =>
      intro o h hfuel
      obtain ⟨hs, hl, hd⟩ :=
        follow_keeps hvisit hm (hdeps d List.mem_cons_self) h hfuel
      have hrest := ih (fun d' hd' => hdeps d' (List.mem_cons_of_mem _ hd')) _ hs
        (by rw [hl.visiting]; exact hfuel)
      obtain ⟨hs', hl', hd'⟩ := hrest
      rw [hl.visiting] at hl'
      refine ⟨hs', hl.trans hl', ?_⟩
      intro d' hmem hsome
      rcases List.mem_cons.mp hmem with rfl | hmem
      · obtain ⟨new, hnew, -⟩ := hl'.backEdges
        refine (hd hsome).imp (fun hp => hl'.placedNames.subset hp) (fun hb => ?_)
        rw [List.foldl_cons, hnew]
        exact List.mem_append_left _ hb
      · exact hd' d' hmem hsome

/-- A visit keeps the state sound, takes nothing back, and gives the model its place. The models
being visited are all different, so the fuel cannot run out. -/
theorem visit_keeps (fuel : Nat) : VisitKeeps models fuel := by
  induction fuel with
  | zero =>
      intro o name h hknown hnot hfuel
      have hle := visiting_length_le h
      omega
  | succ fuel ih =>
      intro o name h hknown hnot hfuel
      by_cases hplaced : name ∈ o.placedNames
      · rw [visit_of_placed hplaced]
        exact ⟨h, Later.refl o, hplaced⟩
      · obtain ⟨model, hm⟩ := Option.isSome_iff_exists.mp hknown
        rw [visit_of_find hplaced hm]
        obtain ⟨hs, hl, hd⟩ := foldl_follow_keeps ih hm model.dependsOn (fun _ hd => hd)
          (o.enter name) (h.enter hknown hnot hplaced)
          (by simp only [enter, List.length_cons]; omega)
        refine ⟨leave_sound hs hm hl.visiting hd, leave_later hs hm hl, ?_⟩
        simp [leave, placedNames, name_of_find? hm]

/-! ## The whole order -/

theorem foldl_visit_keeps {fuel : Nat} (hfuel : models.length < fuel) (names : List String)
    (hknown : ∀ a ∈ names, (find? models a).isSome) :
    ∀ o, Sound models o → o.visiting = [] →
      Sound models (names.foldl (visit models fuel) o) ∧
        Later models (fun _ => False) o (names.foldl (visit models fuel) o) ∧
        ∀ a ∈ names, a ∈ (names.foldl (visit models fuel) o).placedNames := by
  induction names with
  | nil =>
      intro o h _
      exact ⟨h, Later.refl o, by simp⟩
  | cons a names ih =>
      intro o h hvis
      obtain ⟨hs, hl, hp⟩ := visit_keeps fuel o a h (hknown a List.mem_cons_self) (by simp [hvis])
        (by rw [hvis]; simpa using hfuel)
      obtain ⟨hs', hl', hp'⟩ := ih (fun b hb => hknown b (List.mem_cons_of_mem _ hb)) _ hs
        (hl.visiting.trans hvis)
      refine ⟨hs', hl.trans hl', ?_⟩
      intro b hb
      rcases List.mem_cons.mp hb with rfl | hb
      · exact hl'.placedNames.subset hp
      · exact hp' b hb

theorem sound_empty : Sound models {} := by
  refine ⟨?_, ?_, ?_, ?_, ?_, ?_⟩ <;> simp [placedNames]

theorem known_of_mem_firsts {a : String} (h : a ∈ firsts (models.map (·.name))) :
    (find? models a).isSome :=
  find?_isSome.mpr (mem_firsts.mp h)

theorem ofModels_sound : Sound models (ofModels models) :=
  (foldl_visit_keeps (Nat.lt_succ_self _) _ (fun _ => known_of_mem_firsts) {} sound_empty rfl).1

/-- Every model has its place in the order. -/
theorem mem_placedNames_ofModels {a : String} :
    a ∈ (ofModels models).placedNames ↔ (find? models a).isSome := by
  constructor
  · intro h
    obtain ⟨m, hm, rfl⟩ := List.mem_map.mp h
    rw [ofModels_sound.known m hm]
    rfl
  · intro h
    exact (foldl_visit_keeps (Nat.lt_succ_self _) _ (fun _ => known_of_mem_firsts) {} sound_empty
      rfl).2.2 a (mem_firsts.mpr (find?_isSome.mp h))

/-- Every back edge is a dependency that the order does not respect. -/
theorem leadsBack_of_mem {e : String × String} (h : e ∈ (ofModels models).backEdges) :
    LeadsBack models (ofModels models) e := by
  obtain ⟨new, hnew, hback⟩ := (foldl_visit_keeps (Nat.lt_succ_self _) _
    (fun _ => known_of_mem_firsts) {} sound_empty rfl).2.1.backEdges
  refine (hback e ?_).resolve_left id
  have hmem : e ∈ ([] : List (String × String)) ++ new := hnew ▸ h
  simpa using hmem

/-! ## Models without the back edges -/

/-- The same model, but for dependencies that were cut. -/
def Pruned (cut : List (String × String)) (m m' : Model) : Prop :=
  m'.name = m.name ∧ m'.dependsOn = m.dependsOn.filter fun d => !cut.contains (m.name, d)

variable {models' : List Model}

theorem names_of_pruned {cut : List (String × String)}
    (h : List.Forall₂ (Pruned cut) models models') :
    models'.map (·.name) = models.map (·.name) := by
  induction h with
  | nil => rfl
  | cons hm _ ih => rw [List.map_cons, List.map_cons, hm.1, ih]

theorem find?_pruned {cut : List (String × String)} (h : List.Forall₂ (Pruned cut) models models')
    {name : String} {m : Model} (hm : find? models name = some m) :
    ∃ m', find? models' name = some m' ∧ Pruned cut m m' := by
  induction h with
  | nil => simp [find?] at hm
  | cons hp _ ih =>
      simp only [find?, List.find?_cons] at hm ih ⊢
      rw [hp.1]
      split at hm
      · obtain rfl := Option.some.inj hm
        exact ⟨_, rfl, hp⟩
      · exact ih hm

theorem find?_isSome_pruned {cut : List (String × String)}
    (h : List.Forall₂ (Pruned cut) models models') {name : String} :
    (find? models' name).isSome ↔ (find? models name).isSome := by
  rw [find?_isSome, find?_isSome, names_of_pruned h]

/-- Two states that differ only in what the models are and in back edges, of which the second has
none. -/
structure Alike (o o' : ModelOrder) : Prop where
  placed : o'.placedNames = o.placedNames
  visiting : o'.visiting = o.visiting
  none : o'.backEdges = []

/-- Every new back edge closes a cycle of the models without the back edges. -/
def ClosesCycles (models' : List Model) (o o' : ModelOrder) : Prop :=
  ∀ e ∈ o'.backEdges, e ∈ o.backEdges ∨ Relation.ReflTransGen (Edge models') e.2 e.1

/-- A state on the way to the order of the models. -/
def OnTheWay (models : List Model) (o : ModelOrder) : Prop :=
  o.placedNames <+: (ofModels models).placedNames ∧ o.backEdges ⊆ (ofModels models).backEdges

theorem OnTheWay.of_later {own : String × String → Prop} {o o' : ModelOrder}
    (h : OnTheWay models o') (hl : Later models own o o') : OnTheWay models o := by
  obtain ⟨new, hnew, -⟩ := hl.backEdges
  refine ⟨hl.placedNames.trans h.1, fun e he => h.2 ?_⟩
  rw [hnew]
  exact List.mem_append_left _ he

/-- The statement that a visit of the models without the back edges does the same. -/
def VisitAgain (models models' : List Model) (fuel : Nat) : Prop :=
  ∀ o o' name, Sound models o → Alike o o' → (find? models name).isSome → name ∉ o.visiting →
    models.length < fuel + o.visiting.length →
    (∀ a ∈ o.visiting, Relation.ReflTransGen (Edge models') a name) →
    OnTheWay models (visit models fuel o name) →
    Alike (visit models fuel o name) (visit models' fuel o' name) ∧
      ClosesCycles models' o (visit models fuel o name)

theorem cut_iff_visiting {fuel : Nat} {o : ModelOrder} {name d : String} (h : Sound models o)
    (hname : name ∈ o.visiting) (hknown : (find? models d).isSome)
    (hfuel : models.length < fuel + o.visiting.length)
    (hway : OnTheWay models (follow models fuel name o d)) :
    (name, d) ∈ (ofModels models).backEdges ↔ d ∈ o.visiting := by
  have hsome : ¬ (find? models d).isNone = true := by
    rw [Option.isNone_iff_eq_none]
    exact Option.isSome_iff_ne_none.mp hknown
  constructor
  · intro hcut
    by_contra hnot
    have hstep : follow models fuel name o d = visit models fuel o d := by
      simp only [follow, if_neg hsome, List.contains_iff_mem, if_neg hnot]
    rw [hstep] at hway
    obtain ⟨hs, hl, hp⟩ := visit_keeps fuel o d h hknown hnot hfuel
    -- the dependency has its place before the model that is still being visited
    have hnotplaced : name ∉ (visit models fuel o d).placedNames :=
      hs.apart name (by rw [hl.visiting]; exact hname)
    obtain ⟨more, hmore⟩ := hway.1
    refine (leadsBack_of_mem hcut).2.2 ?_
    rw [← hmore]
    exact earlier_append_of_notMem hp hnotplaced
  · intro hvis
    refine hway.2 ?_
    simp only [follow, if_neg hsome, List.contains_iff_mem, if_pos hvis]
    exact List.mem_append_right _ (List.mem_singleton_self _)

theorem follow_again {fuel : Nat} (hagain : VisitAgain models models' fuel)
    (hpruned : List.Forall₂ (Pruned (ofModels models).backEdges) models models')
    {name d : String} {model model' : Model} (hm : find? models name = some model)
    (hm' : find? models' name = some model') (hp : Pruned (ofModels models).backEdges model model')
    (hdep : d ∈ model.dependsOn) {o o' : ModelOrder} (h : Sound models o) (halike : Alike o o')
    (hname : name ∈ o.visiting) (hfuel : models.length < fuel + o.visiting.length)
    (hreach : ∀ a ∈ o.visiting, Relation.ReflTransGen (Edge models') a name)
    (hway : OnTheWay models (follow models fuel name o d)) :
    Alike (follow models fuel name o d)
        (if (ofModels models).backEdges.contains (name, d) then o'
          else follow models' fuel name o' d) ∧
      ClosesCycles models' o (follow models fuel name o d) := by
  by_cases hknown : (find? models d).isSome
  · have hsome : ¬ (find? models d).isNone = true := by
      rw [Option.isNone_iff_eq_none]
      exact Option.isSome_iff_ne_none.mp hknown
    have hsome' : ¬ (find? models' d).isNone = true := by
      rw [Option.isNone_iff_eq_none]
      exact Option.isSome_iff_ne_none.mp ((find?_isSome_pruned hpruned).mpr hknown)
    have hcut := cut_iff_visiting h hname hknown hfuel hway
    by_cases hvis : d ∈ o.visiting
    · have hstep : follow models fuel name o d =
          { o with backEdges := o.backEdges ++ [(name, d)] } := by
        simp only [follow, if_neg hsome, List.contains_iff_mem, if_pos hvis]
      rw [hstep, if_pos (List.contains_iff_mem.mpr (hcut.mpr hvis))]
      refine ⟨⟨halike.placed, halike.visiting, halike.none⟩, ?_⟩
      intro e he
      rcases List.mem_append.mp he with he | he
      · exact Or.inl he
      · obtain rfl := List.mem_singleton.mp he
        exact Or.inr (hreach d hvis)
    · have hnotcut : ¬ (name, d) ∈ (ofModels models).backEdges := fun hc => hvis (hcut.mp hc)
      have hstep : follow models fuel name o d = visit models fuel o d := by
        simp only [follow, if_neg hsome, List.contains_iff_mem, if_neg hvis]
      have hstep' : follow models' fuel name o' d = visit models' fuel o' d := by
        simp only [follow, if_neg hsome', List.contains_iff_mem, halike.visiting, if_neg hvis]
      rw [hstep] at hway
      rw [hstep, hstep', if_neg (by rw [List.contains_iff_mem]; exact hnotcut)]
      have hedge : Edge models' name d := by
        refine ⟨model', hm', ?_, (find?_isSome_pruned hpruned).mpr hknown⟩
        rw [hp.2, name_of_find? hm]
        simpa [hnotcut] using hdep
      exact hagain o o' d h halike hknown hvis hfuel (fun a ha => (hreach a ha).tail hedge) hway
  · have hnone : (find? models d).isNone = true := by simpa using hknown
    have hknown' : ¬ (find? models' d).isSome := fun hk =>
      hknown ((find?_isSome_pruned hpruned).mp hk)
    have hnone' : (find? models' d).isNone = true := by simpa using hknown'
    have hstep : follow models fuel name o d = o := by simp only [follow, if_pos hnone]
    have hstep' : follow models' fuel name o' d = o' := by simp only [follow, if_pos hnone']
    rw [hstep, hstep', ite_self]
    exact ⟨halike, fun e he => Or.inl he⟩

theorem foldl_follow_again {fuel : Nat} (hagain : VisitAgain models models' fuel)
    (hpruned : List.Forall₂ (Pruned (ofModels models).backEdges) models models')
    {name : String} {model model' : Model} (hm : find? models name = some model)
    (hm' : find? models' name = some model') (hp : Pruned (ofModels models).backEdges model model')
    (deps : List String) (hdeps : ∀ d ∈ deps, d ∈ model.dependsOn) :
    ∀ o o', Sound models o → Alike o o' → name ∈ o.visiting →
      models.length < fuel + o.visiting.length →
      (∀ a ∈ o.visiting, Relation.ReflTransGen (Edge models') a name) →
      OnTheWay models (deps.foldl (follow models fuel name) o) →
      Alike (deps.foldl (follow models fuel name) o)
          ((deps.filter fun d => !(ofModels models).backEdges.contains (name, d)).foldl
            (follow models' fuel name) o') ∧
        ClosesCycles models' o (deps.foldl (follow models fuel name) o) := by
  induction deps with
  | nil =>
      intro o o' _ halike _ _ _ _
      exact ⟨halike, fun e he => Or.inl he⟩
  | cons d deps ih =>
      intro o o' h halike hname hfuel hreach hway
      have hdep : d ∈ model.dependsOn := hdeps d List.mem_cons_self
      have hrest : ∀ d' ∈ deps, d' ∈ model.dependsOn :=
        fun d' hd' => hdeps d' (List.mem_cons_of_mem _ hd')
      obtain ⟨hs, hl, -⟩ := follow_keeps (visit_keeps fuel) hm hdep h hfuel
      have hfuel' : models.length < fuel + (follow models fuel name o d).visiting.length := by
        rw [hl.visiting]
        exact hfuel
      obtain ⟨-, hl', -⟩ := foldl_follow_keeps (visit_keeps fuel) hm deps hrest _ hs hfuel'
      have hstep := follow_again hagain hpruned hm hm' hp hdep h halike hname hfuel hreach
        (hway.of_later hl')
      have hfold := ih hrest _ _ hs hstep.1 (by rw [hl.visiting]; exact hname) hfuel'
        (by rw [hl.visiting]; exact hreach) hway
      refine ⟨?_, ?_⟩
      · rw [List.filter_cons]
        split
        · next hkeep =>
            have hnot : (ofModels models).backEdges.contains (name, d) = false := by
              simpa using hkeep
            simpa only [List.foldl_cons, hnot, Bool.false_eq_true, if_false] using hfold.1
        · next hcut =>
            have hcut' : (ofModels models).backEdges.contains (name, d) = true := by
              simpa using hcut
            simpa only [List.foldl_cons, hcut', if_true] using hfold.1
      · intro e he
        rcases hfold.2 e he with he | hr
        · exact hstep.2 e he
        · exact Or.inr hr

theorem visit_again (hpruned : List.Forall₂ (Pruned (ofModels models).backEdges) models models')
    (fuel : Nat) : VisitAgain models models' fuel := by
  induction fuel with
  | zero =>
      intro o o' name h _ _ _ hfuel
      have hle := visiting_length_le h
      omega
  | succ fuel ih =>
      intro o o' name h halike hknown hnot hfuel hreach hway
      by_cases hplaced : name ∈ o.placedNames
      · rw [visit_of_placed hplaced, visit_of_placed (by rw [halike.placed]; exact hplaced)]
        exact ⟨halike, fun e he => Or.inl he⟩
      · obtain ⟨model, hm⟩ := Option.isSome_iff_exists.mp hknown
        obtain ⟨model', hm', hp⟩ := find?_pruned hpruned hm
        have hfuel' : models.length < fuel + (o.enter name).visiting.length := by
          simp only [enter, List.length_cons]
          omega
        obtain ⟨hs, hl, -⟩ := foldl_follow_keeps (visit_keeps fuel) hm model.dependsOn
          (fun _ hd => hd) (o.enter name) (h.enter hknown hnot hplaced) hfuel'
        rw [visit_of_find hplaced hm] at hway ⊢
        rw [visit_of_find (by rw [halike.placed]; exact hplaced) hm', hp.2, name_of_find? hm]
        have halike' : Alike (o.enter name) (o'.enter name) :=
          ⟨halike.placed, by simp [enter, halike.visiting], halike.none⟩
        have hreach' : ∀ a ∈ (o.enter name).visiting,
            Relation.ReflTransGen (Edge models') a name := by
          intro a ha
          rcases List.mem_cons.mp ha with rfl | ha
          · exact Relation.ReflTransGen.refl
          · exact hreach a ha
        have hway' : OnTheWay models
            (model.dependsOn.foldl (follow models fuel name) (o.enter name)) :=
          ⟨List.IsPrefix.trans (by simp [leave, placedNames]) hway.1, hway.2⟩
        obtain ⟨hfold, hcycles⟩ := foldl_follow_again ih hpruned hm hm' hp model.dependsOn
          (fun _ hd => hd) (o.enter name) (o'.enter name) (h.enter hknown hnot hplaced) halike'
          (by simp [enter]) hfuel' hreach' hway'
        refine ⟨⟨?_, ?_, hfold.none⟩, hcycles⟩
        · simpa [leave, placedNames, hp.1] using hfold.placed
        · exact congrArg (List.erase · name) hfold.visiting

theorem foldl_visit_again {fuel : Nat} (hfuel : models.length < fuel)
    (hpruned : List.Forall₂ (Pruned (ofModels models).backEdges) models models')
    (names : List String) (hknown : ∀ a ∈ names, (find? models a).isSome) :
    ∀ o o', Sound models o → Alike o o' → o.visiting = [] →
      OnTheWay models (names.foldl (visit models fuel) o) →
      Alike (names.foldl (visit models fuel) o) (names.foldl (visit models' fuel) o') ∧
        ClosesCycles models' o (names.foldl (visit models fuel) o) := by
  induction names with
  | nil =>
      intro o o' _ halike _ _
      exact ⟨halike, fun e he => Or.inl he⟩
  | cons a names ih =>
      intro o o' h halike hvis hway
      have hfuel' : models.length < fuel + o.visiting.length := by
        rw [hvis]
        simpa using hfuel
      have hrest : ∀ b ∈ names, (find? models b).isSome :=
        fun b hb => hknown b (List.mem_cons_of_mem _ hb)
      obtain ⟨hs, hl, -⟩ := visit_keeps fuel o a h (hknown a List.mem_cons_self) (by simp [hvis])
        hfuel'
      obtain ⟨-, hl', -⟩ := foldl_visit_keeps hfuel names hrest _ hs (hl.visiting.trans hvis)
      obtain ⟨hstep, hcycles⟩ := visit_again hpruned fuel o o' a h halike
        (hknown a List.mem_cons_self) (by simp [hvis]) hfuel' (by simp [hvis]) (hway.of_later hl')
      obtain ⟨hfold, hcycles'⟩ := ih hrest _ _ hs hstep (hl.visiting.trans hvis) hway
      refine ⟨hfold, fun e he => ?_⟩
      rcases hcycles' e he with he | hr
      · exact hcycles e he
      · exact Or.inr hr

theorem ofModels_again (h : List.Forall₂ (Pruned (ofModels models).backEdges) models models') :
    Alike (ofModels models) (ofModels models') ∧ ClosesCycles models' {} (ofModels models) := by
  have hlength : models'.length = models.length := h.length_eq.symm
  have hway : OnTheWay models (ofModels models) := ⟨List.prefix_rfl, fun _ he => he⟩
  have hof : ofModels models' =
      (firsts (models.map (·.name))).foldl (visit models' (models.length + 1)) {} := by
    rw [ofModels, names_of_pruned h, hlength]
  rw [hof]
  exact foldl_visit_again (Nat.lt_succ_self _) h _ (fun _ => known_of_mem_firsts) {} {}
    sound_empty ⟨rfl, rfl, rfl⟩ rfl hway

/-- Without the back edges the models have the same order, and no back edges are left. -/
theorem ofModels_pruned (h : List.Forall₂ (Pruned (ofModels models).backEdges) models models') :
    (ofModels models').placedNames = (ofModels models).placedNames ∧
      (ofModels models').backEdges = [] :=
  ⟨(ofModels_again h).1.placed, (ofModels_again h).1.none⟩

/-- Every back edge closes a cycle of dependencies that are no back edges. -/
theorem ofModels_cycle (h : List.Forall₂ (Pruned (ofModels models).backEdges) models models')
    {e : String × String} (he : e ∈ (ofModels models).backEdges) :
    Relation.ReflTransGen (Edge models') e.2 e.1 :=
  ((ofModels_again h).2 e he).resolve_left (by simp)

/-! ## Models of different names -/

/-- A model uses another one. -/
def Requires (models : List Model) (a b : String) : Prop :=
  ∃ m ∈ models, m.name = a ∧ b ∈ m.dependsOn

theorem find?_of_mem (hnodup : (models.map (·.name)).Nodup) {m : Model} (hm : m ∈ models) :
    find? models m.name = some m := by
  obtain ⟨m', hm'⟩ := Option.isSome_iff_exists.mp (find?_isSome.mpr (List.mem_map_of_mem hm))
  rw [hm']
  exact congrArg some
    (List.inj_on_of_nodup_map hnodup (List.mem_of_find?_eq_some hm') hm (name_of_find? hm'))

theorem edge_iff (hnodup : (models.map (·.name)).Nodup) {a b : String} :
    Edge models a b ↔ Requires models a b ∧ b ∈ models.map (·.name) := by
  constructor
  · rintro ⟨m, hm, hb, hsome⟩
    exact ⟨⟨m, List.mem_of_find?_eq_some hm, name_of_find? hm, hb⟩, find?_isSome.mp hsome⟩
  · rintro ⟨⟨m, hm, rfl, hb⟩, hmem⟩
    exact ⟨m, find?_of_mem hnodup hm, hb, find?_isSome.mpr hmem⟩

/-- Models of different names are all put in order, and no others. -/
theorem mem_models_ofModels (hnodup : (models.map (·.name)).Nodup) {m : Model} :
    m ∈ (ofModels models).models ↔ m ∈ models := by
  constructor
  · intro hm
    exact List.mem_of_find?_eq_some (ofModels_sound.known m hm)
  · intro hm
    have hplaced : m.name ∈ (ofModels models).placedNames :=
      mem_placedNames_ofModels.mpr (find?_isSome.mpr (List.mem_map_of_mem hm))
    obtain ⟨m', hm', hname⟩ := List.mem_map.mp hplaced
    have hfind := ofModels_sound.known m' hm'
    rw [hname, find?_of_mem hnodup hm] at hfind
    rw [Option.some.inj hfind]
    exact hm'

/-- Without back edges every model that is used stands in front of those that use it. -/
theorem earlier_of_edge (hnone : (ofModels models).backEdges = []) {a b : String}
    (h : Edge models a b) : Earlier (ofModels models).placedNames b a := by
  obtain ⟨m, hm, -⟩ := id h
  have hplaced : a ∈ (ofModels models).placedNames :=
    mem_placedNames_ofModels.mpr (by rw [hm]; rfl)
  refine (ofModels_sound.respected a hplaced b h).resolve_right ?_
  rw [hnone]
  exact List.not_mem_nil

end ApiScaffold.ModelOrder
