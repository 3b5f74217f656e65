import ApiScaffold.Proofs.Concluding
import ApiScaffold.Proofs.Declared
import ApiScaffold.Proofs.Restoring

set_option autoImplicit false

/-! # Batches without links

A document that is not linked shows its values as they are. So does what is compiled from it: the
constraints, samples and listed values of properties, and the members of enumerations
(`compileWithin_unlinked`). -/

namespace ApiScaffold

open Node (Plain closed_plain)

/-- A list whose members stay as they are stays as it is. -/
theorem map_eq_self {α : Type} {f : α → α} {xs : List α} (h : ∀ x ∈ xs, f x = x) : xs.map f = xs :=
  (List.map_congr_left h).trans (List.map_id' xs)

theorem Property.unlinked_eq {p : Property} (hconstraints : ∀ c ∈ p.constraints, c.unlinked = c)
    (hsample : p.sample.unlinked = p.sample) (hvalues : ∀ e ∈ p.enumValues, e.unlinked = e) :
    p.unlinked = p := by
  rw [unlinked, map_eq_self hconstraints, hsample, map_eq_self hvalues]

namespace Mapper

variable {m : Mapper} {ctx : MappingContext} {n : Node} {s t : MapperState} {a : MappedType}

/-! ## Types -/

theorem TakenFrom.unlinked {e : Excerpt} (h : TakenFrom n e) (hn : n.Plain) : e.unlinked = e := by
  have hplain : ∀ {b : Node}, b.Plain → b.excerpt = .ok e → e.unlinked = e := by
    intro b hb h
    rw [Node.excerpt_of_plain hb] at h
    cases h
    rfl
  cases h with
  | value hb h => exact hplain (closed_plain.get hn hb) h
  | entry hb hentries hentry h =>
      exact hplain (closed_plain.entries (closed_plain.get hn hb) hentries _ hentry) h

/-- What a type checks against, and the values that it lists, are shown as they are. -/
structure Unlinked (a : MappedType) : Prop where
  checks : ∀ con ∈ a.constraints, con.unlinked = con
  values : ∀ e ∈ a.enumValues, e.unlinked = e

theorem unlinked_ofClass (name : String) (each : Bool) :
    ∀ con ∈ Constraint.ofClass name each, con.unlinked = con := by
  cases each <;> simp [Constraint.ofClass, Constraint.unlinked]

/-- Without links every way to map a schema gives a type that shows its values as they are. -/
theorem unlinked_rules (hr : m.resolver.document.linked = false) :
    MapRules m ctx fun n _ a _ => n.Plain → Unlinked a where
  plain hplain _ hn := by
    refine ⟨fun con hcon => ?_, fun e he => (hplain.values e he).unlinked hn⟩
    have hvalue : con.value.unlinked = con.value := by
      rcases (hplain.checks con hcon).value with hown | htaken
      · rw [hown]
        rfl
      · exact htaken.unlinked hn
    rw [Constraint.unlinked, hvalue]
  texts hrefers hvalues _ := by
    refine ⟨by simp [textsType, Constraint.unlinked], fun e he => (hvalues e he).unlinked ?_⟩
    exact closed_plain.find (r := m.resolver) hr hrefers.found
  through hstep h hn := h (closed_plain.partOf hr hn hstep.part)
  ofClass _ _ := ⟨unlinked_ofClass _ _, by simp [MappedType.ofClass]⟩
  union hall hchain hn := by
    have hmembers := hchain.forall_types fun b hb s a t h => h (closed_plain.variants hn hall b hb)
    rcases unionType_cases _ with heq | hmem | ⟨members, -, heq⟩
    · rw [heq]
      exact ⟨by simp [MappedType.any], by simp [MappedType.any]⟩
    · exact hmembers _ hmem
    · rw [heq]
      exact ⟨by simp, by simp⟩
  unknown _ _ _ := ⟨by simp [unknownList, Constraint.unlinked], by simp [unknownList]⟩
  items _ _ _ := by
    refine ⟨List.forall_mem_cons.mpr ⟨rfl, ?_⟩, by simp [listType]⟩
    split
    · exact unlinked_ofClass _ _
    · simp
  itemsOfClass _ _ _ :=
    ⟨List.forall_mem_cons.mpr ⟨rfl, unlinked_ofClass _ _⟩, by simp [listOfClassType]⟩
  record _ _ _ := ⟨by simp, by simp⟩

end Mapper

namespace ModelCompiler

open Mapper EnumCollection

variable {m : Mapper} {name source : String} {blocked : List String} {schema : Node}

/-! ## Models -/

theorem compileProperty_unlinked {ctx : MappingContext} {required : Bool} {s t : MapperState}
    {p : Property} (hr : m.resolver.document.linked = false) (hschema : schema.Plain)
    (h : Yields (compileProperty m ctx required schema) s p t) : p.unlinked = p := by
  obtain ⟨mapped, u, hmapped, h⟩ := yields_bind.mp h
  have htype : Unlinked mapped := mapProperty_rules (unlinked_rules hr) hmapped hschema
  have hproperty : ∀ (description : Option String) (sample : Excerpt), sample.unlinked = sample →
      (propertyOf ctx.property required mapped description sample).unlinked =
        propertyOf ctx.property required mapped description sample := by
    intro description sample hsample
    rw [propertyOf, ← Property.settled_unlinked]
    exact congrArg Property.settled (Property.unlinked_eq htype.checks hsample htype.values)
  obtain ⟨documented, -, h⟩ := yields_lift_bind.mp h
  cases documented with
  | true =>
      obtain ⟨description, -, h⟩ := yields_lift_bind.mp h
      obtain ⟨sample, hsample, h⟩ := yields_lift_bind.mp h
      obtain ⟨rfl, -⟩ := yields_pure.mp h
      obtain ⟨shown, hshown, hsample⟩ := bind_eq_ok.mp hsample
      exact hproperty description sample ((TakenFrom.value hshown hsample).unlinked hschema)
  | false =>
      obtain ⟨rfl, -⟩ := yields_pure.mp h
      exact hproperty none .null rfl

theorem compileOn_unlinked {r r' : Registry} {model : Model}
    (hr : m.resolver.document.linked = false) (hschema : schema.Plain)
    (h : compileOn m r name source blocked schema = .ok (model, r')) : model.unlinked = model := by
  obtain ⟨t, hrun, -⟩ := compileOn_eq_ok.mp h
  obtain ⟨gathered, properties, description, hgathered, hproperties, -, rfl⟩ :=
    yields_compileModel.mp hrun
  have hall := (yields_mapM (R := fun _ _ => True) (fun _ => trivial) (fun _ _ _ _ _ => trivial)
    (fun _ _ _ _ _ _ => trivial) hproperties).2
  rw [Model.unlinked, map_eq_self]
  intro p hp
  obtain ⟨q, hq, u, v, -, hproperty, -⟩ := exists_left_of_forall₂ hall p hp
  exact compileProperty_unlinked hr (closed_plain.gathered hr hschema hgathered q hq) hproperty

end ModelCompiler

namespace EnumCollection

open Mapper

variable {r : Resolver} {s t : EnumCollection} {n : Node}

/-! ## Enumerations -/

/-- The enumerations found are shown as they are. -/
def Unlinked (s : EnumCollection) : Prop := ∀ e ∈ s.enums, e.unlinked = e

theorem listed_unlinked {values : List Excerpt} (hn : n.Plain) (h : listed n = .ok values) :
    ∀ e ∈ values, e.unlinked = e := by
  obtain ⟨texts, htexts, h⟩ := bind_eq_ok.mp h
  obtain ⟨entries, hentries, h⟩ := bind_eq_ok.mp h
  exact fun e he => (takenFrom_of_mapM htexts hentries h e he).unlinked hn

theorem Unlinked.add {values : List Excerpt} (hs : s.Unlinked) (name : String)
    (hvalues : ∀ e ∈ values, e.unlinked = e) : (s.add name values).Unlinked := by
  have hnew : (enumeration name values).unlinked = enumeration name values := by
    rw [Enumeration.unlinked, map_eq_self]
    intro member hmember
    obtain ⟨e, he, rfl⟩ := List.mem_map.mp hmember
    rw [EnumMember.unlinked, hvalues e he]
  rcases add_cases s name values with ⟨-, hsame⟩ | ⟨-, -, hmore⟩
  · rwa [hsame]
  · rw [hmore]
    exact List.forall_mem_append.mpr ⟨hs, List.forall_mem_singleton.mpr hnew⟩

theorem forM_unlinked {α : Type} {f : α → EnumWalk Unit} {xs : List α} {u : Unit}
    (hf : ∀ x ∈ xs, ∀ s u t, Yields (f x) s u t → s.Unlinked → t.Unlinked)
    (h : Yields (xs.forM f) s u t) (hs : s.Unlinked) : t.Unlinked :=
  (yields_forM (R := fun s t : EnumCollection => s.Unlinked → t.Unlinked) (fun _ => id)
    (fun _ _ _ hst htu hs => htu (hst hs)) hf h).1 hs

/-- A walk from a node without links keeps the enumerations without links. -/
def KeepsUnlinked (walk : Node → EnumWalk Unit) : Prop :=
  ∀ n s u t, n.Plain → Yields (walk n) s u t → s.Unlinked → t.Unlinked

theorem walkProperty_unlinked {walk : Node → EnumWalk Unit} {name : String} {u : Unit}
    (hwalk : KeepsUnlinked walk) (hn : n.Plain) (h : Yields (walkProperty walk name n) s u t)
    (hs : s.Unlinked) : t.Unlinked := by
  rcases yields_walkProperty h with
    ⟨-, rfl⟩ | ⟨texts, values, hshows, hvalues, rfl⟩ | ⟨next, hshows, h⟩
  · exact hs
  · refine hs.add _ (listed_unlinked ?_ hvalues)
    cases hshows with
    | texts _ => exact hn
    | listOfTexts hlist _ => exact closed_plain.get hn hlist.items
  · exact hwalk next s _ t (hshows.closed closed_plain hn) h hs

theorem Enters.unlinked {walk : Node → EnumWalk Unit} {here : Node} (hwalk : KeepsUnlinked walk)
    (hhere : here.Plain) (h : Enters walk here s t) (hs : s.Unlinked) : t.Unlinked := by
  obtain ⟨hallOf, hmembers, hfirst, hlisted, hproperties, hlast⟩ := h
  have hmember := closed_plain.entriesIfAny (closed_plain.get hhere hallOf) hmembers
  have hproperty := closed_plain.fieldsIfAny (closed_plain.get hhere hlisted) hproperties
  have hmiddle := forM_unlinked (fun n hn s u t => hwalk n s u t (hmember n hn)) hfirst hs
  exact forM_unlinked (fun p hp _ _ _ => walkProperty_unlinked hwalk (hproperty p hp)) hlast hmiddle

/-- Without links a walk finds enumerations that are shown as they are. -/
theorem walkWithin_unlinked (hr : r.document.linked = false) (fuel : Nat) :
    KeepsUnlinked (walkWithin (some r) fuel) := by
  induction fuel with
  | zero => exact fun n s u t _ h => absurd h yields_throw
  | succ fuel ih =>
      intro n s u t hn h hs
      obtain ⟨found, hfound, hrest⟩ := yields_lift_bind.mp h
      cases found with
      | none =>
          obtain ⟨-, rfl⟩ := yields_pure.mp hrest
          exact hs
      | some here =>
          have hhere : here.Plain := closed_plain.objectAt (r := r) hr hn hfound
          rcases yields_walkWithin hfound h with ⟨-, rfl⟩ | ⟨-, henters⟩
          · exact hs
          · exact henters.unlinked ih hhere hs

end EnumCollection

namespace ModelCompiler

open Mapper EnumCollection

variable {c : ModelCompiler} {document : Document} {strict : Bool} {spec : Option String}

theorem seed_unlinked {registry : Registry} {enums : EnumCollection}
    (hfields : ∀ fields, c.mapper.components.fields = .ok fields → ∀ f ∈ fields, f.2.Plain)
    (h : c.seed = .ok (registry, enums)) : enums.Unlinked := by
  obtain ⟨fields, step, hnamed, hstep, h⟩ := seed_eq_ok h
  refine foldlM_keeps (P := fun s : Registry × EnumCollection => s.2.Unlinked) ?_
    (fun e he => absurd he List.not_mem_nil) h
  intro s s' f hf hs hrun
  cases hstep s f s' hrun with
  | texts _ hvalues => exact hs.add _ (listed_unlinked (hfields fields hnamed f hf) hvalues)
  | model => exact hs
  | other => exact hs

/-! ## Batches -/

/-- Nothing that a document without links offers has links. -/
theorem offers_plain (hplain : document.linked = false)
    (hc : ofDocument document strict spec = .ok c) : Offers Plain c := by
  have hmapper := (ofDocument_eq_ok hc).1
  have hcomponents := plain_components hplain hmapper
  refine ⟨closed_plain, ?_, fun _ => closed_plain.fields hcomponents,
    fun _ _ => closed_plain.get hcomponents⟩
  rw [(Mapper.ofDocument_eq_ok hmapper).2.1]
  exact hplain

/-- The models and enumerations of a document without links are shown as they are, if the extra
schemas have no links either. -/
theorem compileWithin_unlinked (hplain : document.linked = false)
    (hc : ofDocument document strict spec = .ok c) {extra : List (String × Node)}
    (hextra : ∀ e ∈ extra, e.2.Plain) {limit : Nat} {batch : ModelBatch}
    (h : c.compileWithin limit extra = .ok batch) : batch.unlinked = batch := by
  obtain ⟨w, enums, done, hstart, hdrain, hfinish⟩ := compileWithin_eq_ok h
  have hoffers : Offers Plain c := offers_plain hplain hc
  have hr : c.mapper.resolver.document.linked = false := hoffers.top
  have hcompiled := compiled_in hoffers hextra hstart hdrain
  have hdone : Consistent c done := drain_consistent (start_consistent hstart) hdrain
  have hmodels : ∀ model ∈ batch.models, model.unlinked = model := by
    intro model hmodel
    obtain ⟨m, hm, -, blocked, r, r', hcompile⟩ := (built_of_finish hdone hfinish).2.1 model hmodel
    exact compileOn_unlinked hr (hcompiled m hm) hcompile
  have henums : ∀ e ∈ batch.enums, e.unlinked = e := by
    obtain ⟨⟨registry, seeded⟩, hseed, hrest⟩ := bind_eq_ok.mp hstart
    cases pure_eq_ok.mp hrest
    obtain ⟨found, hwalk, hfound⟩ := finish_enums hfinish
    rw [hfound]
    refine forM_unlinked (fun n hn s u t => ?_) hwalk (seed_unlinked hoffers.fields hseed)
    obtain ⟨m, hm, rfl⟩ := List.mem_map.mp hn
    exact walkWithin_unlinked hr _ m.schema s u t (hcompiled m hm)
  rw [ModelBatch.unlinked, map_eq_self hmodels, map_eq_self henums]

end ModelCompiler

end ApiScaffold
