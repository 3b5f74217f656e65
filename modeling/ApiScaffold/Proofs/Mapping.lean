import ApiScaffold.Proofs.Mention
import ApiScaffold.Proofs.Outcome
import ApiScaffold.Proofs.Registry
import ApiScaffold.Typing.Mapper
import Mathlib.Logic.Relation

set_option autoImplicit false

/-! # What mapping does to the registry

Mapping goes in few kinds of steps (`MapStep`): it registers a named model, claims a name for the
target of a reference or for an object in place, or notes that a model is used. So the registry only
grows, and what is used is registered.

Mapping again, on a registry that has grown and with some models blocked, takes the same steps
(`Replays`): every name is there already, so nothing is registered, and of the models used the
blocked ones are left out. -/

namespace ApiScaffold.Mapper

/-! ## Runs of a mapping -/

section Runs

variable {s t : MapperState}

theorem yields_register {e : Entry} {u : Unit} :
    Yields (register e) s u t ↔ t = { s with registry := s.registry.register e } := yields_modify

theorem yields_depend {name : String} {u : Unit} :
    Yields (depend name) s u t ↔ t = { s with dependencies := addNew s.dependencies name } :=
  yields_modify

theorem yields_claim {base source name : String} {schema : Node} :
    Yields (claim base schema source) s name t ↔
      ∃ registry, s.registry.claim base schema source = .ok (name, registry) ∧
        t = { s with registry } := by
  constructor
  · intro h
    simp only [claim, yields_bind, yields_get, yields_lift] at h
    obtain ⟨u, v, ⟨rfl, rfl⟩, ⟨found, registry⟩, w, ⟨hclaim, rfl⟩, _, v', hv', hname⟩ := h
    obtain ⟨rfl, rfl⟩ := yields_pure.mp hname
    exact ⟨registry, hclaim, yields_modify.mp hv'⟩
  · rintro ⟨registry, hclaim, rfl⟩
    simp only [claim, yields_bind, yields_get, yields_lift]
    refine ⟨s, s, ⟨rfl, rfl⟩, (name, registry), s, ⟨hclaim, rfl⟩, (), { s with registry }, ?_, ?_⟩
    · exact yields_modify.mpr rfl
    · exact yields_pure.mpr ⟨rfl, rfl⟩

end Runs

/-! ## Steps -/

/-- A schema that mapping looks into when it maps another one. References to models are left to the
models. -/
inductive Part (m : Mapper) : Node → Node → Prop where
  | items {a b : Node} (h : a.get "items" = .ok b) : Part m a b
  | values {a b : Node} (h : a.get "additionalProperties" = .ok b) : Part m a b
  | member {a b : Node} (h : onlyMember? a = .ok (some b)) : Part m a b
  | variant {a b : Node} {all : List Node} (h : variants a = .ok all) (hb : b ∈ all) : Part m a b
  | target {a b : Node} {pointer : String} (h : a.pointer? = .ok (some pointer))
      (hb : m.resolver.find pointer = .ok (some b)) (halias : Schema.isModel b = .ok false) :
      Part m a b

/-- A name that a named schema has, or a pointer in one of some schemas. -/
def NamedBy (m : Mapper) (Q : Node → Prop) (name : String) : Prop :=
  (∃ fields, m.components.fields = .ok fields ∧ name ∈ fields.map (·.1)) ∨
    ∃ n pointer, Q n ∧ n.pointer? = .ok (some pointer) ∧ name = Pointer.name pointer

/-- A model that a name or a pointer stands for, with the schema found there. -/
structure NamedEntry (m : Mapper) (Q : Node → Prop) (e : Entry) : Prop where
  source : e.source = "component"
  name : ∃ name, e.name = m.names.classOf name ∧ NamedBy m Q name
  schema : ∀ n, e.schema = some n →
    (∃ key, m.components.get key = .ok n) ∨ ∃ pointer, m.resolver.find pointer = .ok (some n)

/-- One step of mapping a property of `model`; `Q` holds of the schemas in reach. -/
inductive MapStep (m : Mapper) (model : String) (Q : Node → Prop) :
    MapperState → MapperState → Prop where
  | register (s : MapperState) (e : Entry) (he : NamedEntry m Q e) :
      MapStep m model Q s { s with registry := s.registry.register e }
  | target (s : MapperState) {name : String} {registry : Registry} {n t : Node}
      {pointer : String} (hn : Q n) (hp : n.pointer? = .ok (some pointer))
      (ht : m.resolver.find pointer = .ok (some t))
      (hclaim : s.registry.claim (Naming.capitalize (Pointer.name pointer)) t "reference" =
        .ok (name, registry)) :
      MapStep m model Q s { s with registry }
  | inPlace (s : MapperState) {base name : String} {registry : Registry} {n : Node} (hn : Q n)
      (hobject : n.isObject = .ok true)
      (hclaim : s.registry.claim base n "inline" = .ok (name, registry)) :
      MapStep m model Q s { s with registry }
  | use (s : MapperState) {name : String} (hname : name ∈ s.registry.names)
      (hother : name ≠ model) :
      MapStep m model Q s { s with dependencies := addNew s.dependencies name }

/-- What mapping does is a sequence of steps. -/
abbrev MapSteps (m : Mapper) (model : String) (Q : Node → Prop) :
    MapperState → MapperState → Prop :=
  Relation.ReflTransGen (MapStep m model Q)

section Steps

variable {m : Mapper} {model : String} {Q : Node → Prop} {s t : MapperState}

theorem MapStep.extends (h : MapStep m model Q s t) : Registry.Extends s.registry t.registry := by
  cases h with
  | register e he => exact Registry.extends_register
  | target hn hp ht hclaim => exact Registry.extends_claim hclaim
  | inPlace hn hobject hclaim => exact Registry.extends_claim hclaim
  | use hname hother => exact Registry.Extends.refl _

theorem MapSteps.extends (h : MapSteps m model Q s t) :
    Registry.Extends s.registry t.registry := by
  induction h with
  | refl => exact Registry.Extends.refl _
  | tail _ hstep ih => exact ih.trans hstep.extends

theorem MapStep.taken (h : MapStep m model Q s t) : t.registry.taken = s.registry.taken := by
  cases h with
  | register e he => exact Registry.taken_register
  | target hn hp ht hclaim =>
      rw [(Registry.claim_spec hclaim).1]
      exact Registry.taken_register
  | inPlace hn hobject hclaim =>
      rw [(Registry.claim_spec hclaim).1]
      exact Registry.taken_register
  | use hname hother => rfl

theorem MapSteps.taken (h : MapSteps m model Q s t) : t.registry.taken = s.registry.taken := by
  induction h with
  | refl => rfl
  | tail _ hstep ih => exact hstep.taken.trans ih

theorem MapStep.nodup (h : MapStep m model Q s t) (hnodup : s.registry.names.Nodup) :
    t.registry.names.Nodup := by
  cases h with
  | register e he => exact Registry.nodup_register hnodup
  | target hn hp ht hclaim =>
      rw [(Registry.claim_spec hclaim).1]
      exact Registry.nodup_register hnodup
  | inPlace hn hobject hclaim =>
      rw [(Registry.claim_spec hclaim).1]
      exact Registry.nodup_register hnodup
  | use hname hother => exact hnodup

theorem MapSteps.nodup (h : MapSteps m model Q s t) (hnodup : s.registry.names.Nodup) :
    t.registry.names.Nodup := by
  induction h with
  | refl => exact hnodup
  | tail _ hstep ih => exact hstep.nodup ih

/-- The models used are registered, all different, and none is the model itself. -/
structure Uses (model : String) (s : MapperState) : Prop where
  registered : ∀ d ∈ s.dependencies, d ∈ s.registry.names
  other : ∀ d ∈ s.dependencies, d ≠ model
  nodup : s.dependencies.Nodup

theorem MapStep.dependencies (h : MapStep m model Q s t) :
    t.dependencies = s.dependencies ∨ ∃ name, t.dependencies = addNew s.dependencies name ∧
      name ∈ t.registry.names ∧ name ≠ model := by
  cases h with
  | register e he => exact Or.inl rfl
  | target hn hp ht hclaim => exact Or.inl rfl
  | inPlace hn hobject hclaim => exact Or.inl rfl
  | use hname hother => exact Or.inr ⟨_, rfl, hname, hother⟩

theorem MapStep.uses (h : MapStep m model Q s t) (hs : Uses model s) : Uses model t := by
  have hgrown : ∀ d ∈ s.dependencies, d ∈ t.registry.names := by
    intro d hd
    exact h.extends.mem (hs.registered d hd)
  rcases h.dependencies with heq | ⟨name, heq, hname, hother⟩
  · refine ⟨?_, ?_, ?_⟩
    · rw [heq]
      exact hgrown
    · rw [heq]
      exact hs.other
    · rw [heq]
      exact hs.nodup
  · refine ⟨?_, ?_, ?_⟩
    · intro d hd
      rw [heq, mem_addNew] at hd
      rcases hd with hd | rfl
      · exact hgrown d hd
      · exact hname
    · intro d hd
      rw [heq, mem_addNew] at hd
      rcases hd with hd | rfl
      · exact hs.other d hd
      · exact hother
    · rw [heq]
      exact nodup_addNew name hs.nodup

theorem MapSteps.uses (h : MapSteps m model Q s t) (hs : Uses model s) : Uses model t := by
  induction h with
  | refl => exact hs
  | tail _ hstep ih => exact hstep.uses ih

end Steps

/-! ## Where models come from -/

section Origins

variable {m : Mapper} {model : String} {Q : Node → Prop} {s t : MapperState}

theorem isObject_of_isAbsent {n : Node} (h : n.isAbsent = true) : n.isObject = .ok false := by
  rcases n with ⟨document, trail, value⟩
  cases value with
  | null =>
      rw [Node.isObject, Node.settle_of_noLink rfl]
      rfl
  | _ => cases h

theorem isAbsent_of_isObject {n : Node} (h : n.isObject = .ok true) : n.isAbsent = false := by
  cases habsent : n.isAbsent with
  | false => rfl
  | true => cases h.symm.trans (isObject_of_isAbsent habsent)

theorem isObject_of_isModel {n : Node} (h : Schema.isModel n = .ok true) : n.isObject = .ok true := by
  obtain ⟨isObject, hobject, h⟩ := bind_eq_ok.mp h
  cases isObject with
  | false => cases pure_eq_ok.mp h
  | true => exact hobject

theorem isObject_of_pointer? {n : Node} {pointer : String}
    (h : n.pointer? = .ok (some pointer)) : n.isObject = .ok true := by
  obtain ⟨isObject, hobject, h⟩ := bind_eq_ok.mp h
  cases isObject with
  | true => exact hobject
  | false => cases pure_eq_ok.mp h

/-- The pointer of a reference is the text that stands under its key. -/
theorem reference_of_pointer? {n : Node} {pointer : String}
    (h : n.pointer? = .ok (some pointer)) :
    ∃ b, n.get "$ref" = .ok b ∧ b.opened = .ok (.str pointer) := by
  obtain ⟨isObject, -, h⟩ := bind_eq_ok.mp h
  split at h
  · obtain ⟨b, hget, h⟩ := bind_eq_ok.mp h
    obtain ⟨value, hvalue, h⟩ := bind_eq_ok.mp h
    split at h
    · obtain rfl := Option.some.inj (pure_eq_ok.mp h)
      exact ⟨b, hget, hvalue⟩
    · cases pure_eq_ok.mp h
  · cases pure_eq_ok.mp h

theorem find_eq_some {r : Resolver} {pointer : String} {n : Node}
    (h : r.find pointer = .ok (some n)) :
    r.locate pointer = .ok (some n) ∧ n.isAbsent = false := by
  unfold Resolver.find at h
  cases hfound : r.locate pointer with
  | error fault => simp [hfound, Except.map] at h
  | ok found =>
      simp only [hfound, Except.map, Except.ok.injEq, Option.filter_eq_some_iff] at h
      exact ⟨by rw [h.1], by simpa using h.2⟩

theorem find_of_locate {r : Resolver} {pointer : String} {n : Node}
    (h : r.locate pointer = .ok (some n)) (hthere : n.isAbsent = false) :
    r.find pointer = .ok (some n) := by
  rw [Resolver.find, h]
  simp [Except.map, Option.filter, hthere]

theorem isAbsent_of_find {pointer : String} {schema : Node}
    (h : m.resolver.find pointer = .ok (some schema)) : schema.isAbsent = false :=
  (find_eq_some h).2

/-- What mapping registered an entry for; a name claimed for a reference would be claimed again. -/
inductive Origin (m : Mapper) (Q : Node → Prop) (registry : Registry) (e : Entry) : Prop where
  | named (he : NamedEntry m Q e)
  | target {n t : Node} {pointer : String} (hn : Q n) (hp : n.pointer? = .ok (some pointer))
      (ht : m.resolver.find pointer = .ok (some t)) (hsource : e.source = "reference")
      (hschema : e.schema = some t)
      (hclaim : registry.claim (Naming.capitalize (Pointer.name pointer)) t "reference" =
        .ok (e.name, registry))
  | inPlace {n : Node} (hn : Q n) (hsource : e.source = "inline") (hschema : e.schema = some n)

theorem Origin.mono {r r' : Registry} {e : Entry} (h : Origin m Q r e)
    (hlater : Registry.Extends r r') : Origin m Q r' e := by
  cases h with
  | named he => exact .named he
  | target hn hp ht hsource hschema hclaim =>
      exact .target hn hp ht hsource hschema
        (Registry.claim_again (isAbsent_of_find ht) hclaim hlater)
  | inPlace hn hsource hschema => exact .inPlace hn hsource hschema

theorem NamedEntry.weaken {Q' : Node → Prop} {e : Entry} (h : NamedEntry m Q e)
    (hQ : ∀ n, Q n → Q' n) : NamedEntry m Q' e := by
  obtain ⟨name, hname, hby⟩ := h.name
  refine ⟨h.source, ⟨name, hname, hby.imp id ?_⟩, h.schema⟩
  rintro ⟨n, pointer, hn, hp, heq⟩
  exact ⟨n, pointer, hQ n hn, hp, heq⟩

theorem Origin.weaken {Q' : Node → Prop} {r : Registry} {e : Entry} (h : Origin m Q r e)
    (hQ : ∀ n, Q n → Q' n) : Origin m Q' r e := by
  cases h with
  | named he => exact .named (he.weaken hQ)
  | target hn hp ht hsource hschema hclaim =>
      exact .target (hQ _ hn) hp ht hsource hschema hclaim
  | inPlace hn hsource hschema => exact .inPlace (hQ _ hn) hsource hschema

theorem mem_entries_register {r : Registry} {e e' : Entry} (h : e' ∈ (r.register e).entries) :
    e' ∈ r.entries ∨ e' = e ∧ e.name ∉ r.names := by
  by_cases hmem : e.name ∈ r.names
  · rw [Registry.register_of_mem hmem] at h
    exact Or.inl h
  · rw [Registry.entries_register_of_notMem hmem] at h
    rcases List.mem_append.mp h with h | h
    · exact Or.inl h
    · exact Or.inr ⟨List.mem_singleton.mp h, hmem⟩

theorem MapStep.origin (h : MapStep m model Q s t) {e : Entry} (he : e ∈ t.registry.entries) :
    e ∈ s.registry.entries ∨ e.name ∉ s.registry.names ∧ Origin m Q t.registry e := by
  cases h with
  | register e' hnamed =>
      rcases mem_entries_register he with he | ⟨rfl, hnew⟩
      · exact Or.inl he
      · exact Or.inr ⟨hnew, .named hnamed⟩
  | @target name registry n target pointer hn hp ht hclaim =>
      have hregistry := (Registry.claim_spec hclaim).1
      have hthere := isAbsent_of_find ht
      have hagain := Registry.claim_again hthere hclaim (Registry.Extends.refl _)
      rw [show registry = _ from hregistry] at he
      rcases mem_entries_register he with he | ⟨rfl, hnew⟩
      · exact Or.inl he
      · refine Or.inr ⟨hnew, .target hn hp ht rfl ?_ hagain⟩
        simp [Registry.claimed, hthere]
  | @inPlace base name registry n hn hobject hclaim =>
      have hregistry := (Registry.claim_spec hclaim).1
      rw [show registry = _ from hregistry] at he
      rcases mem_entries_register he with he | ⟨rfl, hnew⟩
      · exact Or.inl he
      · refine Or.inr ⟨hnew, .inPlace hn rfl ?_⟩
        simp [Registry.claimed, isAbsent_of_isObject hobject]
  | use hname hother => exact Or.inl he

theorem MapSteps.origin (h : MapSteps m model Q s t) {e : Entry} (he : e ∈ t.registry.entries) :
    e ∈ s.registry.entries ∨ e.name ∉ s.registry.names ∧ Origin m Q t.registry e := by
  induction h with
  | refl => exact Or.inl he
  | tail hsteps hstep ih =>
      rcases hstep.origin he with he | ⟨hnew, horigin⟩
      · rcases ih he with he | ⟨hnew, horigin⟩
        · exact Or.inl he
        · exact Or.inr ⟨hnew, horigin.mono hstep.extends⟩
      · exact Or.inr ⟨fun hmem => hnew ((MapSteps.extends hsteps).mem hmem), horigin⟩

end Origins

/-! ## Mapping again -/

/-- The names that are not blocked. -/
def without (blocked names : List String) : List String :=
  names.filter (!blocked.contains ·)

theorem mem_without {blocked names : List String} {name : String} :
    name ∈ without blocked names ↔ name ∈ names ∧ name ∉ blocked := by
  simp [without]

theorem without_nil (names : List String) : without [] names = names := by
  simp [without]

theorem without_addNew_of_mem {blocked names : List String} {name : String} (h : name ∈ blocked) :
    without blocked (addNew names name) = without blocked names := by
  unfold addNew
  split
  · rfl
  · simp [without, h]

theorem without_addNew_of_notMem {blocked names : List String} {name : String}
    (h : name ∉ blocked) :
    without blocked (addNew names name) = addNew (without blocked names) name := by
  unfold addNew
  by_cases hmem : name ∈ names
  · rw [if_pos hmem, if_pos (mem_without.mpr ⟨hmem, h⟩)]
  · rw [if_neg hmem, if_neg (fun hw => hmem (mem_without.mp hw).1)]
    simp [without, h]

/-- Whenever `x` succeeds it has taken steps, and `y` succeeds on every later registry: it registers
nothing, and uses the same models but for the blocked ones. -/
def Replays (m : Mapper) (model : String) (Q : Node → Prop) (blocked : List String) {α β : Type}
    (x : Mapping α) (y : Mapping β) (R : α → β → Prop) : Prop :=
  ∀ s a t, Yields x s a t → MapSteps m model Q s t ∧
    ∀ registry, Registry.Extends t.registry registry →
      ∃ b, Yields y ⟨registry, without blocked s.dependencies⟩ b
        ⟨registry, without blocked t.dependencies⟩ ∧ R a b

section Replays

variable {m : Mapper} {model : String} {Q : Node → Prop} {blocked : List String}
variable {α β γ δ : Type} {R : α → β → Prop} {S : γ → δ → Prop}

theorem Replays.pure {a : α} {b : β} (h : R a b) :
    Replays m model Q blocked (pure a) (pure b) R := by
  intro s a' t hrun
  obtain ⟨rfl, rfl⟩ := yields_pure.mp hrun
  refine ⟨.refl, fun registry _ => ⟨b, yields_pure.mpr ⟨rfl, rfl⟩, h⟩⟩

theorem Replays.lift {e : Except Fault α} {R : α → α → Prop} (h : ∀ a, e = .ok a → R a a) :
    Replays m model Q blocked (liftM e) (liftM e) R := by
  intro s a t hrun
  obtain ⟨he, rfl⟩ := yields_lift.mp hrun
  exact ⟨.refl, fun registry _ => ⟨a, yields_lift.mpr ⟨he, rfl⟩, h a he⟩⟩

theorem Replays.throw {fault : Fault} {y : Mapping β} :
    Replays m model Q blocked (throw fault) y R :=
  fun _ _ _ hrun => absurd hrun yields_throw

theorem Replays.bind {x : Mapping α} {y : Mapping β} {f : α → Mapping γ} {g : β → Mapping δ}
    (h : Replays m model Q blocked x y R)
    (hf : ∀ a b, R a b → Replays m model Q blocked (f a) (g b) S) :
    Replays m model Q blocked (x >>= f) (y >>= g) S := by
  intro s c t hrun
  obtain ⟨a, u, hx, hfa⟩ := yields_bind.mp hrun
  obtain ⟨hsteps, hy⟩ := h s a u hx
  -- the second run of `x` must succeed for the steps of the whole, on the registry it leaves behind
  obtain ⟨b, -, hab⟩ := hy u.registry (Registry.Extends.refl _)
  have hmore := (hf a b hab u c t hfa).1
  refine ⟨hsteps.trans hmore, ?_⟩
  intro registry hlater
  obtain ⟨b, hyb, hab⟩ := hy registry (hmore.extends.trans hlater)
  obtain ⟨d, hgd, hcd⟩ := (hf a b hab u c t hfa).2 registry hlater
  exact ⟨d, yields_bind.mpr ⟨b, _, hyb, hgd⟩, hcd⟩

/-- A value that does not hang on the state is the same both times. -/
theorem Replays.bind_lift {e : Except Fault α} {f : α → Mapping γ} {g : α → Mapping δ}
    (hf : ∀ a, e = .ok a → Replays m model Q blocked (f a) (g a) S) :
    Replays m model Q blocked (liftM e >>= f) (liftM e >>= g) S := by
  refine (Replays.lift (R := fun a b => b = a ∧ e = .ok a) (fun a he => ⟨rfl, he⟩)).bind ?_
  rintro a b ⟨rfl, he⟩
  exact hf b he

theorem Replays.lift_bind {e : Except Fault α} {f : α → Mapping γ} {y : Mapping δ}
    (hf : ∀ a, e = .ok a → Replays m model Q blocked (f a) y S) :
    Replays m model Q blocked (liftM e >>= f) y S := by
  intro s c t hrun
  obtain ⟨a, u, hlift, hfa⟩ := yields_bind.mp hrun
  obtain ⟨he, rfl⟩ := yields_lift.mp hlift
  exact hf a he u c t hfa

theorem Replays.ite {c : Prop} [Decidable c] {x x' : Mapping α} {y y' : Mapping β}
    (h : c → Replays m model Q blocked x y R) (h' : ¬ c → Replays m model Q blocked x' y' R) :
    Replays m model Q blocked (if c then x else x') (if c then y else y') R := by
  split
  · next hc => exact h hc
  · next hc => exact h' hc

theorem Replays.mapM {ι : Type} {f : ι → Mapping α} {g : ι → Mapping β} {xs : List ι}
    (h : ∀ x ∈ xs, Replays m model Q blocked (f x) (g x) R) :
    Replays m model Q blocked (xs.mapM f) (xs.mapM g) (List.Forall₂ R) := by
  induction xs with
  | nil =>
      simp only [List.mapM_nil]
      exact Replays.pure .nil
  | cons x xs ih =>
      simp only [List.mapM_cons]
      refine (h x List.mem_cons_self).bind fun a b hab => ?_
      refine (ih fun x hx => h x (List.mem_cons_of_mem _ hx)).bind fun as bs habs => ?_
      exact Replays.pure (.cons hab habs)

end Replays

end ApiScaffold.Mapper
