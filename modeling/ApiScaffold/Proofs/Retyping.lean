import ApiScaffold.Proofs.Counterparts
import ApiScaffold.Proofs.Claims
import ApiScaffold.Proofs.Equality

set_option autoImplicit false

/-! # Types in a reordered document

Pointers lead to twins, twins are schemas of the same kind, and comparing twins finds the same as
comparing what they are twins of. So a body or a parameter has the type of its twin
(`Mapper.Twin.mapBody`, `EndpointCompiler.parameterType_twin`): of a schema nothing is read in the
order of its fields. -/

namespace ApiScaffold

variable {sure : Prop} {free : List ApiScaffold.Step → Prop}

/-! ## References -/

/-- Values that are the same up to order, wherever they stand. -/
def Json.Restated (free : List ApiScaffold.Step → Prop) (v w : Json) : Prop :=
  ∃ place, Json.Reordered free place v w

theorem Json.Restated.eq_iff {u v w : Json} (h : Json.Restated free v w)
    (hu : u.isHashable = true) : w = u ↔ v = u :=
  h.elim fun _ hvalue => hvalue.eq_iff hu

namespace Node

variable {n n' a a' b b' : Node}

theorem Twin.pointer? (h : Twin free n n') : Follows sure Eq n.pointer? n'.pointer? := by
  refine h.isObject.bind_eq fun _ => follows_ite Iff.rfl (fun _ => ?_) fun _ => follows_pure rfl
  refine (h.get "$ref").bind fun a a' ha => ha.opened.bind fun v w ⟨_, hvalue⟩ => ?_
  rcases hvalue.shapes with ⟨-, rfl⟩ | ⟨_, _, rfl, rfl, -⟩ | ⟨_, _, rfl, rfl, -⟩
  · exact follows_refl _
  · exact follows_pure rfl
  · exact follows_pure rfl

theorem Twin.isReference (h : Twin free n n') : Follows sure Eq n.isReference n'.isReference :=
  h.pointer?.map fun _ _ hpointer => congrArg Option.isSome hpointer

theorem Twin.pointed (h : Twin free n n') (segment : String) :
    Follows sure (Option.Rel (Twin free)) (n.pointed segment) (n'.pointed segment) := by
  unfold Node.pointed
  rcases h.value.shapes with ⟨hscalar, heq⟩ | ⟨xs, ys, hv, hw, hall⟩ | ⟨fs, gs, hv, hw, hall⟩
  · rw [heq]
    cases hv : n.value with
    | arr items => cases hv ▸ hscalar
    | obj fields => cases hv ▸ hscalar
    | _ => exact follows_ok .none
  · rw [hv, hw]
    refine follows_ite Iff.rfl (fun _ => follows_ok .none) fun _ => ?_
    split
    · exact follows_error
    · exact follows_ok (h.item hall _)
  · rw [hv, hw]
    exact follows_ok (h.field hall segment)

theorem Twin.descend (h : Twin free n n') (segments : List String) :
    Follows sure (Option.Rel (Twin free)) (n.descend segments) (n'.descend segments) := by
  induction segments generalizing n n' with
  | nil => exact follows_ok (.some h)
  | cons segment segments ih =>
      refine (h.pointed segment).bind fun a? a'? hnext => ?_
      cases hnext with
      | none => exact follows_pure .none
      | some ha => exact ih ha

end Node

/-- Where chains of references lead that correspond. -/
inductive ChainEnd.Twin (free : List Step → Prop) : ChainEnd → ChainEnd → Prop where
  | node {n n' : Node} (h : Node.Twin free n n') : Twin free (.node n) (.node n')
  | lost (pointer : String) : Twin free (.lost pointer) (.lost pointer)

namespace Resolver

variable {r r' : Resolver} {n n' : Node}

theorem locate_twin (hr : r.document.Reordered free r'.document) (pointer : String) :
    Follows sure (Option.Rel (Node.Twin free)) (r.locate pointer) (r'.locate pointer) := by
  unfold locate
  split
  · exact (Node.twin_top hr).descend _
  · exact follows_ok .none

theorem chase_twin (hr : r.document.Reordered free r'.document) (fuel : Nat) (seen : List String)
    (h : Node.Twin free n n') :
    Follows sure (ChainEnd.Twin free) (r.chase fuel seen n) (r'.chase fuel seen n') := by
  induction fuel generalizing seen n n' with
  | zero => exact follows_error
  | succ fuel ih =>
      refine h.pointer?.bind_eq fun pointer? => ?_
      cases pointer? with
      | none => exact follows_pure (.node h)
      | some pointer =>
          refine follows_ite Iff.rfl (fun _ => follows_pure (.lost pointer)) fun _ => ?_
          refine (locate_twin hr pointer).bind fun a? a'? hnext => ?_
          cases hnext with
          | none => exact follows_pure (.lost pointer)
          | some ha => exact ih _ ha

theorem derefIfAny_twin (hr : r.document.Reordered free r'.document) (h : Node.Twin free n n') :
    Follows sure (Option.Rel (Node.Twin free)) (r.derefIfAny n) (r'.derefIfAny n') := by
  rw [derefIfAny, derefIfAny, chainEnd, chainEnd, hr.root.size]
  refine (chase_twin hr _ [] h).bind fun x y hxy => ?_
  cases hxy with
  | node ha => exact follows_pure (.some ha)
  | lost pointer => exact follows_pure .none

theorem objectAt_twin (hr : r.document.Reordered free r'.document) (h : Node.Twin free n n') :
    Follows sure (Option.Rel (Node.Twin free)) (r.objectAt n) (r'.objectAt n') := by
  refine (derefIfAny_twin hr h).bind fun a? a'? htarget => ?_
  cases htarget with
  | none => exact follows_pure .none
  | some ha =>
      exact ha.isObject.bind_eq fun _ => follows_ite Iff.rfl (fun _ => follows_pure (.some ha))
        fun _ => follows_pure .none

end Resolver

/-! ## Kinds of schemas -/

namespace Schema

open Node (Twin)

variable {n n' : Node}

theorem firstType_twin {types types' : List Node} (h : List.Forall₂ (Twin free) types types') :
    Follows sure (Json.Restated free) (firstType types) (firstType types') := by
  induction h with
  | nil => exact follows_ok ⟨[], .scalar rfl⟩
  | cons hfirst _ ih =>
      refine hfirst.opened.bind fun v w hvalue => ?_
      exact follows_ite (Json.Restated.eq_iff hvalue rfl) (fun _ => ih) fun _ => follows_pure hvalue

theorem typeOf_twin (h : Twin free n n') :
    Follows sure (Json.Restated free) (typeOf n) (typeOf n') := by
  refine h.isObject.bind_eq fun _ => follows_ite Iff.rfl (fun _ => ?_)
    fun _ => follows_pure ⟨[], .scalar rfl⟩
  refine (h.get "type").bind fun a a' ha => ha.settle.bind fun b b' hb => ?_
  rcases hb.value.shapes with ⟨hscalar, heq⟩ | ⟨xs, ys, hv, hw, hall⟩ | ⟨fs, gs, hv, hw, hall⟩
  · rw [heq]
    cases hv : b.value with
    | arr items => cases hv ▸ hscalar
    | obj fields => cases hv ▸ hscalar
    | _ => exact follows_pure ⟨[], .scalar rfl⟩
  · rw [hv, hw]
    exact firstType_twin (hb.itemNodes hall)
  · have hvalue := hb.value
    rw [hv, hw] at hvalue ⊢
    exact follows_pure ⟨b.trail, hvalue⟩

theorem isInlineObject_twin (h : Twin free n n') :
    Follows sure Eq (isInlineObject n) (isInlineObject n') := by
  refine h.isObject.bind_eq fun _ => follows_ite Iff.rfl (fun _ => follows_pure rfl) fun _ => ?_
  refine h.isReference.bind_eq fun _ => follows_ite Iff.rfl (fun _ => follows_pure rfl) fun _ => ?_
  refine (h.get "properties").bind fun a a' ha => ha.truthy.bind_eq fun _ => ?_
  refine follows_ite Iff.rfl (fun _ => follows_pure rfl) fun _ => ?_
  refine (typeOf_twin h).bind fun v w hvalue => follows_pure ?_
  rw [decide_eq_decide.mpr (hvalue.eq_iff (u := .null) rfl).symm,
    decide_eq_decide.mpr (hvalue.eq_iff (u := .str "object") rfl).symm]

theorem isStringEnum_twin (h : Twin free n n') :
    Follows sure Eq (isStringEnum n) (isStringEnum n') := by
  refine (typeOf_twin h).bind fun v w hvalue => ?_
  refine follows_ite (hvalue.eq_iff rfl) (fun _ => ?_) fun _ => follows_pure rfl
  exact (h.get "enum").bind fun a a' ha => ha.truthy

theorem isModel_twin (h : Twin free n n') : Follows sure Eq (isModel n) (isModel n') := by
  refine h.isObject.bind_eq fun _ => follows_ite Iff.rfl (fun _ => follows_pure rfl) fun _ => ?_
  refine h.isReference.bind_eq fun _ => follows_ite Iff.rfl (fun _ => follows_pure rfl) fun _ => ?_
  refine (typeOf_twin h).bind fun v w hvalue => ?_
  refine follows_ite (hvalue.eq_iff rfl) (fun _ => follows_pure rfl) fun _ => ?_
  exact (h.has "properties").bind_eq fun _ =>
    follows_ite Iff.rfl (fun _ => follows_pure rfl) fun _ => h.has "allOf"

/-- The named schemas of twins are twins. -/
theorem components_twin (h : Twin free n n') :
    Follows sure (Twin free) (components n) (components n') := by
  refine (h.get "components").bind fun a a' ha => ha.truthy.bind_eq fun _ => ?_
  have hrest : ∀ b b', Twin free b b' → Follows sure (Twin free)
      (do if ← b.truthy then return b else return ⟨b.document, b.trail, .obj []⟩)
      (do if ← b'.truthy then return b' else return ⟨b'.document, b'.trail, .obj []⟩) := by
    intro b b' hb
    refine hb.truthy.bind_eq fun _ => follows_ite Iff.rfl (fun _ => follows_pure hb) fun _ => ?_
    exact follows_pure ⟨hb.document, hb.trail, Json.reordered_self rfl⟩
  exact follows_ite Iff.rfl (fun _ => (ha.get "schemas").bind hrest)
    fun _ => (follows_pure (ha.part (.scalar rfl))).bind hrest

end Schema

/-! ## Equality -/

theorem exists_of_allM_eq_ok_false {α : Type} {p : α → Except Fault Bool} {xs : List α}
    (h : xs.allM p = .ok false) : ∃ x ∈ xs, p x = .ok false := by
  induction xs with
  | nil => cases pure_eq_ok.mp h
  | cons x xs ih =>
      obtain ⟨first, hfirst, h⟩ := bind_eq_ok.mp h
      cases first with
      | false => exact ⟨x, List.mem_cons_self, hfirst⟩
      | true =>
          obtain ⟨y, hy, hfalse⟩ := ih h
          exact ⟨y, List.mem_cons_of_mem _ hy, hfalse⟩

/-- Two lists of comparisons that correspond say the same, where they come to an end. In which order
they are made tells whether they do. -/
theorem follows_allM {α β : Type} {R : α → β → Prop} {p : α → Except Fault Bool}
    {q : β → Except Fault Bool} {xs : List α} {ys : List β} (h : Regrouped R xs ys)
    (hpq : ∀ a b, R a b → Follows False Eq (p a) (q b)) :
    Follows False Eq (xs.allM p) (ys.allM q) := by
  intro v hv
  refine ⟨False.elim, fun w hw => ?_⟩
  cases v with
  | true =>
      cases w with
      | true => rfl
      | false =>
          obtain ⟨y, hy, hfalse⟩ := exists_of_allM_eq_ok_false hw
          obtain ⟨x, hx, hxy⟩ := h.exists_left y hy
          exact (hpq x y hxy true (allM_eq_ok_true hv x hx)).2 false hfalse
  | false =>
      cases w with
      | false => rfl
      | true =>
          obtain ⟨x, hx, hfalse⟩ := exists_of_allM_eq_ok_false hv
          obtain ⟨y, hy, hxy⟩ := h.exists_right x hx
          exact (hpq x y hxy false hfalse).2 true (allM_eq_ok_true hw y hy)

theorem forall₂_zip {α β γ δ : Type} {R : α → β → Prop} {S : γ → δ → Prop} {xs : List α}
    {xs' : List β} {ys : List γ} {ys' : List δ} (h : List.Forall₂ R xs xs')
    (h' : List.Forall₂ S ys ys') :
    List.Forall₂ (fun p q => R p.1 q.1 ∧ S p.2 q.2) (xs.zip ys) (xs'.zip ys') := by
  induction h generalizing ys ys' with
  | nil => exact .nil
  | cons hfirst _ ih =>
      cases h' with
      | nil => exact .nil
      | cons hfirst' hrest => exact .cons ⟨hfirst, hfirst'⟩ (ih hrest)

namespace Json

variable {place place' : List ApiScaffold.Step} {v v' w w' : Json}

theorem Reordered.sameScalar (h : Reordered free place v v') (h' : Reordered free place' w w') :
    v'.sameScalar w' = v.sameScalar w := by
  have hleft : ∀ u, v'.sameScalar u = v.sameScalar u := by
    intro u
    rcases h.shapes with ⟨-, rfl⟩ | ⟨_, _, rfl, rfl, -⟩ | ⟨_, _, rfl, rfl, -⟩
    · rfl
    · cases u <;> simp [Json.sameScalar, asInt?]
    · cases u <;> simp [Json.sameScalar, asInt?]
  rw [hleft]
  rcases h'.shapes with ⟨-, rfl⟩ | ⟨_, _, rfl, rfl, -⟩ | ⟨_, _, rfl, rfl, -⟩
  · rfl
  · rw [sameScalar_ne_arr, sameScalar_ne_arr]
  · rw [sameScalar_ne_obj, sameScalar_ne_obj]

theorem Reordered.same (h : Reordered free place v v') (h' : Reordered free place' w w') :
    v'.same w' = v.same w :=
  (h.equalAlike w').1.trans (h'.equalAlike v).2

theorem Reordered.exists_arr (h : Reordered free place v v') {xs : List Json}
    (hv : v' = .arr xs) : ∃ ys, v = .arr ys := by
  rcases h.shapes with ⟨-, rfl⟩ | ⟨ys, _, rfl, -⟩ | ⟨_, _, -, rfl, -⟩
  · exact ⟨xs, hv⟩
  · exact ⟨ys, rfl⟩
  · cases hv

theorem Reordered.exists_obj (h : Reordered free place v v') {fs : Fields}
    (hv : v' = .obj fs) : ∃ gs, v = .obj gs := by
  rcases h.shapes with ⟨-, rfl⟩ | ⟨_, _, -, rfl, -⟩ | ⟨gs, _, rfl, -⟩
  · exact ⟨fs, hv⟩
  · cases hv
  · exact ⟨gs, rfl⟩

end Json

namespace Node

variable {n n' a a' b b' : Node}

/-- Where comparing twins and comparing what they are twins of come to an end, both say the same. -/
theorem Twin.equalWithin (ha : Twin free a a') (hb : Twin free b b') (fuel : Nat) :
    Follows False Eq (equalWithin fuel a b) (equalWithin fuel a' b') := by
  induction fuel generalizing a a' b b' with
  | zero => exact follows_error
  | succ fuel ih =>
      refine ha.settle.bind fun left left' hleft => hb.settle.bind fun right right' hright => ?_
      split
      · next xs ys hxs hys =>
          obtain ⟨xs', hxs', hitems⟩ := hleft.list hxs
          obtain ⟨ys', hys', hitems'⟩ := hright.list hys
          rw [hxs', hys']
          refine follows_ite (by rw [hitems.length, hitems'.length]) (fun _ => follows_pure rfl)
            fun _ => ?_
          have hzip := forall₂_zip (hleft.itemNodes hitems) (hright.itemNodes hitems')
          exact follows_allM (.of_forall₂ hzip) fun p p' hp => ih hp.1 hp.2
      · next fs gs hfs hgs =>
          obtain ⟨fs', hfs', hfields⟩ := hleft.object hfs
          obtain ⟨gs', hgs', hfields'⟩ := hright.object hgs
          rw [hfs', hgs']
          refine follows_ite (by rw [hfields.length, hfields'.length]) (fun _ => follows_pure rfl)
            fun _ => follows_allM (hleft.fieldsRegrouped hfields) ?_
          rintro ⟨key, m⟩ ⟨key', m'⟩ ⟨rfl, hm⟩
          rcases rel_cases (hfields'.lookup key') with ⟨hy, hy'⟩ | ⟨y, y', hy, hy', hother⟩
          · rw [hy, hy']
            exact follows_pure rfl
          · rw [hy, hy']
            exact ih hm (hright.part hother)
      · next hlists hobjects =>
          split
          · next xs ys hxs hys =>
              obtain ⟨_, hx⟩ := hleft.value.exists_arr hxs
              obtain ⟨_, hy⟩ := hright.value.exists_arr hys
              exact absurd hy (hlists _ _ hx)
          · next fs gs hfs hgs =>
              obtain ⟨_, hf⟩ := hleft.value.exists_obj hfs
              obtain ⟨_, hg⟩ := hright.value.exists_obj hgs
              exact absurd hg (hobjects _ _ hf)
          · exact follows_pure (hleft.value.sameScalar hright.value).symm

theorem Twin.unfoldWithin (h : Twin free n n') (fuel : Nat) :
    Follows sure (fun _ _ => True) (unfoldWithin fuel n) (unfoldWithin fuel n') := by
  induction fuel generalizing n n' with
  | zero => exact follows_error
  | succ fuel ih =>
      refine h.settle.bind fun here here' hhere => ?_
      rcases hhere.value.shapes with
        ⟨hscalar, heq⟩ | ⟨xs, ys, hv, hw, hall⟩ | ⟨fs, gs, hv, hw, hall⟩
      · rw [heq]
        cases hv : here.value with
        | arr items => cases hv ▸ hscalar
        | obj fields => cases hv ▸ hscalar
        | _ => exact follows_pure trivial
      · rw [hv, hw]
        exact (follows_mapM (hhere.itemNodes hall) fun _ _ hn => ih hn).bind
          fun _ _ _ => follows_pure trivial
      · rw [hv, hw]
        refine (follows_mapM_regrouped (S := fun _ _ => True) (hhere.fieldsRegrouped hall)
          fun f g hfg => ?_).bind fun _ _ _ => follows_pure trivial
        exact (ih hfg.2).bind fun _ _ _ => follows_pure trivial

/-- What stands for a finite value has a twin that does. -/
theorem Twin.readable (h : Twin free n n') (hreadable : Readable n) : Readable n' := by
  obtain ⟨v, hv⟩ := hreadable
  have hunfolded : Follows True (fun _ _ => True) n.unfolded n'.unfolded := by
    rw [Node.unfolded, Node.unfolded, h.document.linked, h.document.root.size]
    exact follows_ite Iff.rfl (fun _ => h.unfoldWithin _) fun _ => follows_ok trivial
  exact (hunfolded v hv).1 trivial

/-- Twins are equal to each other just when what they are twins of are. Where links go round,
comparing may come upon that before it comes upon a difference, or after. -/
theorem Twin.equal (ha : Twin free a a') (hb : Twin free b b')
    (hreadable : sure → Readable a ∧ Readable b) :
    Follows sure Eq (a.equal b) (a'.equal b') := by
  have hsame : ∀ v w, a.equal b = .ok v → a'.equal b' = .ok w → v = w := by
    rw [Node.equal, Node.equal, ha.document.linked, hb.document.linked, ha.document.root.size,
      hb.document.root.size]
    split
    · exact fun v w hv hw => (ha.equalWithin hb _ v hv).2 w hw
    · rw [ha.value.same hb.value]
      intro v w hv hw
      exact (pure_eq_ok.mp hv).symm.trans (pure_eq_ok.mp hw)
  refine fun v hv => ⟨fun hsure => ?_, fun w hw => hsame v w hv hw⟩
  obtain ⟨hleft, hright⟩ := hreadable hsure
  obtain ⟨w, hw, -⟩ := equal_decides (ha.readable hleft) (hb.readable hright)
  exact ⟨w, hw⟩

end Node

/-! ## Bodies -/

/-- Mappers that look things up in reordered documents. -/
structure Mapper.Twin (free : List Step → Prop) (m m' : Mapper) : Prop where
  document : m.resolver.document.Reordered free m'.resolver.document
  classOf : ∀ schema, m'.names.classOf schema = m.names.classOf schema

namespace Mapper

variable {m m' : Mapper} {n n' : Node}

theorem bodyWithin_twin (hm : Twin free m m') (fuel : Nat) (following : List String)
    (h : Node.Twin free n n') :
    Follows sure Eq (m.bodyWithin fuel following n) (m'.bodyWithin fuel following n') := by
  induction fuel generalizing following n n' with
  | zero => exact follows_throw
  | succ fuel ih =>
      refine h.isObject.bind_eq fun _ => follows_ite Iff.rfl (fun _ => follows_pure rfl) fun _ => ?_
      refine h.pointer?.bind_eq fun pointer? => ?_
      cases pointer? with
      | some pointer =>
          refine (Resolver.locate_twin hm.document pointer).bind fun a? a'? htarget => ?_
          cases htarget with
          | none => exact follows_pure rfl
          | some ha =>
              refine (Schema.isStringEnum_twin ha).bind_eq fun _ =>
                follows_ite Iff.rfl (fun _ => follows_pure rfl) fun _ => ?_
              refine (Schema.isModel_twin ha).bind_eq fun _ => follows_ite Iff.rfl
                (fun _ => follows_ite Iff.rfl (fun _ => follows_pure rfl) fun _ => ih _ ha)
                fun _ => follows_ite Iff.rfl (fun _ => follows_pure ?_) fun _ => follows_pure rfl
              rw [hm.classOf]
      | none =>
          refine (Schema.typeOf_twin h).bind fun v w hvalue => ?_
          refine follows_ite (hvalue.eq_iff rfl) (fun _ => ?_) fun _ => ?_
          · refine (h.get "items").bind fun a a' ha => ?_
            refine ha.isObject.bind_eq fun _ =>
              follows_ite Iff.rfl (fun _ => follows_pure rfl) fun _ => ?_
            refine (Schema.isInlineObject_twin ha).bind_eq fun _ =>
              follows_ite Iff.rfl (fun _ => follows_pure rfl) fun _ => ?_
            exact (ih following ha).bind_eq fun _ => follows_pure rfl
          · obtain ⟨_, hvalue⟩ := hvalue
            rcases hvalue.shapes with ⟨-, rfl⟩ | ⟨_, _, rfl, rfl, -⟩ | ⟨_, _, rfl, rfl, -⟩
            · exact follows_refl _
            · exact follows_throw
            · exact follows_throw

/-- A body has the type of its twin. -/
theorem Twin.mapBody (hm : Twin free m m') (h : Node.Twin free n n') :
    Follows sure Eq (m.mapBody n) (m'.mapBody n') := by
  have hdepth : m'.depth n' = m.depth n := by
    rw [depth, depth, hm.document.root.size, h.document.root.size, h.value.size]
  rw [Mapper.mapBody, Mapper.mapBody, hdepth]
  exact bodyWithin_twin hm _ _ h

end Mapper

/-! ## Parts of operations -/

namespace EndpointCompiler

open Node (Twin)

variable {r r' : Resolver} {schema? schema?' : Option Node}

theorem parameterTypeWithin_twin (hr : r.document.Reordered free r'.document) (fuel : Nat)
    (h : Option.Rel (Twin free) schema? schema?') :
    Follows sure Eq (parameterTypeWithin r fuel schema?)
      (parameterTypeWithin r' fuel schema?') := by
  induction fuel generalizing schema? schema?' with
  | zero => exact follows_error
  | succ fuel ih =>
      cases h with
      | none => exact follows_ok rfl
      | @some n n' h =>
          refine h.isObject.bind_eq fun _ =>
            follows_ite Iff.rfl (fun _ => follows_pure rfl) fun _ => ?_
          refine (Schema.typeOf_twin h).bind fun v w ⟨_, hvalue⟩ => ?_
          rcases hvalue.shapes with ⟨-, rfl⟩ | ⟨_, _, rfl, rfl, -⟩ | ⟨_, _, rfl, rfl, -⟩
          · split
            · exact follows_pure rfl
            · refine (h.get "items").bind fun a a' ha => ?_
              refine (Resolver.derefIfAny_twin hr ha).bind fun b? b'? hb => ?_
              cases hb with
              | none => exact follows_pure rfl
              | some hb =>
                  refine follows_ite (by rw [hb.isAbsent]) (fun _ => follows_pure rfl) fun _ => ?_
                  exact (ih (.some hb)).bind_eq fun _ => follows_pure rfl
            · exact follows_pure rfl
            · exact follows_pure rfl
            · exact follows_pure rfl
            · exact follows_pure rfl
          · exact follows_pure rfl
          · exact follows_pure rfl

/-- A parameter has the type of its twin. -/
theorem parameterType_twin (hr : r.document.Reordered free r'.document)
    (h : Option.Rel (Twin free) schema? schema?') :
    Follows sure Eq (parameterType r schema?) (parameterType r' schema?') := by
  have hreach : (schema?'.map fun s => s.document.root.size + s.value.size) =
      schema?.map fun s => s.document.root.size + s.value.size := by
    cases h with
    | none => rfl
    | some h => rw [Option.map_some, Option.map_some, h.document.root.size, h.value.size]
  rw [parameterType, parameterType, hreach, hr.root.size]
  exact parameterTypeWithin_twin hr _ h

end EndpointCompiler

end ApiScaffold
