import ApiScaffold.Proofs.Links
import ApiScaffold.Proofs.References
import ApiScaffold.Proofs.WrittenPointers

set_option autoImplicit false

/-! # What resolving gives

A pointer leads to a node of the document or nowhere, with one exception: a segment of digits asks a
list for a place also where some digit has no value, and then there is no telling which place is
meant (`Node.Misreads`). Resolving stops there with a fault that is no complaint about the pointer
(`Resolver.resolve_outcome`).

References are followed one after the other (`Resolver.ComesTo`). From every node that comes to an
end at a node that is no reference, breaks off at a pointer that does not resolve, or goes on for
ever. Looking for the end gives up at a pointer that was followed before, and that is right: where a
pointer is followed twice, what came behind it comes again (`goesOn_of_again`). So the three cases
are told apart whatever the chain, and wherever it is entered (`Resolver.deref_outcome`). -/

namespace ApiScaffold

/-! ## Digits without a value -/

namespace Text

variable {text : List Char}

/-- Digits are read one after the other as long as each of them has a value. -/
theorem foldlM_digits_eq_none_iff {n : Nat} :
    text.foldlM (fun n c => (digitValue? c).map (10 * n + ·)) n = none ↔
      ∃ c ∈ text, digitValue? c = none := by
  induction text generalizing n with
  | nil => simp
  | cons c text ih =>
      rw [List.foldlM_cons]
      cases hc : digitValue? c with
      | none => simp [hc]
      | some d => simpa [hc] using ih

theorem natural?_eq_none_iff (h : text ≠ []) :
    natural? text = none ↔ ∃ c ∈ text, digitValue? c = none := by
  cases text with
  | nil => exact absurd rfl h
  | cons c text => exact foldlM_digits_eq_none_iff

end Text

/-! ## Walking along segments -/

namespace Node

variable {n b : Node} {d : Document} {segment : String} {segments : List String} {fault : Fault}

/-- A node is part of a document when steps from the root lead to it. -/
def IsPartOf (n : Node) (d : Document) : Prop :=
  ∃ steps, d.root.along? steps = some n.value ∧ n = ⟨d, steps.reverse, n.value⟩

theorem isPartOf_top (d : Document) : d.top.IsPartOf d := ⟨[], rfl, rfl⟩

/-- A step from a part of a document leads to another part. -/
theorem IsPartOf.part (h : n.IsPartOf d) {step : Step} {u : Json}
    (hu : n.value.enter? step = some u) : (n.part step u).IsPartOf d := by
  obtain ⟨steps, hsteps, hn⟩ := h
  refine ⟨steps ++ [step], ?_, ?_⟩
  · rw [Json.along?, List.foldlM_append]
    exact Option.bind_eq_some_iff.mpr ⟨n.value, hsteps, by rw [List.foldlM_cons, hu]; rfl⟩
  · rw [hn, List.reverse_append]
    rfl

theorem IsPartOf.pointed (h : n.IsPartOf d) (hb : n.pointed segment = .ok (some b)) :
    b.IsPartOf d := by
  rcases pointed_eq_some hb with ⟨items, i, u, hitems, -, hu, rfl⟩ | ⟨fields, u, hfields, hu, rfl⟩
  · exact h.part (by rw [hitems]; exact hu)
  · exact h.part (by rw [hfields]; exact hu)

theorem IsPartOf.descend (h : n.IsPartOf d) (hb : n.descend segments = .ok (some b)) :
    b.IsPartOf d := by
  induction segments generalizing n with
  | nil =>
      cases hb
      exact h
  | cons segment segments ih =>
      obtain ⟨next, hnext, hb⟩ := descend_cons_eq_some hb
      exact ih (h.pointed hnext) hb

/-- A list is asked for a place by digits of which one has no value. -/
structure Misreads (n : Node) (segment : String) : Prop where
  list : ∃ items, n.value = .arr items
  digits : Text.allDigits segment.toList = true
  valueless : ∃ c ∈ segment.toList, Text.digitValue? c = none

theorem pointed_eq_error_iff :
    n.pointed segment = .error fault ↔ fault = .notANumeral ∧ n.Misreads segment := by
  constructor
  · intro h
    unfold pointed at h
    split at h
    · next items hitems =>
        split at h
        · cases h
        · next hdigits =>
            have hdigits : Text.allDigits segment.toList = true := by simpa using hdigits
            have hne : segment.toList ≠ [] := by
              intro hnil
              rw [hnil] at hdigits
              cases hdigits
            split at h
            · next hnone =>
                cases h
                exact ⟨rfl, ⟨items, hitems⟩, hdigits, (Text.natural?_eq_none_iff hne).mp hnone⟩
            · cases h
    · cases h
    · cases h
  · rintro ⟨rfl, ⟨items, hitems⟩, hdigits, c, hc, hvalue⟩
    have hnone : Text.natural? segment.toList = none :=
      (Text.natural?_eq_none_iff (List.ne_nil_of_mem hc)).mpr ⟨c, hc, hvalue⟩
    simp [pointed, hitems, hdigits, hnone]

/-- A walk stops with a fault just where a list is misread on the way. -/
theorem descend_eq_error_iff :
    n.descend segments = .error fault ↔
      fault = .notANumeral ∧ ∃ before segment after m, segments = before ++ segment :: after ∧
        n.descend before = .ok (some m) ∧ m.Misreads segment := by
  induction segments generalizing n with
  | nil => simp [descend]
  | cons segment segments ih =>
      rw [descend, bind_eq_error, pointed_eq_error_iff]
      constructor
      · rintro (⟨rfl, hmisread⟩ | ⟨next?, hnext, h⟩)
        · exact ⟨rfl, [], segment, segments, n, rfl, rfl, hmisread⟩
        · cases next? with
          | none => cases h
          | some next =>
              obtain ⟨rfl, before, last, after, m, rfl, hm, hmisread⟩ := ih.mp h
              exact ⟨rfl, segment :: before, last, after, m, rfl,
                bind_eq_ok.mpr ⟨some next, hnext, hm⟩, hmisread⟩
      · rintro ⟨rfl, before, last, after, m, hsplit, hm, hmisread⟩
        cases before with
        | nil =>
            cases hsplit
            cases hm
            exact Or.inl ⟨rfl, hmisread⟩
        | cons first before =>
            cases hsplit
            obtain ⟨next, hnext, hm⟩ := descend_cons_eq_some hm
            exact Or.inr ⟨some next, hnext, ih.mpr ⟨rfl, before, last, after, m, rfl, hm, hmisread⟩⟩

end Node

/-- In a document as it is written, the pointer of a reference is the text under its key. -/
theorem Node.Plain.pointer?_eq {n : Node} (h : n.Plain) :
    n.pointer? = .ok (referenceText? n.value) := by
  obtain ⟨document, trail, value⟩ := n
  have hobject : isObject ⟨document, trail, value⟩ = _ := ok_bind (settle_of_plain h)
  rw [pointer?, hobject]
  cases value with
  | obj fields =>
      let ref :=
        part ⟨document, trail, .obj fields⟩ (.key "$ref") ((fields.lookup "$ref").getD .null)
      have hget : get ⟨document, trail, .obj fields⟩ "$ref" = .ok ref := ok_bind (settle_of_plain h)
      have hopened : ref.opened = .ok ref.value := by
        rw [opened, settle_of_plain (n := ref) h]
        rfl
      change (get _ "$ref" >>= fun ref => ref.opened >>= _) = _
      rw [ok_bind hget, ok_bind hopened]
      simp only [referenceText?, ref, part]
      cases fields.lookup "$ref" with
      | none => rfl
      | some u => cases u <;> rfl
  | _ => rfl

/-! ## One pointer -/

namespace Resolver

open Node (Plain closed_plain)

variable {r : Resolver} {n m b next u x : Node} {pointer : String} {seen : List String}
  {fault : Fault} {fuel : Nat}

/-- The way along a pointer comes to a list that is misread. -/
def Misreads (r : Resolver) (pointer : String) : Prop :=
  ∃ before segment after n, Pointer.segments? pointer = some (before ++ segment :: after) ∧
    r.document.top.descend before = .ok (some n) ∧ n.Misreads segment

theorem locate_eq_error_iff :
    r.locate pointer = .error fault ↔ fault = .notANumeral ∧ r.Misreads pointer := by
  unfold locate Misreads
  split
  · next segments hsegments =>
      rw [Node.descend_eq_error_iff, hsegments]
      simp only [Option.some.injEq]
  · next hnone => simp [hnone]

theorem resolve_eq_error_iff :
    r.resolve pointer = .error fault ↔
      fault = .notANumeral ∧ r.Misreads pointer ∨
        fault = r.unresolved pointer ∧ r.locate pointer = .ok none := by
  rw [resolve, bind_eq_error, locate_eq_error_iff]
  refine or_congr Iff.rfl ⟨?_, ?_⟩
  · rintro ⟨found, hfound, h⟩
    cases found with
    | none =>
        cases h
        exact ⟨rfl, hfound⟩
    | some n => cases h
  · rintro ⟨rfl, hnone⟩
    exact ⟨none, hnone, rfl⟩

theorem isPartOf_of_locate (h : r.locate pointer = .ok (some n)) : n.IsPartOf r.document := by
  unfold locate at h
  split at h
  · exact (Node.isPartOf_top r.document).descend h
  · cases h

/-- Resolving a pointer gives a node of the document or a complaint about this pointer, unless the
pointer leads to a list that is misread. Looking for a node, null counts as none. -/
theorem resolve_outcome (r : Resolver) (pointer : String) :
    r.Misreads pointer ∧ r.resolve pointer = .error .notANumeral ∧
        r.find pointer = .error .notANumeral ∨
      ¬r.Misreads pointer ∧
        ((∃ n, n.IsPartOf r.document ∧ r.resolve pointer = .ok n ∧
            r.find pointer = .ok (if n.isAbsent then none else some n)) ∨
          r.resolve pointer = .error (r.unresolved pointer) ∧ r.find pointer = .ok none) := by
  cases hlocate : r.locate pointer with
  | error fault =>
      obtain ⟨rfl, hmisread⟩ := locate_eq_error_iff.mp hlocate
      refine Or.inl ⟨hmisread, resolve_eq_error_iff.mpr (Or.inl ⟨rfl, hmisread⟩), ?_⟩
      rw [find, hlocate]
      rfl
  | ok found =>
      have hread : ¬r.Misreads pointer := by
        intro hmisread
        cases hlocate.symm.trans (locate_eq_error_iff.mpr ⟨rfl, hmisread⟩)
      refine Or.inr ⟨hread, ?_⟩
      cases found with
      | none =>
          refine Or.inr ⟨resolve_eq_error_iff.mpr (Or.inr ⟨rfl, hlocate⟩), ?_⟩
          rw [find, hlocate]
          rfl
      | some n =>
          refine Or.inl ⟨n, isPartOf_of_locate hlocate, resolve_eq_ok.mpr hlocate, ?_⟩
          rw [find, hlocate]
          cases habsent : n.isAbsent <;> simp [Except.map, Option.filter, habsent]

/-- A list of two items. -/
def rack : Resolver where
  document := ⟨0, .obj [("rack", .arr [.str "first", .null])], false⟩
  spec := some "rack.yaml"

/-- A superscript two is a digit, but asks for no place. -/
theorem rack_misread :
    ¬∀ (r : Resolver) (pointer : String),
      ((∃ n, r.resolve pointer = .ok n) ∨
          r.resolve pointer = .error (r.unresolved pointer)) ∧
        ∃ found, r.find pointer = .ok found := by
  intro h
  have hresolve : rack.resolve "#/rack/²" = .error .notANumeral := by decide
  obtain ⟨⟨n, hn⟩ | hlost, -⟩ := h rack "#/rack/²"
  · cases hresolve.symm.trans hn
  · cases hresolve.symm.trans hlost

/-! ## Chains of references -/

/-- A reference whose pointer resolves refers to the node that it leads to. -/
def Refers (r : Resolver) (n next : Node) : Prop :=
  ∃ pointer, n.pointer? = .ok (some pointer) ∧ r.resolve pointer = .ok next

/-- Following references from a node comes to another one after finitely many steps. -/
def ComesTo (r : Resolver) : Node → Node → Prop :=
  Relation.ReflTransGen r.Refers

/-- Following references from a node breaks off at a pointer that does not resolve. -/
def BreaksOff (r : Resolver) (n : Node) : Prop :=
  ∃ m pointer, r.ComesTo n m ∧ m.pointer? = .ok (some pointer) ∧
    r.resolve pointer = .error (r.unresolved pointer)

/-- Following references from a node goes on for ever. -/
def GoesOn (r : Resolver) (n : Node) : Prop :=
  ∀ m, r.ComesTo n m → ∃ next, r.Refers m next

/-- Every pointer that is met when following references from a node resolves, or a complaint about
it says that it does not. -/
def Legible (r : Resolver) (n : Node) : Prop :=
  ∀ m pointer, r.ComesTo n m → m.pointer? = .ok (some pointer) →
    (∃ next, r.resolve pointer = .ok next) ∨ r.resolve pointer = .error (r.unresolved pointer)

theorem refers_of_locate (hpointer : n.pointer? = .ok (some pointer))
    (hnext : r.locate pointer = .ok (some next)) : r.Refers n next :=
  ⟨pointer, hpointer, resolve_eq_ok.mpr hnext⟩

/-- A node refers to one node at most. -/
theorem refers_unique : Relator.RightUnique r.Refers := by
  rintro n next other ⟨pointer, hpointer, hnext⟩ ⟨pointer', hpointer', hother⟩
  cases hpointer.symm.trans hpointer'
  exact Except.ok.inj (hnext.symm.trans hother)

theorem ComesTo.plain (h : r.ComesTo n m) (hr : r.document.linked = false) (hn : n.Plain) :
    m.Plain := by
  induction h with
  | refl => exact hn
  | tail _ hstep _ =>
      obtain ⟨pointer, -, hnext⟩ := hstep
      exact closed_plain.locate hr (resolve_eq_ok.mp hnext)

/-- A chain ends at a node that refers to no other. -/
structure EndsAt (r : Resolver) (n m : Node) : Prop where
  comesTo : r.ComesTo n m
  last : ∀ next, ¬r.Refers m next

theorem EndsAt.unique (hm : r.EndsAt n m) (hb : r.EndsAt n b) : m = b := by
  rcases Relation.ReflTransGen.total_of_right_unique refers_unique hm.comesTo hb.comesTo with h | h
  · exact ((Relation.reflTransGen_iff_eq hm.last).mp h).symm
  · exact (Relation.reflTransGen_iff_eq hb.last).mp h

theorem EndsAt.not_goesOn (h : r.EndsAt n m) : ¬r.GoesOn n := by
  intro hgoes
  obtain ⟨next, hnext⟩ := hgoes m h.comesTo
  exact h.last next hnext

theorem endsAt_of_plain (h : r.ComesTo n m) (hplain : m.pointer? = .ok none) : r.EndsAt n m := by
  refine ⟨h, ?_⟩
  rintro next ⟨pointer, hpointer, -⟩
  cases hplain.symm.trans hpointer

theorem endsAt_of_fault (h : r.ComesTo n m) (hpointer : m.pointer? = .ok (some pointer))
    (hfault : r.resolve pointer = .error fault) : r.EndsAt n m := by
  refine ⟨h, ?_⟩
  rintro next ⟨pointer', hpointer', hnext⟩
  cases hpointer.symm.trans hpointer'
  cases hfault.symm.trans hnext

/-- From a node on a circle every way leads back to it. -/
theorem ComesTo.back (hx : r.Refers m x) (hxm : r.ComesTo x m) (h : r.ComesTo m b) :
    r.ComesTo b m := by
  induction h with
  | refl => exact .refl
  | @tail b c _ hstep ih =>
      rcases Relation.ReflTransGen.cases_head ih with rfl | ⟨d, hd, hdm⟩
      · exact refers_unique hx hstep ▸ hxm
      · exact refers_unique hd hstep ▸ hdm

/-- A chain that follows a pointer for the second time goes on for ever. -/
theorem goesOn_of_again (hu : r.ComesTo n u) (hupointer : u.pointer? = .ok (some pointer))
    (hx : r.locate pointer = .ok (some x)) (hxm : r.ComesTo x m)
    (hmpointer : m.pointer? = .ok (some pointer)) : r.GoesOn n := by
  have hmx : r.Refers m x := refers_of_locate hmpointer hx
  have hnm : r.ComesTo n m := (hu.tail (refers_of_locate hupointer hx)).trans hxm
  intro y hy
  -- `y` stands in front of `m`, or behind it and so on the circle through `m`
  have hym : r.ComesTo y m := by
    rcases Relation.ReflTransGen.total_of_right_unique refers_unique hnm hy with h | h
    · exact ComesTo.back hmx hxm h
    · exact h
  rcases Relation.ReflTransGen.cases_head hym with rfl | ⟨next, hnext, -⟩
  · exact ⟨x, hmx⟩
  · exact ⟨next, hnext⟩

/-! ## Looking for the end -/

/-- A pointer at which the search gives up does not resolve, or it was followed before. -/
theorem chase_lost (h : r.chase fuel seen n = .ok (.lost pointer)) :
    ∃ m, r.ComesTo n m ∧ m.pointer? = .ok (some pointer) ∧
      (r.locate pointer = .ok none ∨ pointer ∈ seen ∨
        ∃ u x, r.ComesTo n u ∧ u.pointer? = .ok (some pointer) ∧
          r.locate pointer = .ok (some x) ∧ r.ComesTo x m) := by
  induction fuel generalizing seen n with
  | zero => cases h
  | succ fuel ih =>
      obtain ⟨first?, hfirst, h⟩ := bind_eq_ok.mp h
      cases first? with
      | none => cases pure_eq_ok.mp h
      | some first =>
          dsimp only at h
          split at h
          · next hseen =>
              cases pure_eq_ok.mp h
              exact ⟨n, .refl, hfirst, Or.inr (Or.inl (by simpa using hseen))⟩
          · obtain ⟨found, hfound, h⟩ := bind_eq_ok.mp h
            cases found with
            | none =>
                cases pure_eq_ok.mp h
                exact ⟨n, .refl, hfirst, Or.inl hfound⟩
            | some next =>
                have hstep : r.Refers n next := refers_of_locate hfirst hfound
                obtain ⟨m, hm, hpointer, hwhy⟩ := ih h
                refine ⟨m, .head hstep hm, hpointer, ?_⟩
                rcases hwhy with hnone | hagain | ⟨u, x, hu, hupointer, hx, hxm⟩
                · exact Or.inl hnone
                · rcases List.mem_cons.mp hagain with rfl | hseen
                  · exact Or.inr (Or.inr ⟨n, next, .refl, hfirst, hfound, hm⟩)
                  · exact Or.inr (Or.inl hseen)
                · exact Or.inr (Or.inr ⟨u, x, .head hstep hu, hupointer, hx, hxm⟩)

/-- A fault of the search is one of a step on the way, unless the search is cut short. -/
theorem chase_fault (h : r.chase fuel seen n = .error fault) (hends : fault ≠ .endless) :
    ∃ m, r.ComesTo n m ∧ (m.pointer? = .error fault ∨
      ∃ pointer, m.pointer? = .ok (some pointer) ∧ r.locate pointer = .error fault) := by
  induction fuel generalizing seen n with
  | zero =>
      cases h
      exact absurd rfl hends
  | succ fuel ih =>
      rcases bind_eq_error.mp h with hfault | ⟨first?, hfirst, h⟩
      · exact ⟨n, .refl, Or.inl hfault⟩
      · cases first? with
        | none => cases h
        | some first =>
            dsimp only at h
            split at h
            · cases h
            · rcases bind_eq_error.mp h with hfault | ⟨found, hfound, h⟩
              · exact ⟨n, .refl, Or.inr ⟨first, hfirst, hfault⟩⟩
              · cases found with
                | none => cases h
                | some next =>
                    obtain ⟨m, hm, hwhy⟩ := ih h
                    exact ⟨m, .head (refers_of_locate hfirst hfound) hm, hwhy⟩

theorem Leads.comesTo {pointers : List String} (h : Leads r n pointers b) : r.ComesTo n b := by
  induction h with
  | here _ => exact .refl
  | follow hpointer hnext _ ih => exact .head (refers_of_locate hpointer hnext) ih

/-- What following references comes to: a node that is no reference, a complaint, or a list that is
misread. -/
theorem deref_cases (hr : r.document.linked = false) (hn : n.Plain) :
    (∃ b, r.deref n = .ok b ∧ r.ComesTo n b ∧ b.pointer? = .ok none) ∨
      (∃ pointer, r.deref n = .error (r.unresolved pointer)) ∧ (r.BreaksOff n ∨ r.GoesOn n) ∨
      ∃ m pointer, r.deref n = .error .notANumeral ∧ r.ComesTo n m ∧
        m.pointer? = .ok (some pointer) ∧ r.resolve pointer = .error .notANumeral := by
  have hconcludes : Concludes (r.chainEnd n) := concludes_chainEnd hr hn
  cases hend : r.chainEnd n with
  | ok last =>
      cases last with
      | node b =>
          obtain ⟨pointers, hleads⟩ := exists_leads_of_chase hend
          exact Or.inl ⟨b, bind_eq_ok.mpr ⟨_, hend, rfl⟩, hleads.comesTo, hleads.pointer?_end⟩
      | lost pointer =>
          have hderef : r.deref n = .error (r.unresolved pointer) :=
            bind_eq_error.mpr (Or.inr ⟨_, hend, rfl⟩)
          refine Or.inr (Or.inl ⟨⟨pointer, hderef⟩, ?_⟩)
          obtain ⟨m, hm, hpointer, hnone | hseen | ⟨u, x, hu, hupointer, hx, hxm⟩⟩ :=
            chase_lost hend
          · exact Or.inl ⟨m, pointer, hm, hpointer,
              resolve_eq_error_iff.mpr (Or.inr ⟨rfl, hnone⟩)⟩
          · exact absurd hseen List.not_mem_nil
          · exact Or.inr (goesOn_of_again hu hupointer hx hxm hpointer)
  | error fault =>
      have hends : fault ≠ .endless := by
        rintro rfl
        exact hconcludes hend
      obtain ⟨m, hm, hfault | ⟨pointer, hpointer, hfault⟩⟩ := chase_fault hend hends
      · cases (Node.Plain.pointer?_eq (hm.plain hr hn)).symm.trans hfault
      · obtain ⟨rfl, hmisread⟩ := locate_eq_error_iff.mp hfault
        exact Or.inr (Or.inr ⟨m, pointer, bind_eq_error.mpr (Or.inl hend), hm, hpointer,
          resolve_eq_error_iff.mpr (Or.inl ⟨rfl, hmisread⟩)⟩)

theorem deref_eq_ok_iff (hr : r.document.linked = false) (hn : n.Plain) :
    r.deref n = .ok b ↔ r.ComesTo n b ∧ b.pointer? = .ok none := by
  rcases deref_cases hr hn with ⟨c, hderef, hc, hplain⟩ | ⟨⟨pointer, hderef⟩, hwhy⟩ |
    ⟨m, pointer, hderef, hm, hpointer, hfault⟩
  · rw [hderef, Except.ok.injEq]
    constructor
    · rintro rfl
      exact ⟨hc, hplain⟩
    · rintro ⟨hb, hbplain⟩
      exact (endsAt_of_plain hc hplain).unique (endsAt_of_plain hb hbplain)
  · rw [hderef]
    refine iff_of_false nofun ?_
    rintro ⟨hb, hplain⟩
    have hend := endsAt_of_plain hb hplain
    rcases hwhy with ⟨m, pointer, hm, hpointer, hlost⟩ | hgoes
    · obtain rfl := hend.unique (endsAt_of_fault hm hpointer hlost)
      cases hplain.symm.trans hpointer
    · exact hend.not_goesOn hgoes
  · rw [hderef]
    refine iff_of_false nofun ?_
    rintro ⟨hb, hplain⟩
    obtain rfl := (endsAt_of_plain hb hplain).unique (endsAt_of_fault hm hpointer hfault)
    cases hplain.symm.trans hpointer

theorem deref_unresolved_iff (hr : r.document.linked = false) (hn : n.Plain) :
    (∃ pointer, r.deref n = .error (r.unresolved pointer)) ↔ r.BreaksOff n ∨ r.GoesOn n := by
  rcases deref_cases hr hn with ⟨b, hderef, hb, hplain⟩ | ⟨hderef, hwhy⟩ |
    ⟨m, pointer, hderef, hm, hpointer, hfault⟩
  · refine iff_of_false (by simp [hderef]) ?_
    have hend := endsAt_of_plain hb hplain
    rintro (⟨m, pointer, hm, hpointer, hlost⟩ | hgoes)
    · obtain rfl := hend.unique (endsAt_of_fault hm hpointer hlost)
      cases hplain.symm.trans hpointer
    · exact hend.not_goesOn hgoes
  · exact iff_of_true hderef hwhy
  · refine iff_of_false (by simp [hderef, unresolved]) ?_
    have hend := endsAt_of_fault hm hpointer hfault
    rintro (⟨u, other, hu, hother, hlost⟩ | hgoes)
    · obtain rfl := hend.unique (endsAt_of_fault hu hother hlost)
      cases hpointer.symm.trans hother
      cases hfault.symm.trans hlost
    · exact hend.not_goesOn hgoes

/-- A node that is no reference is given as it is. -/
theorem deref_of_plain (h : n.pointer? = .ok none) : r.deref n = .ok n := by
  have hend : r.chainEnd n = .ok (.node n) := by
    rw [chainEnd, chase, ok_bind h]
    rfl
  exact bind_eq_ok.mpr ⟨_, hend, rfl⟩

/-- In documents as they are written, following references from any node comes to an end. It gives
the node that is no reference and that the chain comes to; it complains just when the chain breaks
off at a pointer that does not resolve, or goes on for ever; and if every pointer on the way either
resolves or does not, it does one of the two. What it gives it gives again. -/
theorem deref_outcome (hr : r.document.linked = false) (hn : n.Plain) :
    Concludes (r.deref n) ∧
      (∀ b, r.deref n = .ok b ↔ r.ComesTo n b ∧ b.pointer? = .ok none) ∧
      ((∃ pointer, r.deref n = .error (r.unresolved pointer)) ↔ r.BreaksOff n ∨ r.GoesOn n) ∧
      (r.Legible n →
        (∃ b, r.deref n = .ok b) ∨ ∃ pointer, r.deref n = .error (r.unresolved pointer)) ∧
      (r.deref n >>= r.deref) = r.deref n := by
  refine ⟨?_, fun b => deref_eq_ok_iff hr hn, deref_unresolved_iff hr hn, ?_, ?_⟩
  · refine (concludes_chainEnd hr hn).bind fun last _ => ?_
    cases last with
    | node b => exact concludes_pure b
    | lost pointer => exact concludes_throw nofun
  · intro hlegible
    rcases deref_cases hr hn with
      ⟨b, hderef, -⟩ | ⟨hderef, -⟩ | ⟨m, pointer, -, hm, hpointer, hfault⟩
    · exact Or.inl ⟨b, hderef⟩
    · exact Or.inr hderef
    · rcases hlegible m pointer hm hpointer with ⟨next, hnext⟩ | hlost
      · cases hfault.symm.trans hnext
      · cases hfault.symm.trans hlost
  · cases hderef : r.deref n with
    | error fault => rfl
    | ok b => exact deref_of_plain ((deref_eq_ok_iff hr hn).mp hderef).2

/-- References in a row, two that refer to each other, and one to nothing. -/
def signposts : Resolver where
  document := ⟨0, .obj [
    ("mill", .obj [("$ref", .str "#/bridge")]),
    ("bridge", .obj [("$ref", .str "#/village")]),
    ("village", .obj [("type", .str "string")]),
    ("east", .obj [("$ref", .str "#/west")]),
    ("west", .obj [("$ref", .str "#/east")]),
    ("coast", .obj [("$ref", .str "#/island")])], false⟩
  spec := none

/-- A reference that stands outside of the document. -/
def wayTo (pointer : String) : Node :=
  ⟨⟨1, .null, false⟩, [], .obj [("$ref", .str pointer)]⟩

/-- The row comes to its end, the circle is left although it is entered from outside, and nothing is
found where nothing is. -/
theorem signposts_deref :
    signposts.document.linked = false ∧ (∀ pointer, (wayTo pointer).Plain) ∧
      (∃ b, b.value = .obj [("type", .str "string")] ∧ signposts.deref (wayTo "#/mill") = .ok b ∧
        signposts.ComesTo (wayTo "#/mill") b) ∧
      signposts.deref (wayTo "#/east") = .error (signposts.unresolved "#/east") ∧
      (signposts.BreaksOff (wayTo "#/east") ∨ signposts.GoesOn (wayTo "#/east")) ∧
      signposts.deref (wayTo "#/coast") = .error (signposts.unresolved "#/island") ∧
      (signposts.BreaksOff (wayTo "#/coast") ∨ signposts.GoesOn (wayTo "#/coast")) := by
  have hplain : ∀ pointer, (wayTo pointer).Plain := fun _ => rfl
  have hrow : signposts.deref (wayTo "#/mill") =
      .ok ⟨signposts.document, [.key "village"], .obj [("type", .str "string")]⟩ := by
    decide
  have hcircle : signposts.deref (wayTo "#/east") = .error (signposts.unresolved "#/east") := by
    decide
  have hnowhere : signposts.deref (wayTo "#/coast") = .error (signposts.unresolved "#/island") := by
    decide
  obtain ⟨-, hfound, -⟩ := deref_outcome (r := signposts) rfl (hplain "#/mill")
  obtain ⟨-, -, heast, -⟩ := deref_outcome (r := signposts) rfl (hplain "#/east")
  obtain ⟨-, -, hcoast, -⟩ := deref_outcome (r := signposts) rfl (hplain "#/coast")
  exact ⟨rfl, hplain, ⟨_, rfl, hrow, ((hfound _).mp hrow).1⟩, hcircle, heast.mp ⟨_, hcircle⟩,
    hnowhere, hcoast.mp ⟨_, hnowhere⟩⟩

end Resolver

end ApiScaffold
