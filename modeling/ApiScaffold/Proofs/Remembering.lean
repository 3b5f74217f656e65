import ApiScaffold.Proofs.Outcome
import ApiScaffold.Typing.Mapper

set_option autoImplicit false

/-! # What a mapper remembers

The type of a body is found by following references, each of them once. A mapper can hand down the
references that it is following (`bodyWithin`), or it can remember them and forget each when it is
done with it (`bodyRemembering`). The two find the same type, and the one that remembers remembers
in the end what it did in the beginning, whatever went wrong (`bodyRemembering_restores`). -/

namespace ApiScaffold

/-! ## Steps that restore the state -/

section Restores

variable {α β σ : Type} {s : σ}

/-- From a state, a step has an outcome, and the state is the same again, also if the step fails. -/
def Restores (x : ExceptT Fault (StateM σ) α) (e : Except Fault α) (s : σ) : Prop :=
  x.run.run s = (e, s)

theorem restores_lift (e : Except Fault α) : Restores (liftM e) e s := by
  cases e <;> rfl

theorem restores_pure (a : α) : Restores (pure a) (pure a) s := rfl

theorem restores_bind {x : ExceptT Fault (StateM σ) α} {f : α → ExceptT Fault (StateM σ) β}
    {e : Except Fault α} {g : α → Except Fault β} (hx : Restores x e s)
    (hf : ∀ a, Restores (f a) (g a) s) : Restores (x >>= f) (e >>= g) s := by
  unfold Restores at hx ⊢
  rw [ExceptT.run_bind, StateT.run_bind, hx]
  cases e with
  | error fault => rfl
  | ok a => exact hf a

theorem restores_get_bind {f : σ → ExceptT Fault (StateM σ) β} {e : Except Fault β}
    (h : Restores (f s) e s) : Restores (get >>= f) e s := h

theorem restores_lift_bind {e : Except Fault α} {f : α → ExceptT Fault (StateM σ) β}
    {g : α → Except Fault β} (hf : ∀ a, Restores (f a) (g a) s) :
    Restores (liftM e >>= f) (e >>= g) s :=
  restores_bind (restores_lift e) hf

/-- What is done at last is done to the state that a step leaves behind, also if the step fails. -/
theorem run_tryFinally_modify {x : ExceptT Fault (StateM σ) α} {f : σ → σ} :
    (tryFinally x (modify f)).run.run s = ((x.run.run s).1, f (x.run.run s).2) := by
  rcases h : x.run.run s with ⟨e, t⟩
  have h : x s = (e, t) := h
  change (tryFinally x (modify f)) s = (e, f t)
  simp only [tryFinally, MonadFinally.tryFinally', Functor.map, ExceptT.map, ExceptT.mk, bind,
    StateT.bind, h]
  cases e <;> rfl

end Restores

namespace Mapper

/-! ## Following references -/

/-- A step of a mapper that remembers the references that it is following. -/
abbrev Remembering := ExceptT Fault (StateM (List String))

/-- Do something while following a reference. The reference is forgotten afterwards, also if what
was done failed. -/
def whileFollowing {α : Type} (pointer : String) (x : Remembering α) : Remembering α := do
  modify (pointer :: ·)
  tryFinally x (modify (·.erase pointer))

/-- The type of a body, found by a mapper that remembers the references that it is following. -/
def bodyRemembering (m : Mapper) : Nat → Node → Remembering TypeExpr
  | 0, _ => throw .endless
  | fuel + 1, schema => do
    if !(← liftM schema.isObject) then return .any
    match ← liftM schema.pointer? with
    | some pointer =>
      match ← liftM (m.resolver.locate pointer) with
      | none => return .any
      | some target =>
        if ← liftM (Schema.isStringEnum target) then
          return .named (Naming.enumName (Pointer.name pointer))
        if !(← liftM (Schema.isModel target)) then
          if (← get).contains pointer then return .any
          return ← whileFollowing pointer (m.bodyRemembering fuel target)
        if Pointer.isComponent pointer then
          return .named (m.names.classOf (Pointer.name pointer))
        return .any
    | none =>
      let type ← liftM (Schema.typeOf schema)
      if type = .str "array" then
        let items ← liftM (schema.get "items")
        if !(← liftM items.isObject) then return .list .any
        if ← liftM (Schema.isInlineObject items) then return .list .any
        return .list (← m.bodyRemembering fuel items)
      match type with
      | .str name => return .named ((simpleTypes.lookup name).getD "any")
      | .arr _ | .obj _ => throw .unfit
      | _ => return .any

variable {memory : List String}

theorem whileFollowing_restores {α : Type} {pointer : String} {x : Remembering α}
    {e : Except Fault α} (h : Restores x e (pointer :: memory)) :
    Restores (whileFollowing pointer x) e memory := by
  unfold Restores at h ⊢
  have hrun : (whileFollowing pointer x).run.run memory =
      (tryFinally x (modify (·.erase pointer))).run.run (pointer :: memory) := rfl
  rw [hrun, run_tryFinally_modify, h, List.erase_cons_head]

theorem bodyRemembering_restores (m : Mapper) (fuel : Nat) (memory : List String) (schema : Node) :
    Restores (m.bodyRemembering fuel schema) (m.bodyWithin fuel memory schema) memory := by
  induction fuel generalizing memory schema with
  | zero => rfl
  | succ fuel ih =>
      rw [bodyRemembering, bodyWithin]
      refine restores_lift_bind fun isObject => ?_
      split
      · exact restores_pure _
      refine restores_lift_bind fun pointer? => ?_
      split
      · refine restores_lift_bind fun target? => ?_
        split
        · exact restores_pure _
        refine restores_lift_bind fun isEnum => ?_
        split
        · exact restores_pure _
        refine restores_lift_bind fun isModel => ?_
        split
        · refine restores_get_bind ?_
          split
          · exact restores_pure _
          · exact whileFollowing_restores (ih _ _)
        · split
          · exact restores_pure _
          · exact restores_pure _
      · refine restores_lift_bind fun type => ?_
        split
        · refine restores_lift_bind fun items => ?_
          refine restores_lift_bind fun isObject => ?_
          split
          · exact restores_pure _
          refine restores_lift_bind fun isInline => ?_
          split
          · exact restores_pure _
          · exact restores_bind (ih memory items) fun item => restores_pure _
        · cases type with
          | str name => exact restores_pure _
          | arr items => rfl
          | obj fields => rfl
          | _ => exact restores_pure _

end Mapper

end ApiScaffold
