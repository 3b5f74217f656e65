import ApiScaffold.Document.Node

set_option autoImplicit false

/-! # Excerpts

A value that is taken over from a document into the code. In a linked document parts of it can stand
behind links; the code shows what stands there as a text, while the value itself has the part in
place. Without links both are the same. -/

namespace ApiScaffold

/-- A value taken over from a document. -/
structure Excerpt where
  /-- The value, with every link replaced by what it stands for. -/
  value : Json
  /-- The value as code shows it: what stands behind a link is given by its running text. -/
  shown : Json
deriving DecidableEq, Repr, Inhabited

namespace Excerpt

/-- A value without links. -/
def plain (value : Json) : Excerpt := ⟨value, value⟩

/-- A text. -/
def text (s : String) : Excerpt := plain (.str s)

/-- Null. -/
def null : Excerpt := plain .null

/-- Whether there is nothing to show. A link to null is something. -/
def isNull (e : Excerpt) : Bool := e.shown == .null

end Excerpt

namespace Node

/-- Whether a node is a link. -/
def isLink (n : Node) : Bool :=
  n.document.linked && (referenceText? n.value).isSome

/-- The value of a node with the running text of its target in place of every link; `fuel` bounds
the depth. -/
def shownWithin : Nat → Node → Except Fault Json
  | 0, _ => .error .endless
  | fuel + 1, n =>
    if n.isLink then do return .str (← n.unfolded).display
    else
      match n.value with
      | .arr items => do return .arr (← (n.itemNodes items).mapM (shownWithin fuel))
      | .obj fields => do
        return .obj (← (n.fieldNodes fields).mapM fun f => do
          return (f.1, ← shownWithin fuel f.2))
      | value => .ok value

/-- The value of a node as it is taken over into code. -/
def excerpt (n : Node) : Except Fault Excerpt :=
  if n.document.linked then do
    return { value := ← n.unfolded, shown := ← shownWithin (n.value.size + 1) n }
  else .ok (.plain n.value)

theorem excerpt_of_plain {n : Node} (h : n.document.linked = false) :
    n.excerpt = .ok (.plain n.value) := by
  simp [excerpt, h]

end Node

end ApiScaffold
