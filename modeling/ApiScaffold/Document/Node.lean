import ApiScaffold.Fault
import ApiScaffold.Json.Value
import ApiScaffold.Text.Cut
import ApiScaffold.Text.Percent

set_option autoImplicit false

/-! # Nodes of a document

A node is a value together with its place in a document. Two equal values at different places are
different nodes, which is what tells a walk that it has been somewhere before.

A document may be *linked*: then every object with a text under `$ref` stands for the node that the
text points to. Links are followed when a node is looked into, so a broken link does no harm until
then. In a document that is not linked a node is settled as it is (`settle_of_plain`), and looking
into it never fails on account of links. -/

namespace ApiScaffold

/-- A document; the tag tells documents of equal content apart. -/
structure Document where
  tag : Nat
  root : Json
  /-- Whether reference objects stand for their targets. -/
  linked : Bool
deriving DecidableEq, Repr, Inhabited

/-- A step from a node to a part of it. -/
inductive Step where
  | key (name : String)
  | index (i : Nat)
deriving DecidableEq, Repr

/-- A value at its place in a document. -/
structure Node where
  document : Document
  /-- The steps from the root to the node, the last one first. -/
  trail : List Step
  value : Json
deriving DecidableEq, Inhabited

/-- The whole document as a node. -/
def Document.top (d : Document) : Node := ⟨d, [], d.root⟩

namespace Node

/-- Whether two nodes are at the same place of the same document. -/
def samePlace (a b : Node) : Bool :=
  a.document.tag == b.document.tag && a.trail == b.trail

/-- A part of a node. -/
def part (n : Node) (step : Step) (value : Json) : Node :=
  ⟨n.document, step :: n.trail, value⟩

/-- Nothing is there, or null. -/
def isAbsent (n : Node) : Bool :=
  match n.value with
  | .null => true
  | _ => false

/-! ## Links -/

/-- The text under `$ref` of an object, if it is a text. -/
def referenceText? : Json → Option String
  | .obj fields =>
    match fields.lookup "$ref" with
    | some (.str text) => some text
    | _ => none
  | _ => none

mutual

/-- Whether some object has a link under `$ref`. What such an object is cannot be told: that hangs
on the link, which leads nowhere while the document is being put together. -/
def hasNestedLink : Json → Bool
  | .arr items => itemsHaveNestedLink items
  | .obj fields =>
    ((fields.lookup "$ref").bind referenceText?).isSome || fieldsHaveNestedLink fields
  | _ => false

/-- `hasNestedLink` for the items of a list. -/
def itemsHaveNestedLink : List Json → Bool
  | [] => false
  | x :: rest => hasNestedLink x || itemsHaveNestedLink rest

/-- `hasNestedLink` for the fields of an object. -/
def fieldsHaveNestedLink : Fields → Bool
  | [] => false
  | (_, x) :: rest => hasNestedLink x || fieldsHaveNestedLink rest

end

/-- What may stand in front of the fragment of a link without leading out of its document: nothing,
or marks that open a part of an address which is empty. The mark of parameters counts only when a
fragment follows. -/
def ownAddresses (hasFragment : Bool) : List (List Char) :=
  ["", "?", "//", "//?"].map String.toList ++
    (if hasFragment then [";", ";?"].map String.toList else [])

/-- The segments of the fragment of a link. Its leading slashes do not count; what is left is
decoded, and only then cut. -/
def linkSegments (fragment : List Char) : List String :=
  let path := fragment.dropWhile (· = '/')
  if path.isEmpty then []
  else
    (Text.cut ['/'] (Text.percentDecode path)).map fun segment =>
      String.ofList (Text.replace ['~', '0'] ['~'] (Text.replace ['~', '1'] ['/'] segment))

/-- The steps that a link takes from the root of its own document; none for a link that leaves it.
Blanks and controls in front, tabs and line ends do not count. -/
def linkPath? (text : String) : Option (List String) :=
  let chars := (text.toList.filter fun c => c != '\t' && c != '\r' && c != '\n').dropWhile
    (·.toNat ≤ 32)
  let address := chars.takeWhile (· != '#')
  match chars.drop address.length with
  | [] => if (ownAddresses false).contains address then some [] else none
  | _ :: fragment =>
    if (ownAddresses true).contains address then some (linkSegments fragment) else none

example : linkPath? "#//a%2Fb/c~1d" = some ["a", "b", "c/d"] ∧ linkPath? "?#/l" = some ["l"] ∧
    linkPath? "other#/l" = none ∧ linkPath? ";" = none := by
  decide +kernel

/-- The place in a list of some length that an integer stands for; negative ones count from the
end. -/
def placeInList? (length : Nat) (i : Int) : Option Nat :=
  let place := if i < 0 then i + length else i
  if 0 ≤ place && place < length then some place.toNat else none

/-- The part of a node that a segment of a link names. -/
def linkPart? (n : Node) (segment : String) : Option Node :=
  match n.value with
  | .obj fields => (fields.lookup segment).map (n.part (.key segment))
  | .arr items => do
    let i ← (Text.integer? segment.toList).bind (placeInList? items.length)
    return n.part (.index i) (← items[i]?)
  | .str s => do
    let chars := s.toList
    let i ← (Text.integer? segment.toList).bind (placeInList? chars.length)
    return n.part (.index i) (.str (String.singleton (← chars[i]?)))
  | _ => none

/-- Walk along the segments of a link, settling every node on the way but the link itself. -/
def walkLink (settle : Node → Except Fault Node) (link : Node) :
    Node → List String → Except Fault Node
  | n, [] => .ok n
  | n, segment :: rest => do
    -- to settle the link itself would go round: it is what is being settled
    let here ← if n.samePlace link then pure n else settle n
    match here.linkPart? segment with
    | some next => walkLink settle link next rest
    | none => throw .brokenLink

/-- Follow links until a node that is none; `fuel` bounds the number of links. -/
def settleWithin : Nat → Node → Except Fault Node
  | 0, _ => .error .endless
  | fuel + 1, n =>
    match referenceText? n.value with
    | none => .ok n
    | some text => do
      match linkPath? text with
      | none => throw .brokenLink
      | some segments =>
        let target ← walkLink (settleWithin fuel) n n.document.top segments
        if target.samePlace n then throw .brokenLink
        else settleWithin fuel target

/-- The node that a node stands for. There are fewer links than values in a document, so following
more links than values means going round. -/
def settle (n : Node) : Except Fault Node :=
  if n.document.linked then settleWithin (n.document.root.size + 1) n else .ok n

theorem settle_of_plain {n : Node} (h : n.document.linked = false) : n.settle = .ok n := by
  simp [settle, h]

/-- A value without a link stands for itself. -/
theorem settle_of_noLink {n : Node} (h : referenceText? n.value = none) : n.settle = .ok n := by
  unfold settle
  split
  · rw [settleWithin, h]
  · rfl

/-! ## Looking into a node -/

/-- The items of a list, in their order, as parts of a node. -/
def itemNodes (n : Node) (items : List Json) : List Node :=
  items.mapIdx fun i item => n.part (.index i) item

/-- The fields of an object, in their order, as parts of a node. -/
def fieldNodes (n : Node) (fields : Fields) : List (String × Node) :=
  fields.map fun f => (f.1, n.part (.key f.1) f.2)

/-- The value that a node stands for; its parts may be links. -/
def opened (n : Node) : Except Fault Json :=
  n.settle.map (·.value)

/-- Whether a node stands for an object. -/
def isObject (n : Node) : Except Fault Bool := do
  match (← n.settle).value with
  | .obj _ => return true
  | _ => return false

/-- The fields of an object. -/
def fields (n : Node) : Except Fault (List (String × Node)) := do
  let here ← n.settle
  match here.value with
  | .obj fields => return here.fieldNodes fields
  | _ => throw .lacksPart

/-- The field of an object; one that is not there reads as null. -/
def get (n : Node) (key : String) : Except Fault Node := do
  let here ← n.settle
  match here.value with
  | .obj fields => return here.part (.key key) ((fields.lookup key).getD .null)
  | _ => throw .lacksPart

/-- Whether an object has a field. -/
def has (n : Node) (key : String) : Except Fault Bool := do
  match (← n.settle).value with
  | .obj fields => return (fields.lookup key).isSome
  | _ => throw .lacksPart

/-- Whether the value that a node stands for counts as true. -/
def truthy (n : Node) : Except Fault Bool :=
  n.opened.map Json.truthy

/-- What going through a node meets: the items of a list, the characters of a text, the keys of an
object. Other values cannot be gone through. -/
def entries (n : Node) : Except Fault (List Node) := do
  let here ← n.settle
  match here.value with
  | .arr items => return here.itemNodes items
  | .str s => return here.itemNodes (s.toList.map fun c => .str (String.singleton c))
  | .obj fields => return here.itemNodes (fields.map fun f => .str f.1)
  | _ => throw .unfit

/-- What going through a node meets, and nothing for a value that counts as false. -/
def entriesIfAny (n : Node) : Except Fault (List Node) := do
  if ← n.truthy then n.entries else return []

/-- The fields of an object, and none for a value that counts as false. -/
def fieldsIfAny (n : Node) : Except Fault (List (String × Node)) := do
  if ← n.truthy then n.fields else return []

/-! ## Whole values -/

/-- The value of a node with every link replaced by what it stands for; `fuel` bounds the depth. -/
def unfoldWithin : Nat → Node → Except Fault Json
  | 0, _ => .error .endless
  | fuel + 1, n => do
    let here ← n.settle
    match here.value with
    | .arr items => return .arr (← (here.itemNodes items).mapM (unfoldWithin fuel))
    | .obj fields =>
      return .obj (← (here.fieldNodes fields).mapM fun f => do
        return (f.1, ← unfoldWithin fuel f.2))
    | value => return value

/-- The value of a node with every link replaced by what it stands for. Nesting deeper than there
are values means that links go round. -/
def unfolded (n : Node) : Except Fault Json :=
  if n.document.linked then unfoldWithin (n.document.root.size + 1) n else .ok n.value

/-- The members of the set that a node lists: each must be hashable. -/
def members (n : Node) : Except Fault (List Json) := do
  (← n.entries).mapM fun entry => do
    let value ← entry.opened
    if value.isHashable then return value else throw .unfit

/-- Equality of what two nodes stand for, up to `Json.same`; `fuel` bounds the depth. -/
def equalWithin : Nat → Node → Node → Except Fault Bool
  | 0, _, _ => .error .endless
  | fuel + 1, a, b => do
    let left ← a.settle
    let right ← b.settle
    match left.value, right.value with
    | .arr xs, .arr ys =>
      if xs.length != ys.length then return false
      ((left.itemNodes xs).zip (right.itemNodes ys)).allM fun p => equalWithin fuel p.1 p.2
    | .obj fs, .obj gs =>
      if fs.length != gs.length then return false
      (left.fieldNodes fs).allM fun f =>
        match gs.lookup f.1 with
        | some y => equalWithin fuel f.2 (right.part (.key f.1) y)
        | none => return false
    | x, y => return x.sameScalar y

/-- Equality of what two nodes stand for, up to `Json.same`. -/
def equal (a b : Node) : Except Fault Bool :=
  if a.document.linked || b.document.linked then
    equalWithin (a.document.root.size + b.document.root.size + 2) a b
  else return a.value.same b.value

end Node

/-- The linked document of a value, if it can be put together. -/
def Document.ofLinks (tag : Nat) (root : Json) : Except Fault Document :=
  if Node.hasNestedLink root then .error .brokenLink else .ok ⟨tag, root, true⟩

end ApiScaffold
