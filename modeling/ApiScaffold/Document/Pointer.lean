import ApiScaffold.Document.Node
import ApiScaffold.Text.Digits

set_option autoImplicit false

/-! # Pointers

A pointer such as `#/components/schemas/User` names a node by the steps that lead to it from the
root. Empty segments do not count; `~1` writes a slash inside a segment and `~0` a tilde. A node
that holds a pointer under `$ref` is a reference; following references ends at a node that is none,
at a pointer that leads nowhere, or comes back to a pointer that was followed before. -/

namespace ApiScaffold

namespace Pointer

/-- A segment with its escapes resolved. -/
def unescape (segment : List Char) : List Char :=
  Text.replace ['~', '0'] ['~'] (Text.replace ['~', '1'] ['/'] segment)

/-- The segments of a pointer into the same document. -/
def segments? (pointer : String) : Option (List String) :=
  match pointer.toList with
  | '#' :: path =>
    some (((Text.cut ['/'] path).filter (!·.isEmpty)).map fun s => String.ofList (unescape s))
  | _ => none

/-- The name that a pointer ends with. -/
def name (pointer : String) : String :=
  let path := Text.trimBack (· = '/') pointer.toList
  String.ofList (unescape ((Text.cut ['/'] path).getLast?.getD []))

/-- Where the schemas of a document have their names. -/
def schemas : String := "#/components/schemas/"

/-- The pointer to the schema of a name. -/
def toSchema (name : String) : String := schemas ++ name

/-- Whether a pointer leads to a schema that has a name, and not into one. -/
def isComponent (pointer : String) : Bool :=
  match Text.dropFront? schemas.toList pointer.toList with
  | some rest => !rest.contains '/'
  | none => false

end Pointer

namespace Node

/-- The part of a node that a segment of a pointer names. A list takes a text of digits; one that is
no numeral is a fault. -/
def pointed (n : Node) (segment : String) : Except Fault (Option Node) :=
  match n.value with
  | .arr items =>
    if !Text.allDigits segment.toList then .ok none
    else
      match Text.natural? segment.toList with
      | none => .error .notANumeral
      | some i => .ok ((items[i]?).map (n.part (.index i)))
  | .obj fields => .ok ((fields.lookup segment).map (n.part (.key segment)))
  | _ => .ok none

/-- The node that segments lead to, one after the other. -/
def descend : Node → List String → Except Fault (Option Node)
  | n, [] => .ok (some n)
  | n, segment :: rest => do
    match ← n.pointed segment with
    | some next => next.descend rest
    | none => return none

/-- The pointer that a reference holds. -/
def pointer? (n : Node) : Except Fault (Option String) := do
  if ← n.isObject then
    match ← (← n.get "$ref").opened with
    | .str pointer => return some pointer
    | _ => return none
  else return none

/-- Whether a node is a reference. -/
def isReference (n : Node) : Except Fault Bool :=
  n.pointer?.map (·.isSome)

end Node

/-- Looks up the pointers of one document. -/
structure Resolver where
  document : Document
  /-- The file that complaints are about. -/
  spec : Option String
deriving DecidableEq

/-- Where a chain of references leads. -/
inductive ChainEnd where
  /-- A node that is no reference. -/
  | node (n : Node)
  /-- A pointer that leads nowhere or was followed before. -/
  | lost (pointer : String)

namespace Resolver

/-- The node that a pointer leads to. -/
def locate (r : Resolver) (pointer : String) : Except Fault (Option Node) :=
  match Pointer.segments? pointer with
  | some segments => r.document.top.descend segments
  | none => .ok none

/-- The complaint about a pointer that leads nowhere. -/
def unresolved (r : Resolver) (pointer : String) : Fault :=
  .complaint (.unresolved pointer) r.spec

/-- The node that a pointer leads to, or a complaint. -/
def resolve (r : Resolver) (pointer : String) : Except Fault Node := do
  match ← r.locate pointer with
  | some n => return n
  | none => throw (r.unresolved pointer)

/-- The node that a pointer leads to, if there is one and it is not null. -/
def find (r : Resolver) (pointer : String) : Except Fault (Option Node) :=
  (r.locate pointer).map fun found => found.filter (!·.isAbsent)

/-- Follow references; `seen` are the pointers followed so far, `fuel` bounds their number. -/
def chase (r : Resolver) : Nat → List String → Node → Except Fault ChainEnd
  | 0, _, _ => .error .endless
  | fuel + 1, seen, n => do
    match ← n.pointer? with
    | none => return .node n
    | some pointer =>
      if seen.contains pointer then return .lost pointer
      match ← r.locate pointer with
      | some next => r.chase fuel (pointer :: seen) next
      | none => return .lost pointer

/-- Where the references from a node lead. All pointers but the first are texts of the document, so
there are fewer of them than values in it. -/
def chainEnd (r : Resolver) (n : Node) : Except Fault ChainEnd :=
  r.chase (r.document.root.size + 3) [] n

/-- The node that the references from a node lead to, or a complaint. -/
def deref (r : Resolver) (n : Node) : Except Fault Node := do
  match ← r.chainEnd n with
  | .node target => return target
  | .lost pointer => throw (r.unresolved pointer)

/-- The node that the references from a node lead to, if they lead anywhere. -/
def derefIfAny (r : Resolver) (n : Node) : Except Fault (Option Node) := do
  match ← r.chainEnd n with
  | .node target => return some target
  | .lost _ => return none

/-- The object that the references from a node lead to, if they lead to one. -/
def objectAt (r : Resolver) (n : Node) : Except Fault (Option Node) := do
  match ← r.derefIfAny n with
  | some target => if ← target.isObject then return some target else return none
  | none => return none

end Resolver

end ApiScaffold
