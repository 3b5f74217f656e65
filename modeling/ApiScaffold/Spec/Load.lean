import ApiScaffold.Document.Pointer
import ApiScaffold.Files.Tree
import ApiScaffold.Json.Reader
import ApiScaffold.Naming
import ApiScaffold.Yaml.Block

set_option autoImplicit false

/-! # Loading a specification

A specification is a file or the answer of a server, in JSON or YAML; its name tells which. It is
kept in two readings: as it was written, and with every reference standing for its target. -/

namespace ApiScaffold

open Files (Tree)

/-- A specification that was loaded. -/
structure Spec where
  /-- Where it was loaded from. -/
  path : String
  content : Json
deriving DecidableEq, Repr, Inhabited

/-- What a server answers. -/
structure Reply where
  status : Int
  text : String
deriving DecidableEq, Repr, Inhabited

namespace Spec

/-- The document as it was written. -/
def written (s : Spec) : Document := ⟨0, s.content, false⟩

/-- The document with its references standing for their targets. -/
def resolved (s : Spec) : Document := ⟨1, s.content, true⟩

/-- The name of the resource that the specification describes. -/
def resource (s : Spec) : String := Naming.resourceName s.path

/-- The node that a pointer leads to in the document as it was written. -/
def find (s : Spec) (pointer : String) : Except Fault (Option Node) :=
  (Resolver.mk s.written none).find pointer

/-! ## Reading -/

/-- Whether a path is the address of a server. -/
def isAddress (path : String) : Bool :=
  Text.beginsWith "http://" path || Text.beginsWith "https://" path

/-- Whether a path says that the text is JSON; what follows a question mark does not count. -/
def isJson (path : String) : Bool :=
  Text.finishesWith ".json" ((Text.pieces "?" (Text.lowerLatin path)).headD "")

/-- The text of a specification, or why there is none. `reply` is what the server answers, none if
it cannot be reached. -/
def readText (t : Tree) (reply : Option Reply) (path : String) : Except String String :=
  if isAddress path then
    match reply with
    | none => .error "the server cannot be reached"
    | some r =>
      if 200 ≤ r.status && r.status < 300 then .ok r.text
      else .error ("the server answers with status " ++ toString r.status)
  else (t.read path).mapError fun cause => (Fault.file cause).text

/-- What a text says, and whether all of it can be written as JSON. -/
def parse (path text : String) : Except String (Json × Bool) :=
  if isJson path then
    match Json.read? text with
    | some v => .ok (v, true)
    | none => .error "not well-formed JSON"
  else
    match Yaml.read? text with
    | some v => .ok (v.toJson, !v.hasMomentKey)
    | none => .error "not well-formed YAML"

/-- Whether a document describes an API. -/
def describesApi : Json → Bool
  | .obj fields => (fields.lookup "openapi").isSome || (fields.lookup "swagger").isSome
  | _ => false

/-- Load the specification of a path. -/
def load (t : Tree) (reply : Option Reply) (path : String) : Except Fault Spec := do
  let found := do parse path (← readText t reply path)
  match found with
  | .error detail => throw (.complaint (.unreadableSpec detail) (some path))
  | .ok (content, isPlain) =>
    if !describesApi content then throw (.complaint .notASpec (some path))
    if !isPlain then throw .unfit
    let _ ← Document.ofLinks 1 content
    return { path, content }

end Spec

end ApiScaffold
