import ApiScaffold.Fault
import ApiScaffold.Json.Value
import ApiScaffold.Text.Cut
import ApiScaffold.Text.Digits

set_option autoImplicit false

/-! # Endpoints

An endpoint describes one operation of an API: how it is called, with what, and what it answers. -/

namespace ApiScaffold

/-! ## Methods and parameters -/

/-- The methods of HTTP that operations are looked for under. -/
inductive Method where
  | get
  | post
  | put
  | patch
  | delete
  | other (name : String)
deriving DecidableEq, Repr, Inhabited

namespace Method

/-- The methods in the order in which operations are listed. -/
def all : List Method := [.get, .post, .put, .patch, .delete]

/-- The name of a method in a document. -/
def name : Method → String
  | .get => "get"
  | .post => "post"
  | .put => "put"
  | .patch => "patch"
  | .delete => "delete"
  | .other name => name

/-- The method of a name. -/
def ofName (name : String) : Method :=
  (all.find? (·.name == name)).getD (.other name)

/-- The decorator of a method. -/
def decorator? : Method → Option String
  | .get => some "Get"
  | .post => some "Post"
  | .put => some "Put"
  | .patch => some "Patch"
  | .delete => some "Delete"
  | .other _ => none

end Method

/-- Where the value of a parameter is found in a request. -/
inductive ParameterKind where
  | path
  | body
  | query
  | header
  | other (name : String)
deriving DecidableEq, Repr, Inhabited

namespace ParameterKind

/-- The kinds that have a name of their own. -/
def all : List ParameterKind := [.path, .body, .query, .header]

/-- The name of a kind in a document. -/
def name : ParameterKind → String
  | .path => "path"
  | .body => "body"
  | .query => "query"
  | .header => "header"
  | .other name => name

/-- The kind of a name. -/
def ofName (name : String) : ParameterKind :=
  (all.find? (·.name == name)).getD (.other name)

/-- The rank of a kind among the arguments of a method. -/
def rank : ParameterKind → Nat
  | .path => 1
  | .body => 2
  | .query => 3
  | .header => 4
  | .other _ => 5

/-- The decorator of an argument of a kind. -/
def decorator? : ParameterKind → Option String
  | .path => some "Param"
  | .body => some "Body"
  | .query => some "Query"
  | .header => some "Headers"
  | .other _ => none

end ParameterKind

/-- A parameter of an operation. -/
structure Parameter where
  /-- The name of the argument. -/
  name : String
  /-- The name in a request. -/
  wireName : String
  kind : ParameterKind
  required : Bool := false
  typeExpression : String := "string"
  /-- What the schema says in texts, numbers and truth values. -/
  constraintSchema : Fields := []
  description : Option String := none
deriving DecidableEq, Repr, Inhabited

/-- How the argument is declared: a question mark says that it may be missing. -/
def Parameter.declaration (p : Parameter) : String :=
  if p.required then p.name else p.name ++ "?"

/-! ## Requests and responses -/

/-- The body of a request. -/
structure Body where
  typeExpression : String := "any"
  required : Bool := true
  description : Option String := none
deriving DecidableEq, Repr, Inhabited

/-- A response of an operation. -/
structure Response where
  status : String
  typeExpression : String := "void"
  description : Option String := none
  /-- Whether the type was made up for a schema in place. -/
  inPlace : Bool := false
deriving DecidableEq, Repr, Inhabited

namespace Response

/-- Whether the response tells success. -/
def isSuccess (r : Response) : Bool :=
  Text.beginsWith "2" r.status

/-- The number of a status of digits; digits that are no numeral are a fault. -/
def statusCode (r : Response) : Except Fault (Option Nat) :=
  if Text.allDigits r.status.toList then
    match Text.natural? r.status.toList with
    | some n => .ok (some n)
    | none => .error .notANumeral
  else .ok none

end Response

/-! ## Operations -/

/-- An operation of an API. -/
structure Endpoint where
  method : Method
  path : String
  operationName : String
  summary : Option String := none
  description : Option String := none
  deprecated : Bool := false
  tags : List String := []
  parameters : List Parameter := []
  body : Option Body := none
  /-- The parameters and the body in the order of the arguments of the method. -/
  arguments : List Parameter := []
  responses : List Response := []
  returnType : String := "void"
  /-- The status to answer with when it is not the usual one. -/
  forcedStatus : Option Int := none
deriving DecidableEq, Repr, Inhabited

/-- A class with a method per operation that answers requests. -/
structure Controller where
  className : String
  resourceName : String
  tags : List String := []
  endpoints : List Endpoint := []
  dtoImports : List String := []
deriving DecidableEq, Repr, Inhabited

/-- A class with a method per operation that does the work. -/
structure Service where
  className : String
  resourceName : String
  endpoints : List Endpoint := []
  dtoImports : List String := []
deriving DecidableEq, Repr, Inhabited

end ApiScaffold
