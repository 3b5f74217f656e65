import ApiScaffold.Endpoint.Basic
import ApiScaffold.Model.Basic
import ApiScaffold.Text.Fold

set_option autoImplicit false

/-! # What a method takes and gives

The order of the arguments of a method, the type that it returns, the status that it answers with,
and the classes that a file of methods imports. -/

namespace ApiScaffold

/-! ## Arguments -/

/-- Whether one argument stands before another or may stand on either side of it: required ones come
first, then the rank of the kind counts, then the name in any case. -/
def Parameter.notAfter (a b : Parameter) : Bool :=
  if a.required != b.required then a.required
  else if a.kind.rank != b.kind.rank then a.kind.rank < b.kind.rank
  else String.ofList (Text.fold a.name.toList) ≤ String.ofList (Text.fold b.name.toList)

/-- Arguments in their order; those that may stand either way keep the order given. -/
def Parameter.ordered (parameters : List Parameter) : List Parameter :=
  parameters.mergeSort Parameter.notAfter

/-! ## Types -/

/-- Types that are no classes. -/
def plainTypes : List String := ["string", "number", "boolean", "object", "any", "void"]

/-- The names in a type: the members of a union, without brackets. -/
def unionMembers (typeExpression : String) : List String :=
  let names := (Text.pieces " | " typeExpression).map fun piece =>
    String.ofList (Text.trim Text.isBlank
      (piece.toList.filter fun c => c != '(' && c != ')' && c != '[' && c != ']'))
  firsts (names.filter (· != ""))

/-- The type expressions that an endpoint returns, answers and takes as its body. -/
def Endpoint.typeExpressions (e : Endpoint) : List String :=
  e.returnType :: e.responses.map (·.typeExpression) ++
    (e.body.map (·.typeExpression)).toList

/-- The classes that some endpoints use, in order. -/
def dtoImports (endpoints : List Endpoint) : List String :=
  let names := endpoints.flatMap fun e => e.typeExpressions.flatMap unionMembers
  sortedFirsts (names.filter fun n => !plainTypes.contains n && !Text.beginsWith "Record<" n)

/-- The type that a method returns: the union of the types of its responses. Errors count only when
asked for; a response without a body, or with one of any type, counts only if there is no other. -/
def returnType (includeErrors : Bool) (responses : List Response) : String :=
  let considered := responses.filter fun r => includeErrors || r.isSuccess
  let types := firsts <|
    (considered.map (·.typeExpression)).filter fun t => t != "void" && t != "any"
  if types.isEmpty then
    if considered.any (·.typeExpression != "void") then "any" else "void"
  else " | ".intercalate types

/-- The status to answer with, if the first success is neither 200 nor 201. -/
def forcedStatus (responses : List Response) : Except Fault (Option Nat) :=
  match responses.find? (·.isSuccess) with
  | none => .ok none
  | some r => do
    match ← r.statusCode with
    | some code => return if code = 200 || code = 201 then none else some code
    | none => return none

end ApiScaffold
