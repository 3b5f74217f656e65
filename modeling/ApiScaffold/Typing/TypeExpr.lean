import ApiScaffold.Model.Constraint
import ApiScaffold.Text.Cut

set_option autoImplicit false

/-! # Type expressions

The type of a property, a body or a response, as it is built from schemas and as it is written. -/

namespace ApiScaffold

/-- A type of the generated code. -/
inductive TypeExpr where
  | named (name : String)
  | list (item : TypeExpr)
  /-- A list of the class that was made up for its items. -/
  | listOfClass (name : String)
  | union (members : List TypeExpr)
  /-- An object with any keys and values of one type. -/
  | record (value : TypeExpr)
deriving Repr, Inhabited

namespace TypeExpr

/-- The type of anything. -/
def any : TypeExpr := .named "any"

mutual

/-- The text of a type. The items of a list stand in round brackets when their text looks like a
union. -/
def text : TypeExpr → String
  | .named name => name
  | .list item =>
    let inner := item.text
    if Text.holds " | " inner then "(" ++ inner ++ ")[]" else inner ++ "[]"
  | .listOfClass name => name ++ "[]"
  | .union members => " | ".intercalate (texts members)
  | .record value => "Record<string, " ++ value.text ++ ">"

/-- The texts of some types. -/
def texts : List TypeExpr → List String
  | [] => []
  | t :: ts => t.text :: texts ts

end

theorem text_named (name : String) : (named name).text = name := rfl

theorem text_list (item : TypeExpr) :
    (list item).text =
      if Text.holds " | " item.text then "(" ++ item.text ++ ")[]" else item.text ++ "[]" := rfl

theorem text_listOfClass (name : String) : (listOfClass name).text = name ++ "[]" := rfl

theorem text_union (members : List TypeExpr) :
    (union members).text = " | ".intercalate (texts members) := rfl

theorem text_record (value : TypeExpr) :
    (record value).text = "Record<string, " ++ value.text ++ ">" := rfl

theorem texts_eq_map (types : List TypeExpr) : texts types = types.map text := by
  induction types with
  | nil => rfl
  | cons t types ih => rw [texts, ih, List.map_cons]

/-- Types without those whose text has been seen before, in the order of first sight. -/
def distinct (types : List TypeExpr) : List TypeExpr :=
  types.foldl (fun kept t => if kept.any (·.text == t.text) then kept else kept ++ [t]) []

end TypeExpr

/-- What a schema says about a value: its type, what it must satisfy, and for lists the type of
their items. -/
structure MappedType where
  type : TypeExpr
  constraints : List Constraint := []
  itemType : Option TypeExpr := none
  enumValues : List Excerpt := []
deriving Inhabited

namespace MappedType

/-- Nothing is known. -/
def any : MappedType := { type := .any }

/-- A value of a class. -/
def ofClass (name : String) : MappedType :=
  { type := .named name, constraints := Constraint.ofClass name false }

/-- Whether the text of the type ends like that of a list. -/
def isArray (m : MappedType) : Bool :=
  Text.finishesWith "[]" m.type.text

end MappedType

end ApiScaffold
