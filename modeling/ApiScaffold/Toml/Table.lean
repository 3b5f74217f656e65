import ApiScaffold.Json.Value
import ApiScaffold.Toml.Flaw

set_option autoImplicit false

/-! # Tables of settings

A table is an object. Names lead from a table to those inside of it, which are made as they are
named. The line in front of a group of settings names the table that they go to; a table of a list
of tables is the last one of the list. -/

namespace ApiScaffold.Toml

/-! ## Settings in a table -/

/-- Do something to the table that some names lead to; empty names lead nowhere, and tables that are
missing are made. -/
def within {α : Type} (act : Json → Except Flaw (Json × α)) :
    List String → Json → Except Flaw (Json × α)
  | [], table => act table
  | name :: rest, table =>
    match table with
    | .obj fields => do
      let (inner, result) ← within act rest ((fields.lookup name).getD (.obj []))
      return (.obj (Json.insertField name inner fields), result)
    | _ => .error .notATable

/-- Give a name that is not taken a value. -/
def setOnce (name : String) (value : Json) : Json → Except Flaw Json
  | .obj fields =>
    if (fields.lookup name).isSome then .error .malformed
    else .ok (.obj (fields ++ [(name, value)]))
  | _ => .error .malformed

/-! ## The table of a group -/

/-- A step to a value inside of another. -/
inductive Step where
  | field (name : String)
  /-- To the last item of a list; any other value is stepped to itself. -/
  | last
deriving DecidableEq, Repr, Inhabited

/-- Do something to the value that some steps lead to. -/
def following {α : Type} (act : Json → Except Flaw (Json × α)) :
    List Step → Json → Except Flaw (Json × α)
  | [], value => act value
  | .field name :: rest, .obj fields => do
    let (inner, result) ← following act rest ((fields.lookup name).getD (.obj []))
    return (.obj (Json.insertField name inner fields), result)
  | .field _ :: _, _ => .error .notATable
  | .last :: rest, .arr items => do
    match items.getLast? with
    | none => throw .beyondEnd
    | some item =>
      let (item, result) ← following act rest item
      return (.arr (items.dropLast ++ [item]), result)
  | .last :: rest, value => following act rest value

/-- The values with the table of a group in them, as far as they are known. -/
structure Opening where
  value : Json
  /-- The names of the tables that no line has named on its own. -/
  unnamed : List String
  /-- The steps from the value to the table of the group. -/
  steps : List Step := []
deriving Inhabited

/-- What stands in a table under a name: the value there, changed if the name is the last one of a
group, or something new. `listed` tells that the group is in a list of tables. -/
def atName (listed isLast : Bool) (name : String) (fields : Fields) (unnamed : List String) :
    Except Flaw (Json × List String) :=
  match fields.lookup name with
  | some inner =>
    if !isLast then .ok (inner, unnamed)
    else if unnamed.contains name then
      if listed then .error .malformed else .ok (inner, unnamed.erase name)
    else if listed then
      match inner with
      | .arr items => .ok (.arr (items ++ [.obj []]), unnamed)
      | _ => .error .notAList
    else .error .malformed
  | none =>
    if isLast then .ok (if listed then .arr [.obj []] else .obj [], unnamed)
    else .ok (.obj [], unnamed ++ [name])

/-- Go on from the last part of a value; a table has none and stays what it is. -/
def throughLast (go : Json → Except Flaw Opening) (value : Json) : Except Flaw Opening :=
  match value with
  | .arr items =>
    match items.getLast? with
    | some item => do
      let o ← go item
      return { o with value := .arr (items.dropLast ++ [o.value]), steps := .last :: o.steps }
    | none => .error .beyondEnd
  | .str s => if s = "" then .error .beyondEnd else go value
  | .obj _ => go value
  | _ => .error .notATable

/-- Open the table that some names lead to. A name that comes to a list goes on from its last
table. -/
def openGroup (listed : Bool) : List String → Json → List String → Except Flaw Opening
  | [], value, unnamed => .ok { value, unnamed }
  | name :: rest, value, unnamed =>
    let enter (fields : Fields) (inner : Json) (unnamed : List String) : Except Flaw Opening := do
      let go (v : Json) := openGroup listed rest v unnamed
      let o ← if listed then throughLast go inner else go inner
      return { o with
        value := .obj (Json.insertField name o.value fields), steps := .field name :: o.steps }
    if name = "" then .error .malformed
    else
      match value with
      | .obj fields => do
        let (inner, unnamed) ← atName listed rest.isEmpty name fields unnamed
        enter fields inner unnamed
      | .arr _ | .str "" =>
        throughLast (fun item =>
          match item with
          | .obj fields =>
            let new := if listed && rest.isEmpty then .arr [.obj []] else .obj []
            enter fields ((fields.lookup name).getD new) unnamed
          | _ => .error .notATable) value
      | _ => .error .notATable

example : ((openGroup true ["a", "b"] (.obj [("a", .arr [.obj []])]) []).toOption.map
    (·.value)) = some (.obj [("a", .arr [.obj [("b", .arr [.obj []])]])]) := by
  decide +kernel

end ApiScaffold.Toml
