import ApiScaffold.Json.Value
import ApiScaffold.Json.Writer

set_option autoImplicit false

/-! # YAML values

What a YAML text stands for. Unlike in JSON, the keys of a table can be numbers, truth values, null
and dates. `Yaml.toJson` writes such keys as the text that JSON has for them, and dates as text.

Two marks have a meaning as keys alone: `<<` takes over the entries of other tables, which those of
its own table then overrule, and `=` is a text there. -/

namespace ApiScaffold

/-- A YAML value. -/
inductive Yaml where
  /-- A text, a number, a truth value or null. -/
  | scalar (value : Json)
  /-- A date, perhaps with a time. -/
  | moment (text : String)
  /-- The mark `<<`. -/
  | mergeMark
  /-- The mark `=`. -/
  | valueMark
  | list (items : List Yaml)
  | table (entries : List (Yaml × Yaml))
deriving Repr, Inhabited

namespace Yaml

/-- Nothing. -/
def nothing : Yaml := .scalar .null

/-- Whether two keys are one: numbers and truth values count by what they are worth. -/
def sameKey : Yaml → Yaml → Bool
  | .scalar a, .scalar b => a.sameScalar b
  | .moment a, .moment b => a == b
  | _, _ => false

/-- Whether something can be a key. -/
def canBeKey : Yaml → Bool
  | .scalar _ | .moment _ => true
  | _ => false

/-- Whether something is a value: the marks are none. -/
def isValue : Yaml → Bool
  | .mergeMark | .valueMark => false
  | _ => true

/-- Give a key a value: a key that is there keeps its place, a new one comes last. -/
def putEntry (key value : Yaml) : List (Yaml × Yaml) → List (Yaml × Yaml)
  | [] => [(key, value)]
  | e :: rest => if sameKey e.1 key then (e.1, value) :: rest else e :: putEntry key value rest

/-- The list of some items, if all of them are values. -/
def list? (items : List Yaml) : Option Yaml :=
  if items.all isValue then some (.list items) else none

/-- The entries of a table. -/
def entries? : Yaml → Option (List (Yaml × Yaml))
  | .table entries => some entries
  | _ => none

/-- The settings that are taken over from a table, or from a list of tables, of which an earlier one
overrules a later one. -/
def takenOver? : Yaml → Option (List (Yaml × Yaml))
  | .list items => (items.reverse.mapM entries?).map List.flatten
  | v => v.entries?

/-- The table that a list of settings leaves, if all keys can be keys and all values are values.
What is taken over from other tables comes first. -/
def table? (settings : List (Yaml × Yaml)) : Option Yaml := do
  let isMerge (s : Yaml × Yaml) : Bool :=
    match s.1 with
    | .mergeMark => true
    | _ => false
  let own := (settings.filter (!isMerge ·)).map fun s =>
    match s.1 with
    | .valueMark => (.scalar (.str "="), s.2)
    | _ => s
  let taken ← (settings.filter isMerge).mapM fun s => takenOver? s.2
  let all := taken.flatten ++ own
  if all.all fun s => s.1.canBeKey && s.2.isValue then
    some (.table (all.foldl (fun known s => putEntry s.1 s.2 known) []))
  else none

/-- A text with the halves of surrogate pairs that meet joined, as reading JSON joins them. -/
def joined (s : String) : String :=
  String.ofList (Text.joinHalves s.toList)

/-- The text that JSON has for a key. -/
def keyText : Yaml → String
  | .scalar (.str s) => joined s
  | .scalar v => v.write .dense
  | .moment text => text
  | _ => ""

mutual

/-- The value with dates as texts, and all keys as texts. -/
def toJson : Yaml → Json
  | .scalar (.str s) => .str (joined s)
  | .scalar v => v
  | .moment text => .str text
  | .mergeMark | .valueMark => .null
  | .list items => .arr (itemsToJson items)
  | .table entries => .obj (Json.settle (entriesToJson entries))

/-- The items of a list as JSON. -/
def itemsToJson : List Yaml → List Json
  | [] => []
  | x :: rest => toJson x :: itemsToJson rest

/-- The entries of a table as fields. -/
def entriesToJson : List (Yaml × Yaml) → Fields
  | [] => []
  | (key, value) :: rest => (keyText key, toJson value) :: entriesToJson rest

end

mutual

/-- Whether a date is a key somewhere, which JSON has no text for. -/
def hasMomentKey : Yaml → Bool
  | .list items => itemsHaveMomentKey items
  | .table entries => entriesHaveMomentKey entries
  | _ => false

/-- Whether a date is a key in some item. -/
def itemsHaveMomentKey : List Yaml → Bool
  | [] => false
  | x :: rest => hasMomentKey x || itemsHaveMomentKey rest

/-- Whether a date is one of some keys, or a key in some of their values. -/
def entriesHaveMomentKey : List (Yaml × Yaml) → Bool
  | [] => false
  | (key, value) :: rest =>
    (match key with
      | .moment _ => true
      | _ => false) || hasMomentKey value || entriesHaveMomentKey rest

end

end Yaml

end ApiScaffold
