import ApiScaffold.Toml.Lines
import ApiScaffold.Toml.Value

set_option autoImplicit false

/-! # Reading TOML

A line in square brackets opens a group of settings, a line in braces adds the settings of a table,
and a line with an equals sign makes a setting; other lines say nothing. The lines of a text that is
open belong to it until one closes it. -/

namespace ApiScaffold.Toml

/-! ## The line in front of a group -/

/-- Whether a name needs no quotes. -/
def isBareName (name : List Char) : Bool :=
  !name.isEmpty && name.all fun c => c.isAlphanum || c = '_' || c = '-'

/-- The names of a group, given in pieces between points. A name in quotes goes on over points until
its quote comes again; `front` is what was read of one. -/
def groupNames : Option (List Char) → List (List Char) → Except Flaw (List String)
  | none, [] => .ok []
  | some _, [] => .error .malformed
  | front, piece :: rest => do
    let whole :=
      match front with
      | some before => before ++ '.' :: piece
      | none => Text.trim Text.isBlank piece
    let name := Text.trim Text.isBlank whole
    let quote := name.head?.getD ' '
    if front.isSome || quote = '"' || quote = '\'' then
      if name.length != 1 && name.getLast? = some quote then
        return String.ofList (inner name) :: (← groupNames none rest)
      else groupNames (some whole) rest
    else if isBareName name then return String.ofList name :: (← groupNames none rest)
    else throw .malformed

/-- The names of the group that a line opens, and whether it belongs to a list of tables. -/
def groupOf (line : List Char) : Except Flaw (Bool × List String) := do
  let (listed, mark, text) :=
    match line with
    | '[' :: '[' :: text => (true, [']', ']'], text)
    | _ => (false, [']'], line.drop 1)
  let pieces := Text.cut mark text
  let count := 1 + hiddenCount mark false (piecesByQuotes text)
  let behind := List.intercalate mark (pieces.drop count)
  if pieces.length ≤ count || !(Text.trim Text.isBlank behind).isEmpty then throw .malformed
  return (listed, ← groupNames none (Text.cut ['.'] (List.intercalate mark (pieces.take count))))

/-! ## Lines -/

/-- What the lines have made so far. -/
structure Settings where
  root : Json := .obj []
  unnamed : List String := []
  /-- The steps to the table of the group. -/
  group : List Step := []
  text : Option OpenText := none
deriving Inhabited

/-- Do something to the table of the group. -/
def Settings.inGroup {α : Type} (s : Settings) (act : Json → Except Flaw (Json × α)) :
    Except Flaw (Settings × α) := do
  let (root, result) ← following act s.group s.root
  return ({ s with root }, result)

/-- Whether a line closes an open text that it belongs to. -/
def closesText (text line : List Char) : Except Flaw Bool :=
  match text with
  | '[' :: _ => do return (← requireChar line.getLast?) = ']'
  | quote :: _ => .ok (2 < line.length && (line.reverse.take 3).all (· = quote))
  | [] => .error .beyondEnd

/-- Take in a line of a text that is open. -/
def Settings.addToText (s : Settings) (o : OpenText) (line : List Char) : Except Flaw Settings := do
  let line := if o.joins || !o.sofar.contains '\n' then Text.trim Text.isBlank line else line
  if line.isEmpty && o.joins then return s
  let text := o.sofar ++ line
  if ← closesText text line then
    let item ← readItem (fuelFor text) true text
    let (s, _) ← s.inGroup fun table =>
      match table with
      | .obj fields => .ok (.obj (Json.insertField o.name item.value fields), ())
      | _ => .error .notATable
    return { s with text := none }
  else return { s with text := some (.goOn o.name text) }

/-- Take in a line. -/
def Settings.add (s : Settings) (line : List Char) : Except Flaw Settings := do
  match s.text with
  | some o => s.addToText o line
  | none =>
    let line := Text.trim Text.isBlank line
    match line with
    | [] => return s
    | ['['] => throw .malformed
    | '[' :: _ =>
      let (listed, names) ← groupOf line
      let o ← openGroup listed names s.root s.unnamed
      return { s with root := o.value, unnamed := o.unnamed, group := o.steps }
    | '\x7b' :: _ =>
      if line.getLast? != some '\x7d' then throw .malformed
      let pieces ← tablePieces line
      let (s, _) ← s.inGroup fun table => do
        return (← readSettings (fuelFor line) table pieces, ())
      return s
    | _ =>
      if !line.contains '=' then return s
      let (s, text) ← s.inGroup (readSetting (fuelFor line) line)
      return { s with text }

/-- The settings that a text makes, as the fields of an object. -/
def read (text : String) : Except Flaw Fields := do
  let settings ← (← lines text.toList).foldlM Settings.add {}
  match settings.root with
  | .obj fields => return fields
  | _ => throw .malformed

example : (read "a = 'x' # note\n[t.u]\nb = -1_0\n[[l]]\nc = \"\"\"\none\n\"\"\"\n").toOption =
    some [("a", .str "x"), ("t", .obj [("u", .obj [("b", .int (-10))])]),
      ("l", .arr [.obj [("c", .str "one\n")]])] := by
  decide +kernel

example : (read "a = 1\na = 2\n").toOption = none ∧ (read "a = \n").toOption = none ∧
    (read "a = maybe\n").toOption = none := by
  decide +kernel

end ApiScaffold.Toml
