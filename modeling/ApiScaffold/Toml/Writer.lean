import ApiScaffold.Fault
import ApiScaffold.Json.Value
import ApiScaffold.Text.Cut

set_option autoImplicit false

/-! # Writing TOML

Settings are written one a line, key, equals sign and value. A setting whose value is an object
becomes a table behind the others, and one that lists objects becomes a list of tables.

Texts stand in double quotes, with escapes for what has no sign of its own. An escape with two
digits does not survive: it loses its backslash, and the next piece of the text follows. -/

namespace ApiScaffold.Toml

/-! ## Texts -/

/-- How many characters at the end of a text are backslashes. -/
def backslashesBehind (text : List Char) : Nat :=
  (text.reverse.takeWhile (· = '\\')).length

/-- What stands in place of the mark of an escape with two digits, by the text in front of it. Where
backslashes escape the mark itself, the escape gets four digits. -/
def hexMark (front : List Char) : List Char :=
  let count := backslashesBehind front
  let keeps :=
    if count = 0 then true
    else if count < front.length then count % 2 = 1
    else count % 2 = 0
  if keeps then ['x'] else ['u', '0', '0']

/-- Pieces of an escaped text, cut at the marks of escapes with two digits, put together again. An
empty piece in front is dropped; two pieces are needed to put any together. -/
def joinAtHexMarks : Nat → List (List Char) → Except Fault (List Char)
  | 0, _ => .error .beyondEnd
  | _, [] => .error .beyondEnd
  | _, [piece] => .ok piece
  | fuel + 1, piece :: rest =>
    match if piece.isEmpty then rest else piece :: rest with
    | front :: next :: others =>
      if front.isEmpty then .error .beyondEnd
      else
        let front := Text.replace ['\\', '\\'] ['\\'] front
        joinAtHexMarks fuel ((front ++ hexMark front ++ next) :: others)
    | _ => .error .beyondEnd

/-- A text in double quotes. -/
def quoted (s : String) : Except Fault String := do
  let pieces := Text.cut ['\\', 'x'] (s.toList.flatMap (Json.quotedChar '"'))
  return String.ofList ('"' :: (← joinAtHexMarks pieces.length pieces) ++ ['"'])

/-- A key: as it is, or in quotes unless it is made of Latin letters, digits, underscores and
hyphens. -/
def writtenKey (key : String) : Except Fault String :=
  let isBare (c : Char) : Bool := c.isAlphanum || c = '_' || c = '-'
  if key != "" && key.toList.all isBare then .ok key else quoted key

/-! ## Values -/

/-- A number with no zero in front of its exponent. -/
def shortExponent : List Char → List Char
  | 'e' :: '+' :: '0' :: rest => 'e' :: '+' :: rest
  | 'e' :: '-' :: '0' :: rest => 'e' :: '-' :: rest
  | c :: rest => c :: shortExponent rest
  | [] => []

mutual

/-- A value of a setting. In a list an object counts for its keys, and null for its word. -/
def writeValue : Json → Except Fault String
  | .null => .ok (String.ofList ('"' :: Json.null.inspect.toList ++ ['"']))
  | .bool b => .ok (if b then "true" else "false")
  | .int n => .ok (toString n)
  | .float x => .ok (String.ofList (shortExponent (Json.runningNumbers.text x).toList))
  | .str s => quoted s
  | .arr items => do return "[" ++ String.join (← writeItems items) ++ "]"
  | .obj fields => do
    return "[" ++ String.join (← fields.mapM fun f => do return " " ++ (← quoted f.1) ++ ",") ++ "]"

/-- The items of a list. -/
def writeItems : List Json → Except Fault (List String)
  | [] => .ok []
  | x :: rest => do
    let item ← writeValue x
    return (" " ++ item ++ ",") :: (← writeItems rest)

end

/-! ## Tables -/

/-- Whether a value lists objects. -/
def listsObjects : Json → Bool
  | .arr items => items.any fun item =>
    match item with
    | .obj _ => true
    | _ => false
  | _ => false

/-- The lines of a table: its simple settings, then its lists of tables. `path` is the name of the
table with a point behind it; the tables inside are left for later. -/
def tableText : Nat → String → Fields → Except Fault String
  | 0, _, _ => .error .endless
  | fuel + 1, path, fields => do
    let lines ← fields.filterMapM fun f => do
      match f.2 with
      | .null | .obj _ => return none
      | value =>
        if listsObjects value then return none
        return some ((← writtenKey f.1) ++ " = " ++ (← writeValue value) ++ "\n")
    let lists ← fields.filterMapM fun f => do
      match f.2 with
      | .arr items =>
        if !listsObjects f.2 then return none
        let name := path ++ (← writtenKey f.1)
        let tables ← items.mapM fun item => do
          match item with
          | .obj inner =>
            return "[[" ++ name ++ "]]\n" ++ (← tableText fuel (name ++ ".") inner) ++ "\n"
          | _ => throw .unfit
        return some (String.join tables)
      | _ => return none
    return String.join (lines ++ lists)

/-- The tables inside of a table, with their names. -/
def innerTables (path : String) (fields : Fields) : Except Fault (List (String × Fields)) :=
  fields.filterMapM fun f => do
    match f.2 with
    | .obj inner => return some (path ++ (← writtenKey f.1), inner)
    | _ => return none

/-- Add a table to a text, behind an empty line. A table that only holds tables has no line of its
own. -/
def addTable (fuel : Nat) (text : String) (table : String × Fields) : Except Fault String := do
  let (name, fields) := table
  let body ← tableText fuel (name ++ ".") fields
  if body = "" && !(← innerTables "" fields).isEmpty then return text
  let gap := if text = "" || Text.finishesWith "\n\n" text then "" else "\n"
  return text ++ gap ++ "[" ++ name ++ "]\n" ++ body

/-- Add tables to a text, and then the tables inside of them; `fuel` bounds the depth. -/
def addTables : Nat → String → List (String × Fields) → Except Fault String
  | 0, text, _ => .ok text
  | _, text, [] => .ok text
  | fuel + 1, text, tables => do
    let text ← tables.foldlM (addTable (fuel + 1)) text
    let inner ← tables.mapM fun t => innerTables (t.1 ++ ".") t.2
    addTables fuel text inner.flatten

/-- The text that makes some settings. -/
def write (fields : Fields) : Except Fault String := do
  let depth := Json.sizeFields fields + 1
  addTables depth (← tableText depth "" fields) (← innerTables "" fields)

example : (quoted "a\x1b[0m\\").toOption = some "\"ax1b[0m\\\\\"" ∧
    (quoted "\x1b").toOption = none ∧
    (quoted "it's \"x\"").toOption = some "\"it's \\\"x\\\"\"" := by
  decide +kernel

end ApiScaffold.Toml
