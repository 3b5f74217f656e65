import ApiScaffold.Toml.Key
import ApiScaffold.Toml.Table

set_option autoImplicit false

/-! # Values of settings

A value is a text in quotes, a list, a table in braces, a truth value, a time, a date or a number.
The items of a list are of one kind. A table in braces holds settings; one of them may begin a text
of several lines, which then ends the table and is lost. -/

namespace ApiScaffold.Toml

/-- The kinds of values. -/
inductive Kind where
  | truth
  | whole
  | real
  | text
  | list
  | table
  | time
  | date
deriving DecidableEq, Repr, Inhabited

/-- A value and its kind. Dates and times are kept as they are written. -/
structure Item where
  kind : Kind
  value : Json
deriving Inhabited

/-- A text of several lines whose end is yet to come. -/
structure OpenText where
  name : String
  /-- What was read, quotes included. -/
  sofar : List Char
  /-- The last line ended with a backslash, so that the next one goes on behind it. -/
  joins : Bool
deriving Repr, Inhabited

/-! ## Texts of several lines -/

/-- What is inside of the brackets of a text. -/
def inner (text : List Char) : List Char :=
  (text.drop 1).dropLast

/-- Whether a list begins with a text. -/
def listsTexts (text : List Char) : Bool :=
  match Text.trim Text.isBlank (inner text) with
  | c :: _ => c = '"' || c = '\''
  | [] => false

/-- The pieces of a list, the last one first, without those at its end that are empty, each of which
takes the one in front with it. -/
def dropEmptyEnds : List (List Char) → List (List Char)
  | [] :: _ :: rest => dropEmptyEnds rest
  | pieces => pieces

/-- Whether the text of a value leaves three quotes open: at its front, or in front of its last
piece if it is a list that is not closed. -/
def leavesOpen (text : List Char) : Except Flaw Bool := do
  if text.length < 3 then return false
  let isOpenList := text.head? = some '[' &&
    (Text.trim Text.isBlank text).getLast? != some ']' && listsTexts text
  let piece ←
    if isOpenList then
      let pieces := Text.cut [','] (Text.trim Text.isBlank (text.drop 1))
      match dropEmptyEnds pieces.reverse with
      | piece :: _ => pure piece
      | [] => throw .beyondEnd
    else pure text
  let quote ← requireChar piece.head?
  if quote != '"' && quote != '\'' then return false
  if (← requireChar piece[1]?) != quote then return false
  if (← requireChar piece[2]?) != quote then return false
  return !(5 < piece.length && (piece.reverse.take 3).all (· = quote))

/-- Go on with a text of several lines behind a line. -/
def OpenText.goOn (name : String) (text : List Char) : OpenText :=
  if endsEscaped text then { name, sofar := text.dropLast, joins := true }
  else { name, sofar := text ++ ['\n'], joins := false }

/-! ## Pieces of lists and tables -/

/-- Whether the text of an item begins and ends with the same quote. -/
def isBounded (text : List Char) : Bool :=
  match text with
  | [] => true
  | first :: rest =>
    match rest.reverse with
    | [] => true
    | last :: before => last = first && !endsEscaped before.reverse

/-- Whether the text of an item is closed, also if it begins with three quotes. -/
def isWholeText (text : List Char) : Bool :=
  isBounded text &&
    match text, text.reverse with
    | a :: b :: c :: _, _ :: y :: z :: _ => !(a = b && b = c && y != a && z != a)
    | _, _ => true

/-- The pieces of a list of texts, with those joined that a comma in a text divides. -/
def joinTexts : List Char → List (List Char) → Except Flaw (List (List Char))
  | _, [] => .ok []
  | front, piece :: rest =>
    let whole := front ++ piece
    if front.isEmpty && rest.isEmpty then .ok [whole]
    else if isWholeText (Text.trim Text.isBlank whole) then do
      return whole :: (← joinTexts [] rest)
    else if rest.isEmpty then .error .beyondEnd
    else joinTexts (whole ++ [',']) rest

/-- The pieces of a text between the commas that stand in no brackets; `depth` counts the open
ones. -/
def cutOutside : Int → List Char → List Char → List (List Char)
  | _, piece, [] => [piece.reverse]
  | depth, piece, c :: rest =>
    if c = ',' && depth = 0 then piece.reverse :: cutOutside depth [] rest
    else
      cutOutside (if c = '[' then depth + 1 else if c = ']' then depth - 1 else depth) (c :: piece)
        rest

/-- Where a walk through a list of tables is. -/
inductive Between where
  /-- In a table; what was read of it, the last character first. -/
  | inside (sofar : List Char)
  /-- Right behind a table. -/
  | behind
  /-- In front of the next table. -/
  | before
deriving Repr, Inhabited

/-- The tables of a list, told by their braces; `passed` is what was read, the last character first,
`depth` counts the open braces, and `quoted` tells that a quote is open. -/
def cutTables (passed : List Char) (depth : Nat) (quoted : Bool) :
    Between → List Char → List (List Char)
  | _, [] => []
  | .behind, c :: rest => cutTables (c :: passed) depth quoted .before rest
  | .before, c :: rest =>
    cutTables (c :: passed) depth quoted (if c = '\x7b' then .inside [c] else .before) rest
  | .inside sofar, c :: rest =>
    let quoted := if c = '"' || c = '\'' then !(quoted && !endsEscaped passed.reverse) else quoted
    if !quoted && c = '\x7d' && depth ≤ 1 then
      (c :: sofar).reverse :: cutTables (c :: passed) depth quoted .behind rest
    else
      let depth :=
        if quoted then depth
        else if c = '\x7b' then depth + 1
        else if c = '\x7d' then depth - 1
        else depth
      cutTables (c :: passed) depth quoted (.inside (c :: sofar)) rest

/-- The pieces of a list, by what it begins with. -/
def listPieces (text : List Char) : Except Flaw (List (List Char)) :=
  let items := inner text
  let front := Text.trim Text.isBlank (items.takeWhile (· != '['))
  if items.contains '[' && front.isEmpty then .ok (cutOutside 0 [] items)
  else
    match Text.trim Text.isBlank items, items with
    | '\x7b' :: _, c :: rest =>
      .ok (cutTables [c, '['] (if c = '\x7b' then 1 else 0) false (.inside [c]) rest)
    | _, _ =>
      if listsTexts text then joinTexts [] (Text.cut [','] items) else .ok (Text.cut [','] items)

/-- Whether a text can be the value of a setting of a table in braces. -/
def endsWell (text : List Char) : Except Flaw Bool :=
  match text, text.getLast? with
  | first :: _, some last =>
    .ok <| (first = last && (first = '"' || first = '\'')) || first = '-' || first.isDigit ||
      ["true", "false"].contains (String.ofList text) ||
      (first = '[' && last = ']') || (first = '\x7b' && last = '\x7d')
  | _, _ => .error .beyondEnd

/-- The settings of a table in braces, with the pieces joined that a comma in a value divides. -/
def joinSettings : List Char → List (List Char) → Except Flaw (List (List Char))
  | _, [] => .ok []
  | front, piece :: rest => do
    let whole := front ++ piece
    if !whole.contains '=' then throw .malformed
    let value := Text.trim Text.isBlank ((whole.dropWhile (· != '=')).drop 1)
    if ← endsWell value then return whole :: (← joinSettings [] rest)
    else if rest.isEmpty then throw .malformed
    else joinSettings (whole ++ [',']) rest

/-- The settings of a table in braces. -/
def tablePieces (text : List Char) : Except Flaw (List (List Char)) :=
  match Text.cut [','] (inner text) with
  | [piece] => if (Text.trim Text.isBlank piece).isEmpty then .ok [] else joinSettings [] [piece]
  | pieces => joinSettings [] pieces

/-! ## Reading -/

mutual

/-- A value; `strict` tells that it keeps the rules for numerals, and `fuel` bounds its depth. -/
def readItem : Nat → Bool → List Char → Except Flaw Item
  | 0, _, _ => .error .malformed
  | fuel + 1, strict, text => do
    let first ← require text.head?
    if text = "true".toList then return ⟨.truth, .bool true⟩
    if text = "false".toList then return ⟨.truth, .bool false⟩
    if first = '"' || first = '\'' then return ⟨.text, .str (← readQuoted first text)⟩
    if first = '[' then
      return ⟨.list, .arr (← readItems fuel none (← listPieces (Text.trim Text.isBlank text)))⟩
    if first = '\x7b' then
      return ⟨.table, ← readSettings fuel (.obj []) (← tablePieces text)⟩
    match clock? text with
    | some (hour, minute, second) =>
      if Calendar.isTime hour minute second then return ⟨.time, .str (String.ofList text)⟩
      else throw .malformed
    | none =>
      if isDate text then return ⟨.date, .str (String.ofList text)⟩
      if !strict then throw .malformed
      let number ← require (number? text)
      match number with
      | .float _ => return ⟨.real, number⟩
      | _ => return ⟨.whole, number⟩

/-- The items of a list, all of a kind; empty pieces do not count. -/
def readItems : Nat → Option Kind → List (List Char) → Except Flaw (List Json)
  | _, _, [] => .ok []
  | 0, _, _ => .error .malformed
  | fuel + 1, kind, piece :: rest => do
    let text := Text.trim Text.isBlank piece
    if text.isEmpty then readItems fuel kind rest
    else
      let item ← readItem fuel true text
      if kind.any (· != item.kind) then throw .malformed
      return item.value :: (← readItems fuel (some item.kind) rest)

/-- A table with some settings added, up to one that leaves a text open. -/
def readSettings : Nat → Json → List (List Char) → Except Flaw Json
  | _, table, [] => .ok table
  | 0, _, _ => .error .malformed
  | fuel + 1, table, line :: rest => do
    let (table, left) ← readSetting fuel line table
    if left.isSome then return table else readSettings fuel table rest

/-- A table with the setting of a line added, or else the text that the line leaves open. -/
def readSetting : Nat → List Char → Json → Except Flaw (Json × Option OpenText)
  | 0, _, _ => .error .malformed
  | fuel + 1, line, table => do
    let a ← Assignment.ofLine line
    within (fun table => do
      if ← leavesOpen a.text then
        let _ ← setOnce a.name .null table
        if a.name = "" then throw .nameless
        return (table, some (.goOn a.name a.text))
      else
        let item ← readItem fuel a.strict a.text
        return (← setOnce a.name item.value table, none)) a.tables table

end

/-- How deep the values in a text can be, and how many there can be in a row. -/
def fuelFor (text : List Char) : Nat :=
  3 * text.length + 4

example : ((readItem 99 true "[[1, 2], ['a,b']]".toList).toOption.map (·.value)) =
    some (.arr [.arr [.int 1, .int 2], .arr [.str "a,b"]]) := by
  decide +kernel

example : ((readItem 99 true "[\x7ba = 1\x7d, \x7bb = 'x'\x7d]".toList).toOption.map (·.value)) =
    some (.arr [.obj [("a", .int 1)], .obj [("b", .str "x")]]) := by
  decide +kernel

end ApiScaffold.Toml
