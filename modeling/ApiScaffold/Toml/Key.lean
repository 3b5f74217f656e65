import ApiScaffold.Toml.Moment
import ApiScaffold.Toml.Number
import ApiScaffold.Toml.Quoted

set_option autoImplicit false

/-! # Keys of settings

A line that makes a setting is divided at an equals sign outside of quotes. When the text behind it
is no value, a later sign divides the line, and the signs in front of that belong to the key. A key
with points leads through tables to a name. -/

namespace ApiScaffold.Toml

/-! ## Quotes in a line -/

/-- Pieces between single quotes, the last of which goes on over double quotes until every single
quote is closed, and the pieces between double quotes that are left. -/
def closeSingles (singles : List (List Char)) :
    List (List Char) → List (List Char) × List (List Char)
  | [] => (singles, [])
  | double :: rest =>
    if singles.length % 2 = 1 then (singles, double :: rest)
    else
      let last := (singles.getLast?.getD []) ++ '"' :: double
      closeSingles (singles.dropLast ++ Text.cut ['\''] last) rest

/-- The pieces of a line between its quotes: one without, one inside of quotes, and so on. -/
def piecesByQuotes (line : List Char) : List (List Char) :=
  let doubles := Text.cut ['"'] line
  let (singles, doubles) :=
    match doubles with
    | first :: second :: rest =>
      if first.contains '\'' then closeSingles (Text.cut ['\''] first) (second :: rest)
      else ([], doubles)
    | _ => ([], doubles)
  singles ++
    match doubles with
    | first :: rest => Text.cut ['\''] first ++ rest
    | [] => []

/-- How often a mark stands in quotes in front of its first place without quotes. -/
def hiddenCount (mark : List Char) : Bool → List (List Char) → Nat
  | _, [] => 0
  | quoted, piece :: rest =>
    let count := (Text.cut mark piece).length - 1
    if !quoted && count != 0 then 0 else count + hiddenCount mark (!quoted) rest

/-! ## Dividing a line -/

/-- A line divided at each of its equals signs: what precedes the sign, and what follows it. -/
def divisions : List Char → List (List Char × List Char)
  | [] => []
  | c :: rest =>
    let later := (divisions rest).map fun d => (c :: d.1, d.2)
    if c = '=' then ([], rest) :: later else later

/-- Whether a text behind an equals sign can be the value of the setting. -/
def looksLikeValue (text : List Char) : Bool :=
  match text with
  | [] => true
  | c :: _ =>
    [' ', '\t', '\'', '"', '[', '\x7b'].contains c ||
      ["true", "false"].contains (String.ofList (Text.trim Text.isBlank text)) ||
      (float? text).isSome || isDate text || (clock? text).isSome

/-- The first division whose second part can be a value, and whether the second parts up to it keep
the rules for numerals. -/
def chooseDivision : List Char × List Char → Bool → List (List Char × List Char) →
    Except Flaw ((List Char × List Char) × Bool)
  | division, strict, others =>
    if looksLikeValue division.2 then .ok (division, strict)
    else
      match others with
      | [] => .error .malformed
      | next :: rest =>
        if next.2 = division.2 then .error .malformed
        else chooseDivision next (strict && isStrict next.2) rest

/-- The text in front of the equals sign of a setting and the text behind it; and whether the latter
keeps the rules for numerals. -/
def divide (line : List Char) : Except Flaw ((List Char × List Char) × Bool) := do
  let all := divisions line
  let last ← require all.getLast?
  let (first, others) :=
    match all.drop (hiddenCount ['='] false (piecesByQuotes line)) with
    | [] => (last, [])
    | first :: others => (first, others)
  let text := first.2
  let plain := if (text.head?.map Char.isDigit).getD false then text.filter (· != '_') else text
  chooseDivision (first.1, plain) (isStrict text) (others ++ [last])

/-! ## Names -/

/-- The names in a key with points. Names in quotes hold their points. -/
def namesBetween : Bool → List (List Char) → List (List Char)
  | _, [] => []
  | true, piece :: rest => piece :: namesBetween false rest
  | false, piece :: rest =>
    (Text.cut ['.'] piece).map (Text.trim Text.isBlank) ++ namesBetween true rest

/-- The tables that a key leads through, and the name that it ends with. -/
def namesOf (key : List Char) : Except Flaw (List String × String) := do
  let isQuote (c : Char) : Bool := c = '"' || c = '\''
  if key.contains '.' then
    let names :=
      if key.any isQuote then namesBetween false (piecesByQuotes key) else Text.cut ['.'] key
    match names.reverse.dropWhile List.isEmpty with
    | [] => throw .beyondEnd
    | name :: before =>
      let tables := before.reverse.filter (!·.isEmpty)
      return (tables.map String.ofList, String.ofList (Text.trim Text.isBlank name))
  else
    let first ← requireChar key.head?
    if isQuote first && key.getLast? = some first then
      return ([], String.ofList (← unescape (key.drop 1).dropLast))
    else return ([], String.ofList key)

/-- A setting whose value is yet to be read. -/
structure Assignment where
  tables : List String
  name : String
  text : List Char
  /-- The text keeps the rules for numerals. -/
  strict : Bool
deriving DecidableEq, Repr, Inhabited

/-- The setting that a line makes. -/
def Assignment.ofLine (line : List Char) : Except Flaw Assignment := do
  let ((key, text), strict) ← divide line
  let (tables, name) ← namesOf (Text.trim Text.isBlank key)
  return { tables, name, text := Text.trim Text.isBlank text, strict }

example : ((Assignment.ofLine "a.\"b.c\" = 1".toList).toOption.map fun a => (a.tables, a.name)) =
    some (["a"], "b.c") := by
  decide +kernel

example : ((Assignment.ofLine "a==true".toList).toOption.map fun a => (a.name, a.text)) =
    some ("a=", "true".toList) := by
  decide +kernel

end ApiScaffold.Toml
