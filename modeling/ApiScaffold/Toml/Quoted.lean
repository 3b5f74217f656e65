import ApiScaffold.Text.Cut
import ApiScaffold.Text.Digits
import ApiScaffold.Text.Surrogate
import ApiScaffold.Toml.Flaw

set_option autoImplicit false

/-! # Quoted texts of settings

A text in single quotes has no escapes. In double quotes, escapes of codes are resolved first, over
the whole text, and the other escapes then: so a code can write a backslash that escapes what
follows it. Quotes come single or three in a row. -/

namespace ApiScaffold.Toml

/-- Whether an odd number of backslashes ends a text, so that what follows is escaped. -/
def endsEscaped (text : List Char) : Bool :=
  (text.reverse.takeWhile (· = '\\')).length % 2 = 1

/-! ## Where a text ends -/

/-- What is known of the end of a quoted text: whether it has been closed, and how many quotes came
in a row. -/
structure Closing where
  closed : Bool := false
  row : Nat := 0

/-- Look at the next piece between quotes. A piece behind the closing quote is out of place. -/
def Closing.next (triple : Bool) (c : Closing) (piece : List Char) : Option Closing :=
  if piece.isEmpty then
    some (if triple then { c with row := c.row + 1 } else { c with closed := true })
  else if endsEscaped piece then some c
  else if c.closed then none
  else if !triple || c.row > 1 then some { c with closed := true }
  else some { c with row := 0 }

/-- Whether nothing follows the closing quote. -/
def isClosedOnce (quote : Char) (text : List Char) : Bool :=
  let pieces := Text.cut [quote] (text.drop 1)
  let (triple, pieces) :=
    match pieces with
    | [] :: [] :: rest => (true, rest)
    | _ => (false, pieces)
  (pieces.foldlM (Closing.next triple) {}).isSome

/-! ## Escapes -/

/-- The characters that letters behind a backslash stand for. -/
def simpleEscapes : List (Char × Char) :=
  [('0', '\x00'), ('b', '\x08'), ('f', '\x0c'), ('n', '\n'), ('r', '\r'), ('t', '\t'), ('"', '"')]

/-- Whether every piece between backslashes begins with a letter that may follow one. `escaped`
tells that the backslash in front is one that is escaped itself. -/
def knowsEscapes : Bool → List (List Char) → Bool
  | _, [] => true
  | escaped, [] :: rest => knowsEscapes (!escaped) rest
  | escaped, (c :: _) :: rest =>
    ((simpleEscapes.lookup c).isSome || c = 'u' || c = 'U' || escaped) && knowsEscapes false rest

/-- The character at the front of a piece behind the mark of a code, and what follows it. A code
that is cut off by the end of the piece is shorter. Halves of surrogate pairs are refused when they
come first. -/
def readCode (width : Nat) (piece : List Char) : Except Flaw (Char × List Char) := do
  let digits := piece.take width
  let values ← require (digits.mapM Text.hexDigitValue?)
  let first ← match values with
    | v :: _ => pure v
    | [] => throw .beyondEnd
  if first = 13 then
    match values.drop 1 with
    | [] => throw .beyondEnd
    | second :: _ => if 8 ≤ second then throw .malformed
  let code := values.foldl (fun n d => 16 * n + d) 0
  if 0x80000000 ≤ code then throw .tooLarge
  if 0x110000 ≤ code then throw .malformed
  return (Text.ofUnit code, piece.drop digits.length)

/-- The pieces behind the marks of codes, with the codes resolved; `skip` tells that the mark in
front is itself escaped. -/
def resolveCodes (mark : List Char) (width : Nat) :
    Bool → List (List Char) → Except Flaw (List Char)
  | _, [] => .ok []
  | true, piece :: rest => do
    return mark ++ piece ++ (← resolveCodes mark width (endsEscaped piece) rest)
  | false, piece :: rest => do
    let (c, left) ← readCode width piece
    return c :: left ++ (← resolveCodes mark width false rest)

/-- A text with the codes of one width resolved. -/
def withCodes (letter : Char) (width : Nat) (text : List Char) : Except Flaw (List Char) :=
  match Text.cut ['\\', letter] text with
  | front :: pieces => do
    return front ++ (← resolveCodes ['\\', letter] width (endsEscaped front) pieces)
  | [] => .ok text

/-- A text with its simple escapes resolved; codes are left as they are. -/
def unescape : List Char → Except Flaw (List Char)
  | '\\' :: c :: rest =>
    match simpleEscapes.lookup c with
    | some d => do return d :: (← unescape rest)
    | none =>
      if c = '\\' then do return '\\' :: (← unescape rest)
      else if c = 'u' || c = 'U' then do return '\\' :: c :: (← unescape rest)
      else .error .malformed
  | c :: rest => do return c :: (← unescape rest)
  | [] => .ok []

/-! ## Reading -/

/-- A text without its quotes, of which there may be three in a row. -/
def dropQuotes (quote : Char) (text : List Char) : List Char :=
  let inner (t : List Char) : List Char := (t.drop 1).dropLast
  match text with
  | [_, b] => inner (if b = quote then [] else text)
  | _ :: b :: c :: _ =>
    if b = quote && b = c then inner (inner (inner text)) else inner text
  | _ => inner text

/-- The text that stands in quotes. -/
def readQuoted (quote : Char) (text : List Char) : Except Flaw String := do
  if !isClosedOnce quote text then throw .malformed
  if quote = '"' then
    if !knowsEscapes false ((Text.cut ['\\'] text).drop 1) then throw .malformed
    let resolved ← unescape (← withCodes 'U' 8 (← withCodes 'u' 4 text))
    return String.ofList (dropQuotes quote resolved)
  else return String.ofList (dropQuotes quote text)

example : (readQuoted '"' "\"\\u005c\\u005cn\"".toList).toOption = some "\\n" ∧
    (readQuoted '"' "\"C:\\\\u0041\"".toList).toOption = some "C:\\u0041" ∧
    (readQuoted '\'' "'a\\b'".toList).toOption = some "a\\b" ∧
    (readQuoted '"' "\"a\" b\"".toList).toOption = none := by
  decide +kernel

end ApiScaffold.Toml
