import ApiScaffold.Text.Cut
import ApiScaffold.Text.Word
import ApiScaffold.Toml.Flaw

set_option autoImplicit false

/-! # Lines of settings

A first walk through a text finds its lines. It checks what the keys are made of, but for their
first characters, blanks out comments, and joins the lines that square brackets hold together. Only
three quotes in a row may be left open at the end of a line; a line that ends with them loses one,
so that the text begins with the next line.

Where the walk looks back from the beginning of the text, it sees the end. -/

namespace ApiScaffold.Toml

/-- Where the walk is with the key of a line. -/
inductive KeyPart where
  /-- In no key. -/
  | outside
  /-- In a word of the key. -/
  | word
  /-- Behind a word of the key. -/
  | behind
deriving DecidableEq, Repr, Inhabited

/-- The state of the walk. -/
structure Scan where
  /-- What was walked through, the last character first. -/
  passed : List Char := []
  key : KeyPart := .outside
  /-- The key has a point. -/
  dotted : Bool := false
  /-- The quote that is open. -/
  quote : Option Char := none
  /-- Three quotes in a row are open. -/
  triple : Bool := false
  /-- How many square brackets of values are open. -/
  brackets : Int := 0
  /-- The name of a table is open. -/
  header : Bool := false
  /-- The name of a list of tables is open. -/
  doubleHeader : Bool := false
  /-- Nothing but blanks came in the line. -/
  atStart : Bool := true
  comment : Bool := false
deriving Repr, Inhabited

namespace Scan

/-- Go past a character. -/
def pass (s : Scan) (c : Char) : Scan := { s with passed := c :: s.passed }

/-- Whether an odd number of backslashes was passed last, behind some other characters. -/
def isEscaped (s : Scan) (skip : Nat) : Bool :=
  ((s.passed.drop skip).takeWhile (· = '\\')).length % 2 = 1

/-- How many of the two characters passed last are a given one. -/
def rowOf (s : Scan) (c : Char) : Nat :=
  ((s.passed.take 2).takeWhile (· = c)).length

/-- After a point, or a blank behind one, a word of the key can begin. -/
def awaitWord (s : Scan) (rest : List Char) : Except Flaw Scan := do
  let next ← requireChar rest.head?
  return if !Text.isBlank next && next != '.' then { s with key := .word } else s

/-- What a character means for the key that the walk is in: the state behind it, or none when it is
the equals sign that ends the key. -/
def inKey (s : Scan) (c : Char) (rest : List Char) : Except Flaw (Option Scan) := do
  if c = '\n' then throw .malformed
  match s.quote with
  | some q =>
    return some <|
      if c = q && !s.isEscaped 0 then ({ s with key := .behind, quote := none } : Scan).pass c
      else s.pass c
  | none =>
    if s.key = .word then
      if Text.isBlank c then return some (({ s with key := .behind } : Scan).pass c)
      if c = '.' then return some (({ s with dotted := true } : Scan).pass c)
      if Text.isWord c || c = '-' then return some (s.pass c)
      if s.dotted && s.passed.head? = some '.' && (c = '"' || c = '\'') then
        return some (({ s with quote := some c } : Scan).pass c)
    else
      if Text.isBlank c then
        return some ((← if s.dotted then s.awaitWord rest else pure s).pass c)
      if c = '.' then
        return some ((← ({ s with dotted := true } : Scan).awaitWord rest).pass c)
    if c = '=' then return none else throw .malformed

/-- What a quote means outside of keys. The third one in a row opens or closes a row of three. -/
def atQuote (s : Scan) (c : Char) : Scan :=
  let row := s.rowOf c
  let toggled : Scan :=
    if row = 2 then
      { s with triple := !s.triple, quote := if s.triple then none else some c }
    else { s with quote := if s.quote.isSome then none else some c }
  if c = '\'' then if s.quote = some '"' then s else toggled
  else if s.quote = some '\'' then s
  else if row != 1 && s.isEscaped row then s
  else toggled

/-- What a square bracket means outside of keys and quotes. -/
def atBracket (s : Scan) (c : Char) (rest : List Char) : Scan :=
  if s.quote.isSome then s
  else if c = '[' then
    if s.header || s.doubleHeader then s
    else if !s.atStart then { s with brackets := s.brackets + 1 }
    else if rest.head? = some '[' then { s with doubleHeader := true }
    else { s with header := true }
  else if s.header then { s with header := false }
  else if s.doubleHeader then { s with doubleHeader := s.passed.head? != some ']' }
  else { s with brackets := s.brackets - 1 }

/-- The end of a line that leaves three quotes open: two quotes in front of it are joined by one
more, for which a third one in front of them gives way. -/
def breakText (s : Scan) : Scan :=
  match s.passed with
  | a :: b :: c :: before =>
    if (a = '"' || a = '\'') && a = b then
      { s with passed := a :: a :: b :: (if c = a then ' ' else c) :: before }
    else s.pass '\n'
  | _ => s.pass '\n'

/-- The end of a line: an open quote is out of place unless it is one of three, and open brackets go
on behind a blank. -/
def atBreak (s : Scan) : Except Flaw Scan :=
  if s.triple then .ok s.breakText
  else if s.quote.isSome then .error .malformed
  else if s.brackets != 0 then .ok (s.pass ' ')
  else .ok (({ s with atStart := true } : Scan).pass '\n')

/-- The first character of a line that is no blank begins a key, unless it opens the name of a
table. -/
def begin? (s : Scan) (c : Char) : Except Flaw Scan :=
  if !s.atStart || c = ' ' || c = '\t' then .ok s
  else if s.header || s.doubleHeader then .ok { s with atStart := false }
  else if c = '=' then .error .malformed
  else .ok { s with atStart := false, key := .word }

/-- Go past a character, with a view of those that follow. -/
def step (s : Scan) (c : Char) (rest : List Char) : Except Flaw Scan := do
  if s.comment && c != '\n' then return s.pass ' '
  let s := { s with comment := false }
  let s ← match s.key with
    | .outside => pure s
    | _ =>
      match ← s.inKey c rest with
      | some after => return after
      | none => pure { s with key := .outside, dotted := false }
  if c = '\n' then s.atBreak
  else if c = '#' && s.quote.isNone && !s.header && !s.doubleHeader then
    return ({ s with comment := true } : Scan).pass ' '
  else
    let s := if c = '\'' || c = '"' then s.atQuote c else s
    let s := if c = '[' || c = ']' then s.atBracket c rest else s
    return (← s.begin? c).pass c

/-- Go past all characters. -/
def run : Scan → List Char → Except Flaw Scan
  | s, [] => .ok s
  | s, c :: rest => do run (← s.step c rest) rest

end Scan

/-- The lines of a text. At its end no key and no quote may be open. -/
def lines (text : List Char) : Except Flaw (List (List Char)) := do
  let s ← Scan.run { passed := text.reverse } text
  if s.key != .outside || s.quote.isSome then throw .malformed
  return Text.cut ['\n'] (s.passed.reverse.drop text.length)

example : ((lines "a = [1, # one\n 2]\n".toList).toOption.map (·.map String.ofList)) =
    some ["a = [1,        2]", ""] := by
  decide +kernel

example : ((lines "a = \"\"\"\nb\n\"\"\"".toList).toOption.map (·.map String.ofList)) =
    some ["a =  \"\"\"b", "\"\"\""] := by
  decide +kernel

example : (lines "a b = 1".toList).toOption = none ∧ (lines "a".toList).toOption = none ∧
    (lines "a = \"x\nb = 1".toList).toOption = none := by
  decide +kernel

end ApiScaffold.Toml
