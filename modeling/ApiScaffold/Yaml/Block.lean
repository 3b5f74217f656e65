import ApiScaffold.Yaml.Inline

set_option autoImplicit false

/-! # YAML by indentation

A text is read line by line. A table has its keys, and a list its dashes, in one column; what
belongs to a key or a dash stands behind it or further to the right on the lines that follow. A list
may also have its dashes in the column of the key that it belongs to. -/

namespace ApiScaffold.Yaml

/-- A line: its leading spaces, the text behind them, and what ends it, which is nothing at the end
of the whole text. -/
structure Line where
  indent : Nat
  text : List Char
  ending : List Char
deriving DecidableEq, Repr, Inhabited

namespace Line

/-- A line from its characters. -/
def ofChars (chars ending : List Char) : Line :=
  let text := chars.dropWhile (· = ' ')
  ⟨chars.length - text.length, text, ending⟩

/-- The lines of a text; `sofar` holds the characters of the first one that were read, backwards. -/
def ofText : List Char → List Char → List Line
  | [], sofar => [ofChars sofar.reverse []]
  | c :: rest, sofar =>
    if isBreak c then ofChars sofar.reverse [c] :: ofText rest [] else ofText rest (c :: sofar)

/-- Whether a line says nothing. -/
def isIdle (l : Line) : Bool :=
  match l.text with
  | [] => true
  | c :: _ => c = '#'

/-- The characters of a line behind a column. -/
def behind (l : Line) (column : Nat) : List Char :=
  List.replicate (l.indent - column) ' ' ++ l.text

end Line

/-- What a step read, and the lines that are left. -/
abbrev BlockStep := Option (Yaml × List Line)

/-- The lines from the first one that says something. -/
def skipIdle (lines : List Line) : List Line :=
  lines.dropWhile Line.isIdle

/-- Whether nothing but spaces and a comment is left of a line. -/
def isDone (text : List Char) : Bool :=
  match text.dropWhile (· = ' ') with
  | [] => true
  | c :: _ => c = '#'

/-- Whether a text begins with the dash of a list. -/
def isDash : List Char → Bool
  | '-' :: rest => rest.isEmpty || rest.head? = some ' '
  | _ => false

/-- The key at the front of a line, and the text behind its colon. -/
def readKey (text : List Char) : Step Yaml :=
  let key : Step Yaml :=
    match text with
    | '"' :: _ => (readQuoted text).map fun (s, left) => (.scalar (.str s), left)
    | '\'' :: _ => (readQuoted text).map fun (s, left) => (.scalar (.str s), left)
    | _ =>
      if canStartPlain false text then
        let (chars, left) := readPlain false text.length text
        (ofPlain chars).map fun v => (v, left)
      else none
  match key with
  | some (k, left) =>
    match left.dropWhile (· = ' ') with
    | ':' :: rest =>
      if (rest.isEmpty || rest.head? = some ' ') && fitsKey text (':' :: rest) then some (k, rest)
      else none
    | _ => none
  | none => none

/-! ## Texts over several lines -/

/-- The lines that belong to a text to the right of a column, blank ones included. -/
def textLines (column : Nat) (lines : List Line) : List Line :=
  lines.takeWhile fun l => l.text.isEmpty || column ≤ l.indent

/-- How the end of a text over several lines is kept. -/
inductive Chomping where
  | clip
  | strip
  | keep
deriving DecidableEq, Repr

/-- The marks behind the bar of a text over several lines: how its end is kept, and how far it is
indented if that is said. -/
def readHeader (text : List Char) : Option (Chomping × Option Nat) :=
  let marks := text.takeWhile fun c => c != ' ' && c != '#'
  let chomping (c : Char) : Option Chomping :=
    if c = '-' then some .strip else if c = '+' then some .keep else none
  let width (c : Char) : Option Nat :=
    if c.isDigit && c != '0' then Text.hexDigitValue? c else none
  if !isDone (text.drop marks.length) then none
  else
    match marks with
    | [] => some (.clip, none)
    | [a] =>
      match chomping a with
      | some k => some (k, none)
      | none => (width a).map fun w => (.clip, some w)
    | [a, b] =>
      match chomping a, width b with
      | some k, some w => some (k, some w)
      | _, _ =>
        match width a, chomping b with
        | some w, some k => some (k, some w)
        | _, _ => none
    | _ => none

/-- Lines from a column on, joined as they are. -/
def joinLiteral (column : Nat) : List Line → List Char
  | [] => []
  | [l] => l.behind column
  | l :: rest => l.behind column ++ l.ending ++ joinLiteral column rest

/-- Lines from a column on, joined with a space in place of each line feed between two lines of
text; lines that are empty or further indented keep their ends. -/
def joinFolded (column : Nat) : List Line → List Char
  | [] => []
  | [l] => l.behind column
  | l :: rest =>
    let isText (chars : List Char) : Bool :=
      match chars with
      | [] => false
      | c :: _ => c != ' ' && c != '\t'
    let next := (rest.map (·.behind column)).dropWhile List.isEmpty
    if l.ending = ['\n'] && isText (l.behind column) && isText (next.headD []) then
      l.behind column ++ (if next.length = rest.length then [' '] else []) ++ joinFolded column rest
    else l.behind column ++ l.ending ++ joinFolded column rest

/-- A text over several lines behind a bar or an angle; `parent` is the first column that it must
reach. -/
def readText (folded : Bool) (parent : Nat) (header : List Char) (lines : List Line) : BlockStep :=
  match readHeader header with
  | none => none
  | some (chomping, width) =>
    let first := (lines.dropWhile (·.text.isEmpty)).head?
    let blanks := (lines.takeWhile (·.text.isEmpty)).map (·.indent)
    -- blank lines in front count for the column, too
    let found := max (blanks.foldl max 0) ((first.map (·.indent)).getD 0)
    let column :=
      match width with
      | some w => parent - 1 + w
      | none => max parent found
    let all := textLines column lines
    let rest := lines.drop all.length
    let body := (all.reverse.dropWhile fun l => l.text.isEmpty && l.indent ≤ column).reverse
    let trailing := all.drop body.length
    let joined := if folded then joinFolded column body else joinLiteral column body
    let own := (body.getLast?.map (·.ending)).getD []
    let ends :=
      match chomping with
      | .strip => []
      | .clip => own
      | .keep => own ++ trailing.flatMap (·.ending)
    some (.scalar (.str (String.ofList (joined ++ ends))), rest)

/-- The rest of a plain text on the lines that follow one with some ending: those from a column on,
up to one with a comment. Line ends count as `foldBreaks` has it. Anything else than a comment
behind the text is out of place. -/
def readPlainLines (column : Nat) :
    Nat → List Char → List Line → Option (List Char × List Line)
  | 0, _, lines => some ([], lines)
  | fuel + 1, ending, lines =>
    let empties := lines.takeWhile (·.text.isEmpty)
    match lines.drop empties.length with
    | [] => some ([], lines)
    | l :: rest =>
      if l.indent < column || l.isIdle then some ([], lines)
      else
        let gap := foldBreaks (ending ++ empties.flatMap (·.ending))
        let (chars, left) := readPlain false l.text.length l.text
        if chars.isEmpty || !isDone left then none
        else if left.all (· = ' ') then
          (readPlainLines column fuel l.ending rest).map fun (more, after) =>
            (gap ++ chars ++ more, after)
        else some (gap ++ chars, rest)

/-- A value in quotes or brackets, which begins on a line that ends in `ending` and may go on over
the lines that follow. -/
def readOver (read : List Char → Step Yaml) : List Char → List Char → List Line → BlockStep
  | text, ending, lines =>
    match read text with
    | some (v, left) => if isDone left then some (v, lines) else none
    | none =>
      match lines with
      | [] => none
      | l :: rest => readOver read (text ++ ending ++ l.behind 0) l.ending rest
termination_by _ _ lines => lines.length

/-! ## Blocks -/

/-- A value that begins behind a key or a dash, or stands alone on a line; `here` is the rest of its
first line, and `parent` the first column that its further lines must reach. -/
def readInline (parent : Nat) (here : Line) (lines : List Line) : BlockStep :=
  match here.text with
  | '|' :: header => readText false (max parent 1) header lines
  | '>' :: header => readText true (max parent 1) header lines
  | c :: _ =>
    if c = '"' || c = '\'' then
      readOver (fun t => (readQuoted t).map fun (s, left) => (.scalar (.str s), left)) here.text
        here.ending lines
    else if c = '[' || c = '\x7b' then
      readOver (fun t => readFlow (t.length + 1) t) here.text here.ending lines
    else if canStartPlain false here.text then
      let (chars, left) := readPlain false here.text.length here.text
      if left.all (· = ' ') then
        match readPlainLines parent lines.length here.ending lines with
        | some (more, rest) => (ofPlain (chars ++ more)).map (·, rest)
        | none => none
      else if isDone left then (ofPlain chars).map (·, lines)
      else none
    else none
  | [] => none

mutual

/-- The block that begins with the first line; `parent` is the first column that it may stand in,
and `fuel` bounds the lines and characters left. -/
def readBlock : Nat → Nat → List Line → BlockStep
  | 0, _, _ => none
  | fuel + 1, parent, lines =>
    match lines with
    | [] => none
    | l :: rest =>
      if isDash l.text then readList fuel l.indent lines []
      else if (readKey l.text).isSome then readTable fuel l.indent lines []
      else readInline parent l rest

/-- The value behind a key or a dash in some column; `here` is the rest of the line of that key or
dash. Where nothing stands there, the value is the block on the lines that follow. -/
def readValue : Nat → Nat → Bool → Line → List Line → BlockStep
  | 0, _, _, _, _ => none
  | fuel + 1, column, besideDashes, here, lines =>
    if isDone here.text then
      match skipIdle lines with
      | [] => some (nothing, [])
      | l :: rest =>
        if column < l.indent then readBlock fuel (column + 1) (l :: rest)
        else if besideDashes && l.indent = column && isDash l.text then
          readList fuel column (l :: rest) []
        else some (nothing, l :: rest)
    else readInline (column + 1) { here with text := here.text.dropWhile (· = ' ') } lines

/-- The entries of a table in a column. -/
def readTable : Nat → Nat → List Line → List (Yaml × Yaml) → BlockStep
  | 0, _, _, _ => none
  | fuel + 1, column, lines, sofar =>
    let finish (rest : List Line) : BlockStep := (table? sofar.reverse).map (·, rest)
    match skipIdle lines with
    | [] => finish []
    | l :: rest =>
      if l.indent < column then finish (l :: rest)
      else if column < l.indent || isDash l.text then none
      else
        match readKey l.text with
        | none => none
        | some (key, text) =>
          match readValue fuel column true { l with text } rest with
          | none => none
          | some (value, left) => readTable fuel column left ((key, value) :: sofar)

/-- The items of a list whose dashes are in a column. -/
def readList : Nat → Nat → List Line → List Yaml → BlockStep
  | 0, _, _, _ => none
  | fuel + 1, column, lines, sofar =>
    match skipIdle lines with
    | [] => (list? sofar.reverse).map (·, [])
    | l :: rest =>
      if column < l.indent then none
      else if l.indent < column || !isDash l.text then (list? sofar.reverse).map (·, l :: rest)
      else
        let text := l.text.drop 1
        let item : BlockStep :=
          if isDone text then readValue fuel column false { l with text } rest
          else
            let inner := text.dropWhile (· = ' ')
            readBlock fuel (column + 1)
              (⟨column + 1 + (text.length - inner.length), inner, l.ending⟩ :: rest)
        match item with
        | none => none
        | some (v, left) => readList fuel column left (v :: sofar)

end

/-! ## Documents -/

/-- Whether a character may stand in a text at all. -/
def isPrintable (c : Char) : Bool :=
  let code := c.toNat
  code = 9 || code = 10 || code = 13 || (0x20 ≤ code && code ≤ 0x7e) || code = 0x85 ||
    (0xa0 ≤ code && code ≤ 0xfffd) || (0x10000 ≤ code && (Text.half? c).isNone)

/-- A text in which one line feed stands for a carriage return, for the two of them together, and
for the control character that ends a line. -/
def plainBreaks : List Char → List Char
  | [] => []
  | '\r' :: '\n' :: rest => '\n' :: plainBreaks rest
  | c :: rest => (if c = '\r' || c = '\x85' then '\n' else c) :: plainBreaks rest

/-- Whether a line is one of the marks at the borders of documents. -/
def isMark (mark : String) (l : Line) : Bool :=
  l.indent = 0 && (match Text.dropFront? mark.toList l.text with
    | some rest => atGap rest
    | none => false)

/-- The value of the lines of a document. -/
def readDocument (lines : List Line) : Option Yaml :=
  let fuel := lines.foldl (fun n l => n + l.text.length + 2) 4
  match skipIdle lines with
  | [] => some nothing
  | l :: rest =>
    match readBlock (2 * fuel) 0 (l :: rest) with
    | some (v, left) => if (skipIdle left).isEmpty then some v else none
    | none => none

/-- The value of a document that begins behind its mark; `here` is the rest of that line. -/
def readMarked (here : Line) (lines : List Line) : Option Yaml :=
  if isDone here.text then readDocument lines
  else
    match readInline 0 { here with text := here.text.dropWhile (· = ' ') } lines with
    | some (v, left) => if (skipIdle left).isEmpty then some v else none
    | none => none

/-- Whether nothing follows a document but marks of its end. -/
def isEnd : List Line → Bool
  | [] => true
  | l :: rest => (l.isIdle || (isMark "..." l && isDone (l.text.drop 3))) && isEnd rest

/-- The value that a text writes. There is one document in a text. -/
def read? (text : String) : Option Yaml :=
  let chars := if text.toList.head? = some '\ufeff' then text.toList.drop 1 else text.toList
  let isInside (l : Line) : Bool := !isMark "---" l && !isMark "..." l
  if !chars.all isPrintable then none
  else
    match skipIdle (Line.ofText (plainBreaks chars) []) with
    | [] => some nothing
    | l :: rest =>
      let marked := isMark "---" l
      let body := if marked then rest else l :: rest
      let inside := body.takeWhile isInside
      if !isEnd (body.drop inside.length) || isMark "..." l then none
      else
        let found :=
          if marked then readMarked { l with text := l.text.drop 3 } inside else readDocument inside
        found.filter isValue

end ApiScaffold.Yaml
