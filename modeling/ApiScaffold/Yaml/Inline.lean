import ApiScaffold.Yaml.Scalar

set_option autoImplicit false

/-! # Values on a line

Quoted texts, plain texts, and the bracketed lists and tables that can hold each other. Each step
gives back what it read and the text that is left. Inside quotes and brackets a value may go on over
line ends, which count as blanks there. -/

namespace ApiScaffold.Yaml

/-- What a step read, and what is left. -/
abbrev Step (α : Type) := Option (α × List Char)

/-! ## Blanks -/

/-- Whether a character ends a line. -/
def isBreak (c : Char) : Bool := c = '\n' || c = '\u2028' || c = '\u2029'

/-- Whether a character is blank. -/
def isGap (c : Char) : Bool := c = ' ' || c = '\t' || isBreak c

/-- Whether a text ends or goes on with a blank. -/
def atGap (text : List Char) : Bool :=
  match text with
  | [] => true
  | c :: _ => isGap c

/-- Line ends inside a text as they count: the first one is a space if it is alone, and nothing in
front of others; the separators of lines and paragraphs always count themselves. -/
def foldBreaks : List Char → List Char
  | ['\n'] => [' ']
  | '\n' :: more => more
  | breaks => breaks

/-- Blanks inside a text as they count: as they are on one line; otherwise only the line ends. -/
def foldGap (gap : List Char) : List Char :=
  if gap.any isBreak then foldBreaks (gap.filter isBreak) else gap

/-! ## Quoted texts -/

/-- The characters behind a backslash that stand for one other character. -/
def simpleEscapes : List (Char × Nat) :=
  [('0', 0), ('a', 7), ('b', 8), ('t', 9), ('\t', 9), ('n', 10), ('v', 11), ('f', 12), ('r', 13),
    ('e', 27), (' ', 32), ('"', 34), ('/', 47), ('\\', 92), ('N', 0x85), ('_', 0xa0), ('L', 0x2028),
    ('P', 0x2029)]

/-- How many hexadecimal digits follow a letter behind a backslash. -/
def codeWidths : List (Char × Nat) := [('x', 2), ('u', 4), ('U', 8)]

/-- The character whose code some hexadecimal digits write, if there are enough of them. -/
def readCode (width : Nat) (text : List Char) : Option (Char × List Char) := do
  let digits ← (text.take width).mapM Text.hexDigitValue?
  let code := digits.foldl (fun n d => 16 * n + d) 0
  if digits.length = width && code < 0x110000 then return (Text.ofUnit code, text.drop width)
  else none

/-- The rest of a text in double quotes; `sofar` holds the characters read, backwards, and `fuel`
bounds those left. -/
def readDouble : Nat → List Char → List Char → Step String
  | 0, _, _ | _, [], _ => none
  | _ + 1, '"' :: rest, sofar => some (String.ofList sofar.reverse, rest)
  | fuel + 1, '\\' :: e :: rest, sofar =>
    if isBreak e then
      let gap := rest.takeWhile isGap
      readDouble fuel (rest.drop gap.length) (gap.reverse.filter isBreak ++ sofar)
    else
      match simpleEscapes.lookup e, codeWidths.lookup e with
      | some code, _ => readDouble fuel rest (Char.ofNat code :: sofar)
      | none, some width =>
        match readCode width rest with
        | some (c, left) => readDouble fuel left (c :: sofar)
        | none => none
      | none, none => none
  | fuel + 1, c :: rest, sofar =>
    if isGap c then
      let gap := (c :: rest).takeWhile isGap
      readDouble fuel ((c :: rest).drop gap.length) ((foldGap gap).reverse ++ sofar)
    else if c = '\\' then none
    else readDouble fuel rest (c :: sofar)

/-- The rest of a text in single quotes, in which two quotes stand for one. -/
def readSingle : Nat → List Char → List Char → Step String
  | 0, _, _ | _, [], _ => none
  | fuel + 1, '\'' :: '\'' :: rest, sofar => readSingle fuel rest ('\'' :: sofar)
  | _ + 1, '\'' :: rest, sofar => some (String.ofList sofar.reverse, rest)
  | fuel + 1, c :: rest, sofar =>
    if isGap c then
      let gap := (c :: rest).takeWhile isGap
      readSingle fuel ((c :: rest).drop gap.length) ((foldGap gap).reverse ++ sofar)
    else readSingle fuel rest (c :: sofar)

/-- A text in quotes of either kind. -/
def readQuoted : List Char → Step String
  | '"' :: rest => readDouble (rest.length + 1) rest []
  | '\'' :: rest => readSingle (rest.length + 1) rest []
  | _ => none

/-! ## Plain texts -/

/-- The characters that separate values in brackets. -/
def isBracketMark (c : Char) : Bool :=
  [',', '[', ']', '\x7b', '\x7d'].contains c

/-- Whether a plain text can begin here. -/
def canStartPlain (inBrackets : Bool) : List Char → Bool
  | [] => false
  | c :: rest =>
    if isGap c || ['-', '?', ':', ',', '[', ']', '\x7b', '\x7d', '#', '&', '*', '!', '|', '>', '\'',
      '"', '%', '@', '\x60'].contains c then
      !atGap rest && (c = '-' || (!inBrackets && (c = '?' || c = ':')))
    else true

/-- The characters of a plain text up to a blank or a mark. -/
def plainChunk (inBrackets : Bool) : List Char → List Char × List Char
  | [] => ([], [])
  | c :: rest =>
    let ends :=
      isGap c ||
      (c = ':' && (atGap rest || (inBrackets && (rest.head?.map isBracketMark).getD false))) ||
      (inBrackets && (isBracketMark c || c = '?'))
    if ends then ([], c :: rest)
    else
      let (chunk, left) := plainChunk inBrackets rest
      (c :: chunk, left)

/-- A plain text: chunks with blanks between them. `fuel` bounds the chunks. -/
def readPlain (inBrackets : Bool) : Nat → List Char → List Char × List Char
  | 0, text => ([], text)
  | fuel + 1, text =>
    let (chunk, left) := plainChunk inBrackets text
    let gap := left.takeWhile fun c => c = ' ' || (inBrackets && isBreak c)
    let after := left.drop gap.length
    let goesOn :=
      !gap.isEmpty && after.head? != some '#' && !(plainChunk inBrackets after).1.isEmpty
    if goesOn then
      let (more, rest) := readPlain inBrackets fuel after
      (chunk ++ foldGap gap ++ more, rest)
    else (chunk, left)

/-- How many characters there may be up to the colon behind a key. -/
def keyLimit : Nat := 1024

/-- Whether what stands between the start of a key and the colon behind it, `rest`, can be a key: it
is on one line, and not too long. -/
def fitsKey (text rest : List Char) : Bool :=
  let key := text.take (text.length - rest.length)
  key.length ≤ keyLimit && !key.any isBreak

/-! ## Brackets -/

/-- What follows blanks, line ends and comments; a tab is no blank. -/
def skipInside : Nat → List Char → List Char
  | 0, text => text
  | fuel + 1, text =>
    match text.dropWhile fun c => c = ' ' || isBreak c with
    | '#' :: rest => skipInside fuel (rest.dropWhile (!isBreak ·))
    | rest => rest

/-- What follows blanks, line ends and comments. -/
def skip (text : List Char) : List Char := skipInside (text.length + 1) text

/-- Whether a value ends here, so that nothing stands for it. -/
def endsValue : List Char → Bool
  | c :: _ => c = ',' || c = ']' || c = '\x7d'
  | [] => true

mutual

/-- A value in brackets, or a scalar; `fuel` bounds the characters left. -/
def readFlow : Nat → List Char → Step Yaml
  | 0, _ => none
  | fuel + 1, text =>
    match text with
    | '[' :: rest => readFlowItems fuel (skip rest) []
    | '\x7b' :: rest => readFlowEntries fuel (skip rest) []
    | c :: _ =>
      if c = '"' || c = '\'' then
        (readQuoted text).map fun (s, left) => (.scalar (.str s), left)
      else if canStartPlain true text then
        let (chars, left) := readPlain true text.length text
        (ofPlain chars).map fun v => (v, left)
      else none
    | [] => none

/-- What stands behind a colon. -/
def readFlowValue : Nat → List Char → Step Yaml
  | 0, _ => none
  | fuel + 1, text =>
    let text := skip text
    if endsValue text then some (nothing, text) else readFlow fuel text

/-- The items of a list up to its closing bracket; a pair with a colon makes a table of its own. -/
def readFlowItems : Nat → List Char → List Yaml → Step Yaml
  | 0, _, _ => none
  | fuel + 1, text, sofar =>
    match text with
    | ']' :: rest => (list? sofar.reverse).map (·, rest)
    | _ =>
      match readFlow fuel text with
      | none => none
      | some (first, rest) =>
        let item : Step Yaml :=
          match skip rest with
          | ':' :: more =>
            if !fitsKey text (':' :: more) then none
            else
              match readFlowValue fuel more with
              | some (value, left) => (table? [(first, value)]).map (·, left)
              | none => none
          | left => some (first, left)
        match item with
        | none => none
        | some (v, left) =>
          match skip left with
          | ',' :: more => readFlowItems fuel (skip more) (v :: sofar)
          | ']' :: left => (list? (v :: sofar).reverse).map (·, left)
          | _ => none

/-- The entries of a table up to its closing brace. -/
def readFlowEntries : Nat → List Char → List (Yaml × Yaml) → Step Yaml
  | 0, _, _ => none
  | fuel + 1, text, sofar =>
    match text with
    | '\x7d' :: rest => (table? sofar.reverse).map (·, rest)
    | _ =>
      match readFlow fuel text with
      | none => none
      | some (key, rest) =>
        let value : Step Yaml :=
          match skip rest with
          | ':' :: more =>
            if fitsKey text (':' :: more) then readFlowValue fuel more else none
          | left => some (nothing, left)
        match value with
        | none => none
        | some (v, left) =>
          match skip left with
          | ',' :: more => readFlowEntries fuel (skip more) ((key, v) :: sofar)
          | '\x7d' :: left => (table? ((key, v) :: sofar).reverse).map (·, left)
          | _ => none

end

end ApiScaffold.Yaml
