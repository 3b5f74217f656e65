set_option autoImplicit false

/-! # Name patterns

A pattern describes names of files: a star stands for any text, a question mark for one character,
and characters in square brackets for one of them, or for one that is none of them when an
exclamation mark comes first. A bracket that is never closed stands for itself. -/

namespace ApiScaffold.Files

/-- A part of a pattern. -/
inductive PatternPart where
  | char (c : Char)
  | anyText
  | anyChar
  /-- One character in some ranges, or in none of them. -/
  | oneOf (outside : Bool) (ranges : List (Char × Char))
deriving DecidableEq, Repr, Inhabited

namespace PatternPart

/-- The ranges that the text between brackets lists. -/
def ranges : List Char → List (Char × Char)
  | [] => []
  | [a] => [(a, a)]
  | [a, b] => [(a, a), (b, b)]
  | a :: '-' :: c :: rest => (a, c) :: ranges rest
  | a :: rest => (a, a) :: ranges rest

/-- The text up to the next closing bracket, and what follows the bracket. A bracket that comes
first closes nothing. -/
def classBody (text : List Char) : Option (List Char × List Char) :=
  let (first, rest) :=
    match text with
    | ']' :: rest => ([']'], rest)
    | _ => ([], text)
  match rest.dropWhile (· != ']') with
  | _ :: after => some (first ++ rest.takeWhile (· != ']'), after)
  | [] => none

/-- The parts of a pattern; `fuel` bounds the characters left. -/
def ofChars : Nat → List Char → List PatternPart
  | 0, _ | _, [] => []
  | fuel + 1, '*' :: rest => .anyText :: ofChars fuel rest
  | fuel + 1, '?' :: rest => .anyChar :: ofChars fuel rest
  | fuel + 1, '[' :: rest =>
    let (outside, body) :=
      match rest with
      | '!' :: body => (true, body)
      | _ => (false, rest)
    match classBody body with
    | some (listed, after) => .oneOf outside (ranges listed) :: ofChars fuel after
    | none => .char '[' :: ofChars fuel rest
  | fuel + 1, c :: rest => .char c :: ofChars fuel rest

/-- Whether a part that stands for one character stands for a given one. -/
def admits : PatternPart → Char → Bool
  | .char d, c => c == d
  | .anyText, _ => false
  | .anyChar, _ => true
  | .oneOf outside ranges, c => (ranges.any fun r => r.1 ≤ c && c ≤ r.2) != outside

/-- Whether a test holds for some end of a text. -/
def someEnd (test : List Char → Bool) : List Char → Bool
  | [] => test []
  | c :: rest => test (c :: rest) || someEnd test rest

/-- Whether parts describe a text. -/
def describe : List PatternPart → List Char → Bool
  | [], text => text.isEmpty
  | .anyText :: parts, text => someEnd (describe parts) text
  | part :: parts, text =>
    match text with
    | c :: rest => part.admits c && describe parts rest
    | [] => false

end PatternPart

/-- Whether a text is a pattern for more than itself. -/
def isPattern (text : String) : Bool :=
  text.toList.any fun c => c = '*' || c = '?' || c = '['

/-- Whether a name is hidden: it begins with a dot. -/
def isHidden (name : String) : Bool :=
  name.toList.head? = some '.'

/-- Whether a pattern describes a name; hidden names are described by patterns that begin with a dot
alone. -/
def describes (pattern name : String) : Bool :=
  (isHidden pattern || !isHidden name) &&
    PatternPart.describe (PatternPart.ofChars pattern.length pattern.toList) name.toList

example : describes "*.yaml" "a.yaml" = true ∧ describes "*.yaml" ".yaml" = false := by
  decide +kernel

example : describes "[!a-c]?" "dx" = true ∧ describes "[]]" "]" = true ∧
    describes "[a" "[a" = true := by
  decide +kernel

end ApiScaffold.Files
