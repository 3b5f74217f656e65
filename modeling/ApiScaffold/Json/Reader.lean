import ApiScaffold.Json.Value
import ApiScaffold.Text.Digits

set_option autoImplicit false

/-! # Reading JSON

A reader of JSON text on a list of characters. Each step gives back what it read and the text that
is left; every step consumes a character, so the length of the text bounds their number. -/

namespace ApiScaffold.Json

/-- What a step read, and what is left. -/
abbrev Step (α : Type) := Option (α × List Char)

/-- The four blank characters of JSON. -/
def isGap (c : Char) : Bool :=
  c = ' ' || c = '\t' || c = '\n' || c = '\r'

/-- A text without its leading blanks. -/
def skipGap (text : List Char) : List Char :=
  text.dropWhile isGap

/-! ## Strings -/

/-- The number that four hexadecimal digits write. -/
def readUnit (text : List Char) : Step Nat :=
  match text with
  | a :: b :: c :: d :: rest =>
    ([a, b, c, d].mapM Text.hexDigitValue?).map fun digits =>
      (digits.foldl (fun n d => 16 * n + d) 0, rest)
  | _ => none

/-- The character behind `\u`: one unit, or two that form a pair. -/
def readEscapedUnit (text : List Char) : Step Char :=
  match readUnit text with
  | none => none
  | some (unit, rest) =>
    match rest with
    | '\\' :: 'u' :: more =>
      if Text.isHighUnit unit then
        match readUnit more with
        | none => none
        | some (low, left) =>
          if Text.isLowUnit low then some (Text.ofPair unit low, left)
          else some (Text.ofUnit unit, rest)
      else some (Text.ofUnit unit, rest)
    | _ => some (Text.ofUnit unit, rest)

/-- The character behind a backslash other than `\u`. -/
def simpleEscape? : Char → Option Char
  | '"' => some '"'
  | '\\' => some '\\'
  | '/' => some '/'
  | 'b' => some (Char.ofNat 8)
  | 'f' => some (Char.ofNat 12)
  | 'n' => some '\n'
  | 'r' => some '\r'
  | 't' => some '\t'
  | _ => none

/-- The rest of a string after its opening quote; `sofar` holds the characters read, backwards. -/
def readString : Nat → List Char → List Char → Step String
  | 0, _, _ => none
  | _ + 1, [], _ => none
  | fuel + 1, c :: rest, sofar =>
    if c = '"' then some (String.ofList sofar.reverse, rest)
    else if c = '\\' then
      match rest with
      | 'u' :: more =>
        match readEscapedUnit more with
        | some (d, left) => readString fuel left (d :: sofar)
        | none => none
      | e :: more =>
        match simpleEscape? e with
        | some d => readString fuel more (d :: sofar)
        | none => none
      | [] => none
    else if c.toNat < 32 then none
    else readString fuel rest (c :: sofar)

/-! ## Numbers -/

/-- The digits `0` to `9` at the front of a text, and the rest. -/
def spanDigits (text : List Char) : List Char × List Char :=
  (text.takeWhile Char.isDigit, text.dropWhile Char.isDigit)

/-- The number that digits `0` to `9` write. -/
def ofDigits (digits : List Char) : Nat :=
  digits.foldl (fun n d => 10 * n + (d.toNat - '0'.toNat)) 0

/-- The digits of a fraction behind a point, if there are any. -/
def readFraction : List Char → Option (List Char × List Char)
  | '.' :: rest =>
    match spanDigits rest with
    | ([], _) => none
    | (digits, left) => some (digits, left)
  | _ => none

/-- The power of ten behind `e` or `E`, if there is one. -/
def readPower : List Char → Option (Int × List Char)
  | e :: rest =>
    if e = 'e' || e = 'E' then
      let (negative, body) :=
        match rest with
        | '-' :: more => (true, more)
        | '+' :: more => (false, more)
        | _ => (false, rest)
      match spanDigits body with
      | ([], _) => none
      | (digits, left) =>
        let n : Int := ofDigits digits
        some (if negative then -n else n, left)
    else none
  | [] => none

/-- A number without its sign: a whole part without idle zeros, then perhaps a fraction and a power.
With either of these it is a floating-point number. -/
def readMagnitude (negative : Bool) (text : List Char) : Step Json :=
  let (whole, rest) :=
    match text with
    | '0' :: rest => (['0'], rest)
    | _ => spanDigits text
  if whole.isEmpty then none
  else
    let fraction := readFraction rest
    let afterFraction := (fraction.map Prod.snd).getD rest
    let power := readPower afterFraction
    let left := (power.map Prod.snd).getD afterFraction
    match fraction, power with
    | none, none =>
      let n : Int := ofDigits whole
      some (.int (if negative then -n else n), left)
    | _, _ =>
      let places := (fraction.map Prod.fst).getD []
      let exponent : Int := (power.map Prod.fst).getD 0 - places.length
      some (.float (Binary64.ofDecimal negative (ofDigits (whole ++ places)) exponent), left)

/-! ## Values -/

/-- The words that stand for values, in the order in which they are tried. -/
def words : List (List Char × Json) :=
  [("null".toList, .null), ("true".toList, .bool true), ("false".toList, .bool false),
    ("NaN".toList, .float .invalid), ("Infinity".toList, .float (.infinity false)),
    ("-Infinity".toList, .float (.infinity true))]

/-- A word at the front of a text. -/
def readWord (text : List Char) : Step Json :=
  (words.find? fun w => w.1.isPrefixOf text).map fun w => (w.2, text.drop w.1.length)

mutual

/-- A value at the front of a text. -/
def readValue : Nat → List Char → Step Json
  | 0, _ => none
  | fuel + 1, text =>
    match text with
    | '\x7b' :: rest =>
      match skipGap rest with
      | '\x7d' :: left => some (.obj [], left)
      | body => readFields fuel body []
    | '[' :: rest =>
      match skipGap rest with
      | ']' :: left => some (.arr [], left)
      | body => readItems fuel body []
    | '"' :: rest => (readString (rest.length + 1) rest []).map fun (s, left) => (.str s, left)
    | _ =>
      match readWord text with
      | some found => some found
      | none =>
        match text with
        | '-' :: rest => readMagnitude true rest
        | _ => readMagnitude false text

/-- The items of a list up to its closing bracket; `sofar` holds those read, backwards. -/
def readItems : Nat → List Char → List Json → Step Json
  | 0, _, _ => none
  | fuel + 1, text, sofar =>
    match readValue fuel text with
    | none => none
    | some (item, rest) =>
      match skipGap rest with
      | ']' :: left => some (.arr (item :: sofar).reverse, left)
      | ',' :: more => readItems fuel (skipGap more) (item :: sofar)
      | _ => none

/-- The fields of an object up to its closing brace. -/
def readFields : Nat → List Char → Fields → Step Json
  | 0, _, _ => none
  | fuel + 1, text, sofar =>
    match text with
    | '"' :: rest =>
      match readString (rest.length + 1) rest [] with
      | none => none
      | some (key, afterKey) =>
        match skipGap afterKey with
        | ':' :: more =>
          match readValue fuel (skipGap more) with
          | none => none
          | some (value, afterValue) =>
            match skipGap afterValue with
            | '\x7d' :: left => some (.obj (settle ((key, value) :: sofar).reverse), left)
            | ',' :: more => readFields fuel (skipGap more) ((key, value) :: sofar)
            | _ => none
        | _ => none
    | _ => none

end

/-- The value that a text writes, with blanks allowed around it. -/
def read? (text : String) : Option Json :=
  let chars := skipGap text.toList
  match readValue (chars.length + 1) chars with
  | some (value, rest) => if (skipGap rest).isEmpty then some value else none
  | none => none

end ApiScaffold.Json
