import ApiScaffold.Json.Value

set_option autoImplicit false

/-! # Writing JSON

One writer, set up by the separators and by whether characters beyond ASCII are escaped. -/

namespace ApiScaffold

/-- How JSON text is laid out. -/
structure JsonStyle where
  itemSeparator : String
  fieldSeparator : String
  /-- Characters beyond ASCII are written as escapes of their UTF-16 units. -/
  asciiOnly : Bool

namespace JsonStyle

/-- Blanks after separators, ASCII only. -/
def spaced : JsonStyle := ⟨", ", ": ", true⟩

/-- No blanks, characters as they are. -/
def dense : JsonStyle := ⟨",", ":", false⟩

end JsonStyle

namespace Json

/-- The escape of one UTF-16 unit. -/
def unitEscape (unit : Nat) : List Char :=
  ['\\', 'u'] ++ hexDigits 4 unit

/-- One character inside a JSON string. -/
def escapedChar (style : JsonStyle) (c : Char) : List Char :=
  let code := c.toNat
  if c = '"' || c = '\\' then ['\\', c]
  else if c = '\n' then ['\\', 'n']
  else if c = '\r' then ['\\', 'r']
  else if c = '\t' then ['\\', 't']
  else if code = 8 then ['\\', 'b']
  else if code = 12 then ['\\', 'f']
  else if code < 32 then unitEscape code
  else if code < 127 || !style.asciiOnly then [c]
  else if code < 0x10000 then unitEscape code
  else
    match Text.half? c with
    | some unit => unitEscape unit
    | none =>
      let above := code - 0x10000
      unitEscape (0xd800 + above / 0x400) ++ unitEscape (0xdc00 + above % 0x400)

/-- A JSON string. -/
def writeString (style : JsonStyle) (s : String) : String :=
  String.ofList ('"' :: s.toList.flatMap (escapedChar style) ++ ['"'])

mutual

/-- The JSON text of a value. -/
def write (style : JsonStyle) : Json → String
  | .null => "null"
  | .bool b => if b then "true" else "false"
  | .int n => toString n
  | .float x => jsonNumbers.text x
  | .str s => writeString style s
  | .arr items => "[" ++ style.itemSeparator.intercalate (writeItems style items) ++ "]"
  | .obj fields =>
    "\x7b" ++ style.itemSeparator.intercalate (writeFields style fields) ++ "\x7d"

/-- The JSON texts of the items of a list. -/
def writeItems (style : JsonStyle) : List Json → List String
  | [] => []
  | x :: xs => write style x :: writeItems style xs

/-- The JSON texts of the fields of an object. -/
def writeFields (style : JsonStyle) : Fields → List String
  | [] => []
  | (k, x) :: fs =>
    (writeString style k ++ style.fieldSeparator ++ write style x) :: writeFields style fs

end

end Json

end ApiScaffold
