import ApiScaffold.Document.Excerpt
import ApiScaffold.Json.Writer
import ApiScaffold.Text.Cut

set_option autoImplicit false

/-! # Literals and type names in code

Values, types and routes as they are written in the generated code. -/

namespace ApiScaffold.Code

/-! ## Literals -/

/-- One character inside single quotes: backslashes, single quotes and line feeds are escaped. -/
def literalChar (c : Char) : List Char :=
  if c = '\\' then ['\\', '\\']
  else if c = '\'' then ['\\', '\'']
  else if c = '\n' then ['\\', 'n']
  else [c]

/-- A text in single quotes. -/
def stringLiteral (text : String) : String :=
  String.ofList ('\'' :: text.toList.flatMap literalChar ++ ['\''])

/-- A value in code: a text in single quotes, any other value as JSON. -/
def literal (e : Excerpt) : String :=
  match e.value with
  | .str s => stringLiteral s
  | _ => e.shown.write .spaced

/-- A pattern between slashes; its own slashes are escaped. -/
def patternLiteral (pattern : String) : String :=
  "/" ++ Text.substitute "/" "\\/" pattern ++ "/"

/-! ## Types -/

/-- A type without the brackets of lists behind it. -/
def dropLists : List Char → List Char
  | ']' :: '[' :: rest => dropLists rest
  | reversed => reversed

/-- The type of the innermost items of a list type, without round brackets around it. -/
def innermost (typeExpression : String) : String :=
  let base := (dropLists typeExpression.toList.reverse).reverse
  String.ofList (Text.trim (fun c => c = '(' || c = ')') base)

/-- The constructors of the simple types. -/
def constructors : List (String × String) :=
  [("string", "String"), ("number", "Number"), ("boolean", "Boolean"), ("object", "Object"),
    ("any", "Object")]

/-- The constructor that stands for a type in a decorator. -/
def constructorOf (typeExpression : String) : String :=
  let base := innermost typeExpression
  if Text.holds " | " base || Text.beginsWith "Record<" base then "Object"
  else (constructors.lookup base).getD base

/-- The type of a response in a decorator; a list of a constructor stands in brackets. -/
def responseType (typeExpression : String) : String :=
  let constructor := constructorOf typeExpression
  if Text.finishesWith "[]" typeExpression && constructor != "Object" then
    "[" ++ constructor ++ "]"
  else constructor

/-! ## Routes -/

/-- Whether what follows an opening brace is the name of a place, closed by a brace. -/
def opensPlace (rest : List Char) : Bool :=
  rest.head? != some '\x7d' && rest.contains '\x7d'

/-- A path with its places marked; `inside` tells that a place has been opened. -/
def markPlaces : Bool → List Char → List Char
  | _, [] => []
  | true, c :: rest => if c = '\x7d' then markPlaces false rest else c :: markPlaces true rest
  | false, c :: rest =>
    if c = '\x7b' && opensPlace rest then ':' :: markPlaces true rest
    else c :: markPlaces false rest

/-- The route of a path: a name in braces is written behind a colon. -/
def route (path : String) : String :=
  String.ofList (markPlaces false path.toList)

example : route "/users/\x7bid\x7d/\x7b\x7d" = "/users/:id/\x7b\x7d" := by decide +kernel

end ApiScaffold.Code
