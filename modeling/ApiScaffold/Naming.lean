import ApiScaffold.Text.Upper
import ApiScaffold.Text.Cut
import ApiScaffold.Json.Value

set_option autoImplicit false

/-! # Names

How names of classes, members and files are made from what a specification calls things. -/

namespace ApiScaffold.Naming

/-- The first character in upper case, the rest as it is. -/
def capitalizeChars : List Char → List Char
  | [] => []
  | c :: rest => Text.upperChar c ++ rest

/-- The first character in upper case, the rest as it is. -/
def capitalize (name : String) : String :=
  String.ofList (capitalizeChars name.toList)

/-- Whether a character separates the words of a resource name. -/
def isWordSeparator (c : Char) : Bool :=
  c = '.' || c = '-' || c = '_'

/-- The words of a resource name. -/
def resourceWords (resource : List Char) : List (List Char) :=
  Text.cut ['.'] (resource.map fun c => if isWordSeparator c then '.' else c)

/-- The words of a resource name joined, each with its first character in upper case. -/
def className (resource : String) : String :=
  String.ofList ((resourceWords resource.toList).flatMap capitalizeChars)

/-- Letters behind a hyphen in upper case, the hyphen dropped; only the letters `A` to `Z` count. -/
def joinHyphens : List Char → List Char
  | [] => []
  | [c] => [c]
  | '-' :: c :: rest =>
    if c.isAlpha then c.toUpper :: joinHyphens rest else '-' :: joinHyphens (c :: rest)
  | c :: d :: rest => c :: joinHyphens (d :: rest)

/-- The identifier for a header: its words joined, the first letter in lower case. -/
def headerIdentifier (header : String) : String :=
  match joinHyphens header.toList with
  | [] => ""
  | c :: rest => String.ofList (c.toLower :: rest)

/-- What stands for a character in the key of an enum member. -/
def keyChar (c : Char) : Char :=
  if c.isUpper || c.isDigit then c else '_'

/-- The key of an enum member: upper case, with an underscore for all but letters and digits. -/
def enumKey (value : Json) : String :=
  String.ofList ((Text.upper value.display.toList).map keyChar)

/-- The name of the enum of a property. -/
def enumName (property : String) : String :=
  capitalize property ++ "Enum"

/-- The last segment of a path that is not empty. -/
def lastSegment (path : List Char) : List Char :=
  ((Text.cut ['/'] path).filter (!·.isEmpty)).getLast?.getD []

/-- The name of an operation that has none: its method and the last segment of its path. -/
def operationName (method path : String) : String :=
  let segment := (lastSegment path.toList).filter fun c => c != '\x7b' && c != '\x7d'
  method ++ String.ofList (capitalizeChars segment)

/-- The endings of the names of specification files. -/
def specExtensions : List String := [".yaml", ".yml", ".json"]

/-- The name behind the last slash of a path. -/
def baseName (path : List Char) : List Char :=
  (Text.cut ['/'] path).getLast?.getD []

/-- The name of a file without the first extension of specification files that it has, in either
case. -/
def dropExtension (name : List Char) : List Char :=
  match specExtensions.find? fun ext => ext.toList.isSuffixOf (name.map Char.toLower) with
  | some ext => name.take (name.length - ext.toList.length)
  | none => name

/-- The name of the resource that a specification file describes. -/
def resourceName (path : String) : String :=
  let name := dropExtension (baseName path.toList)
  String.ofList ((Text.dropBack? ".openapi".toList name).getD name)

end ApiScaffold.Naming
