import ApiScaffold.Template.Context
import ApiScaffold.Text.Cut
import ApiScaffold.Text.Word

set_option autoImplicit false

/-! # Templates of the user

A template is text with places in double curly brackets. A place names a value, or a value whose
things are to be counted; anything else is text. Some names have a value of their own: constants,
which no context changes, and things that every template can use unless its context has another
value under their name. -/

namespace ApiScaffold.Template

/-- A piece of a template. -/
inductive Piece where
  | char (c : Char)
  /-- The value of a name. -/
  | value (name : String)
  /-- How many things are in the value of a name. -/
  | count (name : String)
deriving DecidableEq, Repr, Inhabited

namespace Piece

/-- What stands in double curly brackets, and what follows them. -/
def placeBody : List Char → Option (List Char × List Char)
  | '\x7d' :: '\x7d' :: rest => some ([], rest)
  | c :: rest => (placeBody rest).map fun (body, after) => (c :: body, after)
  | [] => none

/-- Whether a text is a name. -/
def isName (text : List Char) : Bool :=
  match text with
  | c :: _ => text.all Text.isWord && !Text.isDigit c
  | [] => false

/-- The place that a text in brackets describes. -/
def ofBody? (body : List Char) : Option Piece :=
  match (Text.cut ['|'] body).map (Text.trim Text.isBlank) with
  | [name] => if isName name then some (.value (String.ofList name)) else none
  | [name, counted] =>
    if isName name && String.ofList counted = "length" then some (.count (String.ofList name))
    else none
  | _ => none

/-- The pieces of a template; `fuel` bounds the characters left. -/
def ofChars : Nat → List Char → List Piece
  | 0, _ | _, [] => []
  | fuel + 1, c :: rest =>
    match c, rest with
    | '\x7b', '\x7b' :: inside =>
      match placeBody inside with
      | some (body, after) =>
        match ofBody? body with
        | some place => place :: ofChars fuel after
        | none => .char c :: ofChars fuel rest
      | none => .char c :: ofChars fuel rest
    | _, _ => .char c :: ofChars fuel rest

/-- The names that stand for a fixed value. -/
def constants : List (String × Json) :=
  [("true", .bool true), ("True", .bool true), ("false", .bool false), ("False", .bool false),
    ("none", .null), ("None", .null)]

/-- What every template can use, in running text. Nothing in it can be counted. -/
def tools (template : String) : List (String × String) :=
  [("range", "<class 'range'>"), ("dict", "<class 'dict'>"),
    ("cycler", "<class 'jinja2.utils.Cycler'>"), ("joiner", "<class 'jinja2.utils.Joiner'>"),
    ("namespace", "<class 'jinja2.utils.Namespace'>"),
    ("lipsum", "<function generate_lorem_ipsum>"),
    ("validator_imports", "<function validator_imports>"),
    ("uses_class_transformer", "<function uses_class_transformer>"),
    ("controller_imports", "<function controller_imports>"),
    ("self", "<TemplateReference " ++ Json.quoted template ++ ">")]

/-- What a name stands for: a value, or else one of `tools` in running text. -/
def meaning (template : String) (context : Context) (name : String) :
    Except Fault (Value ⊕ String) :=
  match constants.lookup name with
  | some v => .ok (.inl (.json v))
  | none =>
    match context.lookup name, (tools template).lookup name with
    | some v, _ => .ok (.inl v)
    | none, some text => .ok (.inr text)
    | none, none => .error .undefinedName

/-- What a piece of the template of a name becomes. -/
def fill (template : String) (context : Context) : Piece → Except Fault String
  | .char c => .ok (String.singleton c)
  | .value name => do
    match ← meaning template context name with
    | .inl v => return v.display
    | .inr text => return text
  | .count name => do
    match ← meaning template context name with
    | .inl v => return toString (← v.count)
    | .inr _ => throw .unfit

end Piece

/-- Fill in the template of a name that a text writes. -/
def fillIn (name text : String) (context : Context) : Except Fault String :=
  ((Piece.ofChars text.length text.toList).mapM (Piece.fill name context)).map String.join

end ApiScaffold.Template
