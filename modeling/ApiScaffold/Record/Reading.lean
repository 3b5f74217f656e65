import ApiScaffold.Fault
import ApiScaffold.Json.Value
import ApiScaffold.Text.Cut
import ApiScaffold.Text.Digits

set_option autoImplicit false

/-! # Reading records

Records are read from JSON objects field by field. All fields are looked at, so that a reading that
fails names every field that is missing or of the wrong type, by its path from the record. -/

namespace ApiScaffold.Record

/-- What reading a value gives: the value, the paths of everything that is wrong with it, or a fault
that ends all reading. -/
inductive Reading (α : Type) where
  | good (value : α)
  | bad (paths : List String)
  | stopped (fault : Fault)
deriving Repr

namespace Reading

/-- Change the value that was read. -/
def map {α β : Type} (f : α → β) : Reading α → Reading β
  | .good a => .good (f a)
  | .bad paths => .bad paths
  | .stopped fault => .stopped fault

/-- Put two readings together, with the faults of both. -/
def seq {α β : Type} : Reading (α → β) → Reading α → Reading β
  | .stopped fault, _ => .stopped fault
  | _, .stopped fault => .stopped fault
  | .good f, .good a => .good (f a)
  | .good _, .bad paths => .bad paths
  | .bad paths, .good _ => .bad paths
  | .bad paths, .bad more => .bad (paths ++ more)

instance : Applicative Reading where
  pure := .good
  map := map
  seq f a := seq f (a ())

/-- Use the value that was read for a further reading. -/
def andThen {α β : Type} (r : Reading α) (f : α → Reading β) : Reading β :=
  match r with
  | .good a => f a
  | .bad paths => .bad paths
  | .stopped fault => .stopped fault

/-- The same faults, seen from outside of the part that was read. -/
def within {α : Type} (name : String) : Reading α → Reading α
  | .bad paths => .bad (paths.map fun p => if p = "" then name else name ++ "." ++ p)
  | r => r

end Reading

/-! ## Values -/

/-- The value itself is wrong. -/
def wrong {α : Type} : Reading α := .bad [""]

/-- A text. -/
def text : Json → Reading String
  | .str s => .good s
  | _ => wrong

/-- Texts that stand for a truth value, in either case. -/
def truthWords : List (String × Bool) :=
  [("0", false), ("off", false), ("f", false), ("false", false), ("n", false), ("no", false),
    ("1", true), ("on", true), ("t", true), ("true", true), ("y", true), ("yes", true)]

/-- A truth value, or a number or a text that stands for one. -/
def truth : Json → Reading Bool
  | .bool b => .good b
  | .int 0 => .good false
  | .int 1 => .good true
  | .float x => if x.equalsInt 0 then .good false else if x.equalsInt 1 then .good true else wrong
  | .str s =>
    match truthWords.lookup (Text.lowerLatin s) with
    | some b => .good b
    | none => wrong
  | _ => wrong

/-- The integer that a text writes: a sign, the digits `0` to `9` with single underscores between
them, and perhaps a fraction of zeros, with spaces around it. -/
def integerOf? (text : List Char) : Option Int :=
  let (negative, body) :=
    match Text.trim Text.isSpace text with
    | '-' :: rest => (true, rest)
    | '+' :: rest => (false, rest)
    | all => (false, all)
  let whole := body.takeWhile (· != '.')
  let isWhole := whole.all (fun c => c.isDigit || c = '_') &&
    (body.drop (whole.length + 1)).all (· = '0')
  if isWhole then
    (Text.grouped? whole).map fun n => if negative then -(n : Int) else n
  else none

/-- An integer, or a value that stands for one. A number with a point must be below two to the power
of 63. -/
def integer : Json → Reading Int
  | .int n => .good n
  | .bool b => .good (if b then 1 else 0)
  | .float x =>
    let magnitude := x.significand * twoTo x.scale.toNat / twoTo (-x.scale).toNat
    let n : Int := if x.negative then -(magnitude : Int) else magnitude
    if x.equalsInt n && magnitude < twoTo 63 then .good n else wrong
  | .str s => (integerOf? s.toList).elim wrong .good
  | _ => wrong

example : integerOf? " -1_0.00\n".toList = some (-10) ∧ integerOf? "\x1c5".toList = none := by
  decide +kernel

/-- Null, or a value that another reading takes. -/
def optional {α : Type} (read : Json → Reading α) : Json → Reading (Option α)
  | .null => .good none
  | v => (read v).map some

/-- The items of a list from some place on. -/
def itemsFrom {α : Type} (read : Json → Reading α) : Nat → List Json → Reading (List α)
  | _, [] => .good []
  | i, v :: rest =>
    (((read v).within (toString i)).map List.cons).seq (itemsFrom read (i + 1) rest)

/-- A list of values that another reading takes. -/
def list {α : Type} (read : Json → Reading α) : Json → Reading (List α)
  | .arr items => itemsFrom read 0 items
  | _ => wrong

/-- The fields of an object. -/
def object : Json → Reading Fields
  | .obj fields => .good fields
  | _ => wrong

/-! ## Fields -/

/-- A field that must be there. -/
def need {α : Type} (fields : Fields) (name : String) (read : Json → Reading α) : Reading α :=
  match fields.lookup name with
  | some v => (read v).within name
  | none => .bad [name]

/-- A field that may be missing. -/
def field {α : Type} (fields : Fields) (name : String) (fallback : α)
    (read : Json → Reading α) : Reading α :=
  match fields.lookup name with
  | some v => (read v).within name
  | none => .good fallback

/-- What a reading gives for a record of a kind: the record, or the fault of its fields. -/
def finish {α : Type} (kind : RecordKind) : Reading α → Except Fault α
  | .good a => .ok a
  | .bad paths => .error (.invalidRecord kind (paths.mergeSort (fun a b => a ≤ b)))
  | .stopped fault => .error fault

end ApiScaffold.Record
