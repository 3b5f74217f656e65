import ApiScaffold.Decimal.Shortest
import ApiScaffold.Text.Surrogate
import ApiScaffold.Text.Unseen

set_option autoImplicit false

/-! # JSON values

Values keep the order of the fields of an object and tell integers from floating-point numbers.
`Json.same` is the equality under which schemas are compared: the order of fields does not count,
and numbers and truth values are compared as numbers. -/

namespace ApiScaffold

/-- A JSON value. -/
inductive Json where
  | null
  | bool (b : Bool)
  | int (n : Int)
  | float (x : Binary64)
  | str (s : String)
  | arr (items : List Json)
  | obj (fields : List (String × Json))
deriving Repr, Inhabited

/-- The fields of an object in their order. -/
abbrev Fields := List (String × Json)

namespace Json

/-! ## Decidable equality -/

mutual

/-- Whether two values are written alike, field by field. -/
def alike : Json → Json → Bool
  | .null, .null => true
  | .bool a, .bool b => a == b
  | .int a, .int b => a == b
  | .float a, .float b => a == b
  | .str a, .str b => a == b
  | .arr xs, .arr ys => alikeItems xs ys
  | .obj fs, .obj gs => alikeFields fs gs
  | _, _ => false

/-- `alike` on the items of two lists. -/
def alikeItems : List Json → List Json → Bool
  | [], [] => true
  | x :: xs, y :: ys => alike x y && alikeItems xs ys
  | _, _ => false

/-- `alike` on the fields of two objects. -/
def alikeFields : Fields → Fields → Bool
  | [], [] => true
  | (k, x) :: fs, (l, y) :: gs => k == l && alike x y && alikeFields fs gs
  | _, _ => false

end

mutual

theorem alike_iff : ∀ a b : Json, alike a b = true ↔ a = b
  | .null, b | .bool _, b | .int _, b | .float _, b | .str _, b => by
    cases b <;> simp [alike]
  | .arr xs, b => by
    cases b <;> simp [alike]
    exact alikeItems_iff xs _
  | .obj fs, b => by
    cases b <;> simp [alike]
    exact alikeFields_iff fs _

theorem alikeItems_iff : ∀ xs ys : List Json, alikeItems xs ys = true ↔ xs = ys
  | [], ys => by cases ys <;> simp [alikeItems]
  | x :: xs, ys => by
    cases ys with
    | nil => simp [alikeItems]
    | cons y ys => simp [alikeItems, alike_iff x y, alikeItems_iff xs ys]

theorem alikeFields_iff : ∀ fs gs : Fields, alikeFields fs gs = true ↔ fs = gs
  | [], gs => by cases gs <;> simp [alikeFields]
  | (k, x) :: fs, gs => by
    cases gs with
    | nil => simp [alikeFields]
    | cons g gs =>
      obtain ⟨l, y⟩ := g
      simp [alikeFields, alike_iff x y, alikeFields_iff fs gs, and_assoc]

end

instance : DecidableEq Json := fun a b =>
  decidable_of_iff (alike a b = true) (alike_iff a b)

/-! ## Fields -/

/-- Give a key a value: a key that is there keeps its place, a new one comes last. -/
def insertField (key : String) (value : Json) : Fields → Fields
  | [] => [(key, value)]
  | (k, v) :: rest => if k = key then (k, value) :: rest else (k, v) :: insertField key value rest

/-- The fields that a list of settings leaves, the last setting of a key winning. -/
def settle (settings : Fields) : Fields :=
  settings.foldl (fun fields s => insertField s.1 s.2 fields) []

theorem lookup_insertField_self (key : String) (value : Json) (fields : Fields) :
    (insertField key value fields).lookup key = some value := by
  induction fields with
  | nil => simp [insertField]
  | cons f rest ih =>
    obtain ⟨k, v⟩ := f
    by_cases h : k = key
    · simp [insertField, h]
    · simp [insertField, h, ih, List.lookup_cons, beq_eq_false_iff_ne.mpr (Ne.symm h)]

theorem lookup_insertField_of_ne {key other : String} (h : other ≠ key) (value : Json)
    (fields : Fields) : (insertField key value fields).lookup other = fields.lookup other := by
  induction fields with
  | nil => simp [insertField, h]
  | cons f rest ih =>
    obtain ⟨k, v⟩ := f
    by_cases hk : k = key
    · subst hk
      simp [insertField, List.lookup_cons, beq_eq_false_iff_ne.mpr h]
    · simp [insertField, hk, List.lookup_cons, ih]

/-! ## Truth and equality -/

/-- Everything but null, false, zeros and empty texts, lists and objects counts as true. -/
def truthy : Json → Bool
  | .null => false
  | .bool b => b
  | .int n => n != 0
  | .float x => !x.isZero
  | .str s => s != ""
  | .arr items => !items.isEmpty
  | .obj fields => !fields.isEmpty

/-- The integer that a truth value or an integer stands for in comparisons. -/
def asInt? : Json → Option Int
  | .bool b => some (if b then 1 else 0)
  | .int n => some n
  | _ => none

/-- Equality of two values that are neither lists nor objects. -/
def sameScalar : Json → Json → Bool
  | .null, .null => true
  | .str a, .str b => a == b
  | .float x, .float y => x.equals y
  | .float x, b => (b.asInt?.map x.equalsInt).getD false
  | a, .float y => (a.asInt?.map y.equalsInt).getD false
  | a, b =>
    match a.asInt?, b.asInt? with
    | some m, some n => m == n
    | _, _ => false

mutual

/-- Equality of values: fields in any order, numbers by what they are worth. -/
def same : Json → Json → Bool
  | .arr xs, .arr ys => sameItems xs ys
  | .obj fs, .obj gs => fs.length == gs.length && sameFields fs gs
  | a, b => sameScalar a b

/-- `same` item by item. -/
def sameItems : List Json → List Json → Bool
  | [], [] => true
  | x :: xs, y :: ys => same x y && sameItems xs ys
  | _, _ => false

/-- Every field of the first object is in the second with the same value. -/
def sameFields : Fields → Fields → Bool
  | [], _ => true
  | (k, x) :: fs, gs =>
    match gs.lookup k with
    | some y => same x y && sameFields fs gs
    | none => false

end

/-- Whether a list holds a value, up to `same`. -/
def among (value : Json) (values : List Json) : Bool :=
  values.any (·.same value)

/-- A list or an object cannot be a member of a set or a key. -/
def isHashable : Json → Bool
  | .arr _ | .obj _ => false
  | _ => true

/-! ## Size -/

mutual

/-- How many values there are in a value, itself included. -/
def size : Json → Nat
  | .arr items => sizeItems items + 1
  | .obj fields => sizeFields fields + 1
  | _ => 1

/-- How many values there are in a list of values. -/
def sizeItems : List Json → Nat
  | [] => 0
  | x :: xs => size x + sizeItems xs

/-- How many values there are in the fields of an object. -/
def sizeFields : Fields → Nat
  | [] => 0
  | (_, x) :: fs => size x + sizeFields fs

end

theorem size_pos (v : Json) : 0 < v.size := by
  cases v <;> simp [size]

/-! ## Text -/

/-- Numbers in running text have a power of ten from `1e16` on and below `1e-4`. -/
def runningNumbers : NumberLayout := ⟨-4, 16, "inf", "nan"⟩

/-- Numbers in JSON text are laid out the same, with the infinities spelled out. -/
def jsonNumbers : NumberLayout := ⟨-4, 16, "Infinity", "NaN"⟩

/-- The lower-case hexadecimal digits of a number, padded with zeros. -/
def hexDigits (width n : Nat) : List Char :=
  let digits := Nat.toDigits 16 n
  List.replicate (width - digits.length) '0' ++ digits

/-- The code of a character behind a backslash, in the fewest of two, four and eight digits. A half
of a surrogate pair has the code of the half. -/
def codeEscape (c : Char) : List Char :=
  let code := (Text.half? c).getD c.toNat
  if code < 0x100 then '\\' :: 'x' :: hexDigits 2 code
  else if code < 0x10000 then '\\' :: 'u' :: hexDigits 4 code
  else '\\' :: 'U' :: hexDigits 8 code

/-- One character inside quoted text; the quote and characters without a sign are escaped. -/
def quotedChar (quote c : Char) : List Char :=
  if c = quote || c = '\\' then ['\\', c]
  else if c = '\n' then ['\\', 'n']
  else if c = '\r' then ['\\', 'r']
  else if c = '\t' then ['\\', 't']
  else if Text.isUnseen c then codeEscape c
  else [c]

/-- A text in single quotes, or in double quotes when it holds single ones alone. -/
def quoted (s : String) : String :=
  let quote := if s.toList.contains '\'' && !s.toList.contains '"' then '"' else '\''
  String.ofList (quote :: s.toList.flatMap (quotedChar quote) ++ [quote])

mutual

/-- A value as it stands inside a list or an object in running text. -/
def inspect : Json → String
  | .null => "None"
  | .bool b => if b then "True" else "False"
  | .int n => toString n
  | .float x => runningNumbers.text x
  | .str s => quoted s
  | .arr items => "[" ++ ", ".intercalate (inspectItems items) ++ "]"
  | .obj fields => "\x7b" ++ ", ".intercalate (inspectFields fields) ++ "\x7d"

/-- The items of a list in running text. -/
def inspectItems : List Json → List String
  | [] => []
  | x :: xs => inspect x :: inspectItems xs

/-- The fields of an object in running text. -/
def inspectFields : Fields → List String
  | [] => []
  | (k, x) :: fs => (quoted k ++ ": " ++ inspect x) :: inspectFields fs

end

/-- A value in running text: a string stands for itself. -/
def display : Json → String
  | .str s => s
  | v => v.inspect

end Json

end ApiScaffold
