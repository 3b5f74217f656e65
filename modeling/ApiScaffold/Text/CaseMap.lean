set_option autoImplicit false

/-! # Case maps of characters

A case map sends a character to one or more characters. It is given by runs of code points that are
all shifted by the same distance, and by a list of the characters whose image is longer than one.
Below code point 128 a map is a rule on the Latin letters and needs no table. -/

namespace ApiScaffold.Text

/-- The code points `first, first + step, …, last`, each sent to itself plus `shift`. -/
structure CaseRun where
  first : Nat
  last : Nat
  step : Nat
  shift : Int
deriving DecidableEq, Repr

/-- Whether a code point is a member of the run. -/
def CaseRun.covers (r : CaseRun) (code : Nat) : Bool :=
  r.first ≤ code && code ≤ r.last && (code - r.first) % r.step == 0

/-- A case map beyond the first 128 code points. -/
structure CaseMap where
  /-- Characters whose image is a single other character. -/
  runs : List CaseRun
  /-- Characters whose image is several characters. -/
  spelled : List (Nat × List Nat)

/-- The image of a character; a character that the map does not mention is its own image. -/
def CaseMap.image (m : CaseMap) (c : Char) : List Char :=
  match m.spelled.lookup c.toNat with
  | some codes => codes.map Char.ofNat
  | none =>
    match m.runs.find? (·.covers c.toNat) with
    | some run => [Char.ofNat ((c.toNat : Int) + run.shift).toNat]
    | none => [c]

end ApiScaffold.Text
