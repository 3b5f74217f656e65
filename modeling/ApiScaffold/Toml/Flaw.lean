import ApiScaffold.Fault

set_option autoImplicit false

/-! # Flaws of settings

Why a text makes no settings. A text that is not well formed is the reader's own complaint; the
other flaws are faults that the reader does not account for. -/

namespace ApiScaffold.Toml

/-- Why a text makes no settings. -/
inductive Flaw where
  | malformed
  /-- The text ends, or a part of it is empty, where a character is looked at. -/
  | beyondEnd
  /-- An escape has a code that is larger than any number for codes. -/
  | tooLarge
  /-- A name leads through a value that is no table. -/
  | notATable
  /-- A table is added to a value that is no list. -/
  | notAList
  /-- A text of several lines has no name. -/
  | nameless
deriving DecidableEq, Repr, Inhabited

/-- The fault of a flaw that is no complaint. -/
def Flaw.fault? : Flaw → Option Fault
  | .malformed => none
  | .beyondEnd => some .beyondEnd
  | .tooLarge => some .tooLarge
  | .notATable => some .unfit
  | .notAList => some .lacksPart
  | .nameless => some .neverMade

/-- A value that may be missing, for want of which a text is not well formed. -/
def require {α : Type} : Option α → Except Flaw α
  | some a => .ok a
  | none => .error .malformed

/-- A character that may be missing because the text has ended. -/
def requireChar : Option Char → Except Flaw Char
  | some c => .ok c
  | none => .error .beyondEnd

end ApiScaffold.Toml
