set_option autoImplicit false

/-! # Cutting texts

Texts are cut as lists of characters: at a fixed front or back, at every occurrence of a separator,
or at both ends while a test holds. -/

namespace ApiScaffold.Text

/-- What follows `front` in a text that begins with it. -/
def dropFront? : List Char → List Char → Option (List Char)
  | [], text => some text
  | _ :: _, [] => none
  | f :: front, c :: text => if f = c then dropFront? front text else none

theorem dropFront?_eq_some_iff {front text rest : List Char} :
    dropFront? front text = some rest ↔ text = front ++ rest := by
  induction front generalizing text with
  | nil => simp [dropFront?, eq_comm]
  | cons f front ih =>
    cases text with
    | nil => simp [dropFront?]
    | cons c text =>
      by_cases h : f = c
      · simp [dropFront?, h, ih]
      · simp [dropFront?, h, Ne.symm h]

/-- What precedes `back` in a text that ends with it. -/
def dropBack? (back text : List Char) : Option (List Char) :=
  (dropFront? back.reverse text.reverse).map List.reverse

theorem dropBack?_eq_some_iff {back text rest : List Char} :
    dropBack? back text = some rest ↔ text = rest ++ back := by
  simp only [dropBack?, Option.map_eq_some_iff, dropFront?_eq_some_iff]
  constructor
  · rintro ⟨r, h, rfl⟩
    simpa using congrArg List.reverse h
  · intro h
    exact ⟨rest.reverse, by simp [h], by simp⟩

/-- The pieces of a text between the occurrences of a separator, found from the left; `skip` counts
the characters of an occurrence still to pass, and `piece` holds the current piece backwards. -/
def cutFrom (separator : List Char) : Nat → List Char → List Char → List (List Char)
  | _, [], piece => [piece.reverse]
  | skip + 1, _ :: text, piece => cutFrom separator skip text piece
  | 0, c :: text, piece =>
    if separator.isPrefixOf (c :: text) then
      piece.reverse :: cutFrom separator (separator.length - 1) text []
    else cutFrom separator 0 text (c :: piece)

/-- The pieces of a text between the occurrences of a separator; there is always at least one. -/
def cut (separator text : List Char) : List (List Char) :=
  cutFrom separator 0 text []

/-- Every occurrence of `old`, found from the left, gives way to `new`. -/
def replace (old new text : List Char) : List Char :=
  new.intercalate (cut old text)

/-- A text without the characters at its end that pass the test. -/
def trimBack (test : Char → Bool) (text : List Char) : List Char :=
  (text.reverse.dropWhile test).reverse

/-- A text without the characters at both ends that pass the test. -/
def trim (test : Char → Bool) (text : List Char) : List Char :=
  trimBack test (text.dropWhile test)

/-- The characters that count as blank space: controls and separators of Unicode 14. -/
def isBlank (c : Char) : Bool :=
  let code := c.toNat
  (9 ≤ code && code ≤ 13) || (28 ≤ code && code ≤ 32) || code == 0x85 || code == 0xa0 ||
    code == 0x1680 || (0x2000 ≤ code && code ≤ 0x200a) || code == 0x2028 || code == 0x2029 ||
    code == 0x202f || code == 0x205f || code == 0x3000

/-- The characters that are white space: the separators of information among the controls are none.
-/
def isSpace (c : Char) : Bool :=
  isBlank c && !(28 ≤ c.toNat && c.toNat ≤ 31)

theorem isBlank_of_isWhitespace {c : Char} (h : c.isWhitespace = true) : isBlank c = true := by
  simp only [Char.isWhitespace, Bool.or_eq_true, decide_eq_true_eq] at h
  rcases h with ((rfl | rfl) | rfl) | rfl <;> rfl

example : cut [' ', '|', ' '] ['a', ' ', '|', ' ', 'b'] = [['a'], ['b']] := by decide
example : cut ['/'] ['/', '/'] = [[], [], []] := by decide
example : replace ['~', '1'] ['/'] ['a', '~', '1', '~'] = ['a', '/', '~'] := by decide

/-! ## The same on strings -/

/-- The pieces of a string between the occurrences of a separator. -/
def pieces (separator text : String) : List String :=
  (cut separator.toList text.toList).map String.ofList

/-- Every occurrence of `old` in a string gives way to `new`. -/
def substitute (old new text : String) : String :=
  String.ofList (replace old.toList new.toList text.toList)

/-- Whether a string begins with another. -/
def beginsWith (front text : String) : Bool :=
  front.toList.isPrefixOf text.toList

/-- Whether a string ends with another. -/
def finishesWith (back text : String) : Bool :=
  back.toList.isSuffixOf text.toList

/-- Whether a string holds another somewhere. -/
def holds (part text : String) : Bool :=
  (cut part.toList text.toList).length > 1

/-- A string in lower case; only the letters `A` to `Z` change, which is enough to compare with
texts of lower-case Latin letters. -/
def lowerLatin (text : String) : String :=
  String.ofList (text.toList.map Char.toLower)

end ApiScaffold.Text
