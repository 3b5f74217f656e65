import ApiScaffold.Proofs.Pointers

set_option autoImplicit false

/-! # Writing pointers

A pointer is written from the steps that lead to a node: the keys with their tildes and slashes
escaped, the places in lists in decimal. Reading it again leads to that node, whatever the keys are
(`resolve_written`), and the name that it ends with is the last key or place (`name_written`). Only
a key without characters has no segment that counts. -/

namespace ApiScaffold

/-! ## Replacing -/

namespace Text

variable {old new text piece : List Char}

/-- The piece that was begun stands in front of what comes of the rest. -/
theorem intercalate_cutFrom {skip : Nat} :
    new.intercalate (cutFrom old skip text piece) =
      piece.reverse ++ new.intercalate (cutFrom old skip text []) := by
  induction text generalizing skip piece with
  | nil => simp [cutFrom]
  | cons c text ih =>
      cases skip with
      | succ skip => exact ih
      | zero =>
          rw [cutFrom, cutFrom]
          split
          · cases hrest : cutFrom old (old.length - 1) text [] with
            | nil => exact absurd hrest cutFrom_ne_nil
            | cons next more => simp [List.intercalate_cons_cons]
          · have hbegun : new.intercalate (cutFrom old 0 text [c]) =
                [c].reverse ++ new.intercalate (cutFrom old 0 text []) := ih
            rw [ih, hbegun]
            simp

theorem cutFrom_append_skip {front : List Char} :
    cutFrom old front.length (front ++ text) piece = cutFrom old 0 text piece := by
  induction front with
  | nil => rfl
  | cons c front ih => exact ih

theorem replace_nil : replace old new [] = [] := by
  simp [replace, cut, cutFrom]

/-- An occurrence at the front gives way. -/
theorem replace_append {c : Char} {rest : List Char} (hold : old = c :: rest) :
    replace old new (old ++ text) = new ++ replace old new text := by
  subst hold
  rw [replace, cut, List.cons_append, cutFrom, if_pos (by simp), List.length_cons,
    Nat.add_sub_cancel, cutFrom_append_skip]
  cases hrest : cutFrom (c :: rest) 0 text [] with
  | nil => exact absurd hrest cutFrom_ne_nil
  | cons next more => simp [replace, cut, hrest, List.intercalate_cons_cons]

/-- A character that no occurrence begins at is kept. -/
theorem replace_cons {c : Char} (h : old.isPrefixOf (c :: text) = false) :
    replace old new (c :: text) = c :: replace old new text := by
  rw [replace, cut, cutFrom, if_neg (by simp [h]), intercalate_cutFrom]
  rfl

theorem replace_cons_of_ne {c d : Char} {rest : List Char} (h : d ≠ c) :
    replace (c :: rest) new (d :: text) = d :: replace (c :: rest) new text :=
  replace_cons (by simp [List.isPrefixOf, h.symm])

/-- A separator stands between pieces without it and nowhere else. -/
theorem cut_intercalate {c : Char} {pieces : List (List Char)} (hne : pieces ≠ [])
    (h : ∀ piece ∈ pieces, c ∉ piece) : cut [c] ([c].intercalate pieces) = pieces := by
  induction pieces with
  | nil => exact absurd rfl hne
  | cons piece pieces ih =>
      obtain ⟨hfirst, hrest⟩ := List.forall_mem_cons.mp h
      cases pieces with
      | nil => simpa using cut_of_notMem hfirst
      | cons next more =>
          rw [List.intercalate_cons_cons, List.append_assoc, List.singleton_append,
            cut_append hfirst, ih (List.cons_ne_nil _ _) hrest]

/-- There is nothing to trim from a text whose last piece is not empty. -/
theorem trimBack_of_getLast?_cut {c : Char} (h : (cut [c] text).getLast? ≠ some []) :
    trimBack (· = c) text = text := by
  rcases List.eq_nil_or_concat' text with rfl | ⟨front, d, rfl⟩
  · rfl
  · have hd : d ≠ c := by
      rintro rfl
      exact h (getLast?_cut_append List.not_mem_nil)
    exact trimBack_append (by simpa using hd.symm) (List.cons_ne_nil _ _)

/-! ## Numerals -/

theorem digitValue?_digitChar {d : Nat} (h : d < 10) : digitValue? d.digitChar = some d := by
  have hall : ∀ d ∈ List.range 10, digitValue? d.digitChar = some d := by decide
  exact hall d (List.mem_range.mpr h)

/-- Digits that are written one behind the other are read one behind the other. -/
theorem foldlM_toDigits (i : Nat) :
    (Nat.toDigits 10 i).foldlM (fun n c => (digitValue? c).map (10 * n + ·)) 0 = some i := by
  induction i using Nat.strong_induction_on with
  | _ i ih =>
      rw [Nat.toDigits_eq_if (by decide)]
      split
      · next hsmall => simp [digitValue?_digitChar hsmall]
      · next hlarge =>
          rw [List.foldlM_append, ih (i / 10) (by omega)]
          simp [digitValue?_digitChar (Nat.mod_lt i (by decide : 0 < 10)), Nat.div_add_mod]

theorem isDigit_of_mem_toDigits {i : Nat} {c : Char} (h : c ∈ Nat.toDigits 10 i) :
    isDigit c = true := by
  have hread := foldlM_toDigits i
  obtain ⟨before, after, hsplit⟩ := List.append_of_mem h
  rw [hsplit, List.foldlM_append] at hread
  obtain ⟨n, -, hread⟩ := Option.bind_eq_some_iff.mp hread
  rw [List.foldlM_cons] at hread
  obtain ⟨n', hn', -⟩ := Option.bind_eq_some_iff.mp hread
  obtain ⟨d, hd, -⟩ := Option.map_eq_some_iff.mp hn'
  simp [isDigit, hd]

/-- A number that is written in decimal is a numeral. -/
theorem natural?_toString (i : Nat) :
    allDigits (toString i).toList = true ∧ natural? (toString i).toList = some i := by
  have hlist : (toString i).toList = Nat.toDigits 10 i := by simp [Nat.repr]
  cases hdigits : Nat.toDigits 10 i with
  | nil => exact absurd hdigits Nat.toDigits_ne_nil
  | cons c rest =>
      rw [hlist, hdigits]
      constructor
      · rw [allDigits, Bool.and_eq_true, List.all_eq_true]
        exact ⟨rfl, fun d hd => isDigit_of_mem_toDigits (hdigits ▸ hd)⟩
      · change (c :: rest).foldlM (fun n c => (digitValue? c).map (10 * n + ·)) 0 = some i
        rw [← hdigits, foldlM_toDigits]

end Text

/-! ## Escapes -/

namespace Pointer

variable {key : List Char}

/-- A segment with its tildes and then its slashes escaped. -/
def escape (key : List Char) : List Char :=
  Text.replace ['/'] ['~', '1'] (Text.replace ['~'] ['~', '0'] key)

/-- What one character of a segment is escaped to. -/
def escapeChar (c : Char) : List Char :=
  if c = '~' then ['~', '0'] else if c = '/' then ['~', '1'] else [c]

/-- A character gives way to a text wherever it stands. -/
theorem replace_singleton {c : Char} {new text : List Char} :
    Text.replace [c] new text = text.flatMap fun d => if d = c then new else [d] := by
  induction text with
  | nil => exact Text.replace_nil
  | cons d text ih =>
      rw [List.flatMap_cons, ← ih]
      split
      · next heq =>
          subst heq
          exact Text.replace_append rfl
      · next hne => exact Text.replace_cons_of_ne hne

/-- Escaping the tildes first is escaping each character by itself. -/
theorem escape_eq_flatMap : escape key = key.flatMap escapeChar := by
  rw [escape, replace_singleton, replace_singleton, List.flatMap_assoc]
  refine congrArg (key.flatMap ·) (funext fun c => ?_)
  unfold escapeChar
  split
  · simp
  · split <;> simp [*]

theorem slash_notMem_escape : '/' ∉ escape key := by
  rw [escape_eq_flatMap, List.mem_flatMap]
  rintro ⟨c, -, hc⟩
  unfold escapeChar at hc
  split at hc
  · simp at hc
  · split at hc
    · simp at hc
    · next hne => exact hne (List.mem_singleton.mp hc).symm

theorem escape_ne_nil (h : key ≠ []) : escape key ≠ [] :=
  Text.replace_ne_nil (by decide) (Text.replace_ne_nil (by decide) h)

/-- The slashes come back first: an escaped tilde is never followed by the mark of a slash. -/
theorem replace_slashes :
    Text.replace ['~', '1'] ['/'] (escape key) = Text.replace ['~'] ['~', '0'] key := by
  rw [escape_eq_flatMap, replace_singleton]
  induction key with
  | nil => exact Text.replace_nil
  | cons c key ih =>
      rw [List.flatMap_cons, List.flatMap_cons, ← ih]
      unfold escapeChar
      split
      · rw [List.cons_append, List.singleton_append, Text.replace_cons rfl,
          Text.replace_cons_of_ne (by decide)]
        rfl
      · next htilde =>
          split
          · next hslash =>
              subst hslash
              exact Text.replace_append rfl
          · exact Text.replace_cons_of_ne htilde

/-- Then the tildes come back. -/
theorem replace_tildes :
    Text.replace ['~', '0'] ['~'] (Text.replace ['~'] ['~', '0'] key) = key := by
  rw [replace_singleton]
  induction key with
  | nil => exact Text.replace_nil
  | cons c key ih =>
      rw [List.flatMap_cons]
      split
      · next htilde =>
          subst htilde
          rw [Text.replace_append rfl, ih]
          rfl
      · next htilde =>
          rw [List.singleton_append, Text.replace_cons_of_ne htilde, ih]

/-- Escapes are undone. -/
theorem unescape_escape (key : List Char) : unescape (escape key) = key := by
  rw [unescape, replace_slashes, replace_tildes]

/-- There is nothing to escape or to undo in a numeral. -/
theorem escape_toDigits (i : Nat) : escape (Nat.toDigits 10 i) = Nat.toDigits 10 i := by
  rw [escape_eq_flatMap]
  have hkept : ∀ c ∈ Nat.toDigits 10 i, escapeChar c = [c] := by
    intro c hc
    have hdigit := Text.isDigit_of_mem_toDigits hc
    have htilde : c ≠ '~' := by
      rintro rfl
      exact absurd hdigit (by decide)
    have hslash : c ≠ '/' := by
      rintro rfl
      exact absurd hdigit (by decide)
    rw [escapeChar, if_neg htilde, if_neg hslash]
  rw [List.flatMap_congr hkept, List.flatMap_singleton']

end Pointer

/-! ## From steps to a pointer and back -/

/-- The key or the place that a step goes to, as a text. -/
def Step.name : Step → String
  | .key text => text
  | .index i => toString i

namespace Pointer

/-- The segment that writes a step. -/
def segment : Step → String
  | .key key => String.ofList (escape key.toList)
  | .index i => toString i

/-- The pointer that writes steps from the root. -/
def written (steps : List Step) : String :=
  "#/" ++ "/".intercalate (steps.map segment)

variable {steps : List Step} {step : Step}

/-- A segment is the name of its step with the escapes, also where there is nothing to escape. -/
theorem toList_segment : (segment step).toList = escape step.name.toList := by
  cases step with
  | key key => simp [segment, Step.name]
  | index i => simp [segment, Step.name, Nat.repr, escape_toDigits]

theorem unescape_segment : String.ofList (unescape (segment step).toList) = step.name := by
  rw [toList_segment, unescape_escape, String.ofList_toList]

theorem slash_notMem_segment : '/' ∉ (segment step).toList :=
  toList_segment ▸ slash_notMem_escape

/-- Every step has a segment that counts, but for the key without characters. -/
theorem segment_ne_nil (h : step ≠ .key "") : (segment step).toList ≠ [] := by
  rw [toList_segment]
  refine escape_ne_nil fun hnil => ?_
  cases step with
  | key key => exact h (congrArg Step.key (String.toList_eq_nil_iff.mp hnil))
  | index i => simp [Step.name, Nat.repr, Nat.toDigits_ne_nil] at hnil

/-- The segments of a pointer as lists of characters. -/
def segments (steps : List Step) : List (List Char) :=
  steps.map fun step => (segment step).toList

theorem toList_written :
    (written steps).toList = '#' :: '/' :: ['/'].intercalate (segments steps) := by
  simp [written, segments, String.toList_intercalate, Function.comp_def]

theorem cut_segments (hne : steps ≠ []) :
    Text.cut ['/'] (['/'].intercalate (segments steps)) = segments steps := by
  refine Text.cut_intercalate (by simpa [segments] using hne) fun piece hpiece => ?_
  obtain ⟨step, -, rfl⟩ := List.mem_map.mp hpiece
  exact slash_notMem_segment

/-- The segments of a pointer name the steps that it was written from. -/
theorem segments?_written (hne : steps ≠ []) (hkeys : .key "" ∉ steps) :
    segments? (written steps) = some (steps.map Step.name) := by
  have hkept : ∀ piece ∈ segments steps, (!piece.isEmpty) = true := by
    intro piece hpiece
    obtain ⟨step, hstep, rfl⟩ := List.mem_map.mp hpiece
    simpa using segment_ne_nil fun heq => hkeys (heq ▸ hstep)
  have hread : segments? (written steps) =
      some ((([] :: segments steps).filter (!·.isEmpty)).map
        fun s => String.ofList (unescape s)) := by
    have hslash : Text.cut ['/'] ('/' :: ['/'].intercalate (segments steps)) = [] :: _ :=
      Text.cut_append List.not_mem_nil
    rw [segments?, toList_written]
    simp only [hslash, cut_segments hne]
  rw [hread, List.filter_cons_of_neg (by simp), List.filter_eq_self.mpr hkept, segments,
    List.map_map]
  exact congrArg some (List.map_congr_left fun step _ => unescape_segment)

/-- The name that a pointer ends with is the key or the place of the last step. -/
theorem name_written (hne : steps ≠ []) (hkeys : .key "" ∉ steps) :
    name (written steps) = (steps.getLast hne).name := by
  have hcut : Text.cut ['/'] (written steps).toList = ['#'] :: segments steps := by
    have hfront : Text.cut ['/'] (['#'] ++ '/' :: ['/'].intercalate (segments steps)) =
        ['#'] :: Text.cut ['/'] (['/'].intercalate (segments steps)) :=
      Text.cut_append (by decide)
    rw [toList_written]
    exact hfront.trans (congrArg _ (cut_segments hne))
  have hlast : (Text.cut ['/'] (written steps).toList).getLast? =
      some (segment (steps.getLast hne)).toList := by
    rw [hcut, List.getLast?_cons_of_ne_nil (by simpa [segments] using hne), segments,
      List.getLast?_map, List.getLast?_eq_some_getLast hne, Option.map_some]
  have hsegment : (segment (steps.getLast hne)).toList ≠ [] :=
    segment_ne_nil fun heq => hkeys (heq ▸ List.getLast_mem hne)
  have htrim : Text.trimBack (· = '/') (written steps).toList = (written steps).toList :=
    Text.trimBack_of_getLast?_cut (by simpa [hlast] using hsegment)
  simp only [name, htrim, hlast, Option.getD_some, unescape_segment]

end Pointer

/-! ## Walking -/

/-- The part of a value that a step goes to: a field of an object or an item of a list. -/
def Json.enter? : Json → ApiScaffold.Step → Option Json
  | .obj fields, .key key => fields.lookup key
  | .arr items, .index i => items[i]?
  | _, _ => none

/-- The value that steps lead to, one after the other. -/
def Json.along? (v : Json) (steps : List ApiScaffold.Step) : Option Json :=
  steps.foldlM Json.enter? v

namespace Node

variable {n : Node} {u v : Json} {step : Step} {steps : List Step}

theorem pointed_name (h : n.value.enter? step = some u) :
    n.pointed step.name = .ok (some (n.part step u)) := by
  unfold Json.enter? at h
  split at h
  · next fields key hfields => simp [pointed, hfields, Step.name, h]
  · next items i hitems =>
      obtain ⟨hdigits, hread⟩ := Text.natural?_toString i
      simp only [pointed, hitems, Step.name, hdigits, hread, h]
      rfl
  · cases h

/-- The names of steps lead to where the steps lead. -/
theorem descend_names (h : n.value.along? steps = some v) :
    n.descend (steps.map Step.name) = .ok (some ⟨n.document, steps.reverse ++ n.trail, v⟩) := by
  induction steps generalizing n with
  | nil =>
      cases h
      rfl
  | cons step steps ih =>
      rw [Json.along?, List.foldlM_cons] at h
      obtain ⟨u, hu, h⟩ := Option.bind_eq_some_iff.mp h
      have hrest := ih (n := n.part step u) h
      rw [List.map_cons, List.reverse_cons, List.append_assoc]
      exact bind_eq_ok.mpr ⟨_, pointed_name hu, hrest⟩

end Node

/-- The pointer that is written with the steps to a node leads to that node, and its name is the
last key or place. -/
theorem resolve_written (d : Document) (spec : Option String) {steps : List Step} {v : Json}
    (hne : steps ≠ []) (hkeys : .key "" ∉ steps) (h : d.root.along? steps = some v) :
    Resolver.resolve ⟨d, spec⟩ (Pointer.written steps) = .ok ⟨d, steps.reverse, v⟩ ∧
      Pointer.name (Pointer.written steps) = (steps.getLast hne).name := by
  refine ⟨?_, Pointer.name_written hne hkeys⟩
  have hdescend := Node.descend_names (n := d.top) h
  rw [Document.top, List.append_nil] at hdescend
  rw [Resolver.resolve, Resolver.locate, Pointer.segments?_written hne hkeys]
  exact bind_eq_ok.mpr ⟨_, hdescend, rfl⟩

/-- Keys that look like escapes, like places in lists or like pointers. -/
def twistedKeys : Document where
  tag := 0
  root := .obj [
    ("~1", .arr [.null, .obj [("a~/b", .obj [("0", .str "found")]), ("a/b", .str "beside")]]),
    ("/", .str "beside")]
  linked := false

theorem resolve_written_twistedKeys :
    Pointer.written [.key "~1", .index 1, .key "a~/b", .key "0"] = "#/~01/1/a~0~1b/0" ∧
      Resolver.resolve ⟨twistedKeys, none⟩
          (Pointer.written [.key "~1", .index 1, .key "a~/b", .key "0"]) =
        .ok ⟨twistedKeys, [.key "0", .key "a~/b", .index 1, .key "~1"], .str "found"⟩ ∧
      Pointer.name (Pointer.written [.key "~1", .index 1, .key "a~/b", .key "0"]) = "0" :=
  ⟨by decide,
    resolve_written twistedKeys none (List.cons_ne_nil _ _) (by decide) rfl⟩

end ApiScaffold
