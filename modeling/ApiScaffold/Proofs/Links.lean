import ApiScaffold.Proofs.Pointers
import ApiScaffold.Spec.Load

set_option autoImplicit false

/-! # Links and pointers

A specification is read twice: as it was written, where pointers are looked up segment by segment,
and with its references standing for their targets, where links are followed. The two cut the same
text, and read numerals differently. So a link that is followed without meeting a reference leads
where its pointer leads, just when it is spelled out (`resolve_iff_spelledOut`): no key on its way
is empty, and every place in a list is written in digits alone. -/

namespace ApiScaffold

/-! ## Percent escapes and leading slashes -/

namespace Text

variable {c : Char} {text : List Char}

theorem percentDecode_cons (h : c ≠ '%') : percentDecode (c :: text) = c :: percentDecode text := by
  rw [percentDecode, unescapeBytes.eq_def]
  split
  · next heq => cases heq
  · next heq =>
      cases heq
      exact absurd rfl h
  · next heq =>
      cases heq
      rfl

/-- What is behind the leading slashes of a text without escapes has none either. -/
theorem percentDecode_dropWhile_slash (h : percentDecode text = text) :
    percentDecode (text.dropWhile (· = '/')) = text.dropWhile (· = '/') := by
  induction text with
  | nil => rfl
  | cons d text ih =>
      by_cases hslash : d = '/'
      · subst hslash
        rw [percentDecode_cons (by decide)] at h
        simpa using ih (List.cons.inj h).2
      · simpa [List.dropWhile_cons, hslash] using h

/-- Pieces that are empty do not tell whether a text has leading separators. -/
theorem filter_cut_dropWhile :
    (cut ['/'] (text.dropWhile (· = '/'))).filter (!·.isEmpty) =
      (cut ['/'] text).filter (!·.isEmpty) := by
  induction text with
  | nil => rfl
  | cons d text ih =>
      by_cases hslash : d = '/'
      · subst hslash
        have hfront : cut ['/'] ('/' :: text) = [] :: cut ['/'] text := cut_append List.not_mem_nil
        rw [hfront, List.filter_cons_of_neg (by simp), ← ih]
        simp
      · simp [hslash]

end Text

/-- A pointer skips the segments of the link that are empty. -/
theorem Pointer.segments_eq_filter {fragment : List Char}
    (h : Text.percentDecode fragment = fragment) :
    segments? (String.ofList ('#' :: fragment)) =
      some ((Node.linkSegments fragment).filter (· ≠ "")) := by
  have hescape : ∀ s : List Char, String.ofList (unescape s) ≠ "" ↔ (!s.isEmpty) = true := by
    intro s
    cases s with
    | nil => decide
    | cons c s => simpa using unescape_ne_nil (List.cons_ne_nil c s)
  have hsegments : (Node.linkSegments fragment).filter (· ≠ "") =
      ((Text.cut ['/'] (fragment.dropWhile (· = '/'))).filter (!·.isEmpty)).map
        fun s => String.ofList (unescape s) := by
    simp only [Node.linkSegments]
    split
    · next hempty => simp [List.isEmpty_iff.mp hempty, Text.cut, Text.cutFrom]
    · rw [Text.percentDecode_dropWhile_slash h, List.filter_map]
      refine congrArg (List.map _) (List.filter_congr fun s _ => ?_)
      rw [Bool.eq_iff_iff, ← hescape s]
      simp [unescape]
  rw [hsegments, Text.filter_cut_dropWhile]
  simp [segments?]

/-! ## Numerals -/

namespace Text

variable {c : Char} {text : List Char}

/-- The codes of the blanks. -/
def blanks : List Nat := [
    9, 10, 11, 12, 13, 28, 29, 30, 31, 32, 0x85, 0xa0, 0x1680, 0x2000, 0x2001, 0x2002, 0x2003,
    0x2004, 0x2005, 0x2006, 0x2007, 0x2008, 0x2009, 0x200a, 0x2028, 0x2029, 0x202f, 0x205f, 0x3000]

theorem toNat_mem_blanks (h : isBlank c = true) : c.toNat ∈ blanks := by
  simp only [isBlank, Bool.or_eq_true, Bool.and_eq_true, decide_eq_true_eq, beq_iff_eq] at h
  simp only [blanks, List.mem_cons, List.not_mem_nil, or_false]
  omega

theorem isDigit_of_isBlank (h : isBlank c = true) : isDigit c = false := by
  have hnone : ∀ code ∈ blanks, isDigit (Char.ofNat code) = false := by decide
  simpa using hnone c.toNat (toNat_mem_blanks h)

/-- Digits have no blanks to be trimmed. -/
theorem trim_of_digits (h : ∀ c ∈ text, isDigit c = true) : trim isBlank text = text := by
  have hkeep : ∀ l : List Char, (∀ c ∈ l, isDigit c = true) → l.dropWhile isBlank = l := by
    intro l hl
    refine List.dropWhile_eq_self_iff.mpr fun hpos hblank => ?_
    have hdigit := hl _ (List.getElem_mem hpos)
    rw [isDigit_of_isBlank hblank] at hdigit
    cases hdigit
  rw [trim, hkeep text h, trimBack, hkeep text.reverse (by simpa using h), List.reverse_reverse]

/-- Where there are only digits, underscores make no difference. -/
theorem grouped?_of_digits (h : ∀ c ∈ text, isDigit c = true) : grouped? text = natural? text := by
  cases text with
  | nil => rfl
  | cons c text =>
      unfold grouped?
      extract_lets step
      have hstep : ∀ state, ∀ c, isDigit c = true →
          step state c = (digitValue? c).map fun d => (10 * state.1 + d, true) := by
        intro state c hc
        have hunderscore : c ≠ '_' := by
          rintro rfl
          exact absurd hc (by decide)
        cases hd : digitValue? c <;> simp [step, hd, hunderscore]
      have hrun : ∀ (l : List Char) (n : Nat), (∀ c ∈ l, isDigit c = true) →
          l.foldlM step (n, true) =
            (l.foldlM (fun n c => (digitValue? c).map (10 * n + ·)) n).map (·, true) := by
        intro l
        induction l with
        | nil => intro n _; rfl
        | cons c l ih =>
            intro n hl
            rw [List.foldlM_cons, List.foldlM_cons, hstep _ _ (hl c List.mem_cons_self)]
            cases digitValue? c with
            | none => rfl
            | some d => exact ih (10 * n + d) fun e he => hl e (List.mem_cons_of_mem _ he)
      -- it makes no difference whether an underscore could stand in front
      have hfirst : (c :: text).foldlM step (0, false) = (c :: text).foldlM step (0, true) := by
        rw [List.foldlM_cons, List.foldlM_cons, hstep _ _ (h c List.mem_cons_self),
          hstep _ _ (h c List.mem_cons_self)]
      change _ = (c :: text).foldlM (fun n c => (digitValue? c).map (10 * n + ·)) 0
      dsimp only
      rw [hfirst, hrun _ _ h]
      cases (c :: text).foldlM (fun n c => (digitValue? c).map (10 * n + ·)) 0 <;> rfl

/-- Digits alone are the same numeral for lists and for links. -/
theorem integer?_of_allDigits (h : allDigits text = true) :
    integer? text = (natural? text).map fun n => (n : Int) := by
  rw [allDigits, Bool.and_eq_true, List.all_eq_true] at h
  rw [integer?, trim_of_digits h.2]
  split
  · exact absurd (h.2 '-' List.mem_cons_self) (by decide)
  · exact absurd (h.2 '+' List.mem_cons_self) (by decide)
  · rw [grouped?_of_digits h.2]

end Text

namespace Node

variable {n b next : Node} {segment : String}

/-! ## One segment -/

/-- The same node, looked at in another document. -/
def inDocument (n : Node) (d : Document) : Node := { n with document := d }

/-- Whether a segment names a part the way a pointer does: a key by a text that is not empty, a
place in a list by digits alone. Texts are not entered. -/
def namesPart (n : Node) (segment : String) : Bool :=
  match n.value with
  | .obj _ => segment != ""
  | .arr _ => Text.allDigits segment.toList
  | _ => false

theorem ne_empty_of_namesPart (h : n.namesPart segment = true) : segment ≠ "" := by
  rintro rfl
  unfold namesPart at h
  split at h <;> exact absurd h (by decide)

theorem namesPart_of_pointed (hne : segment ≠ "") (h : n.pointed segment = .ok (some b)) :
    n.namesPart segment = true := by
  rcases pointed_eq_some h with ⟨_, _, _, hitems, hdigits, -⟩ | ⟨_, _, hfields, -⟩
  · simpa [namesPart, hitems] using hdigits
  · simpa [namesPart, hfields] using hne

theorem placeInList?_ofNat {length i : Nat} :
    placeInList? length i = if i < length then some i else none := by
  have hpositive : ¬(i : Int) < 0 := by omega
  simp [placeInList?, hpositive]

/-- The item that digits stand for is the same for lists and for links. -/
theorem linkPart?_of_allDigits {items : List Json} (hitems : n.value = .arr items)
    (hdigits : Text.allDigits segment.toList = true) :
    n.linkPart? segment = (Text.natural? segment.toList).bind fun i =>
      (items[i]?).map (n.part (.index i)) := by
  simp only [linkPart?, hitems, Text.integer?_of_allDigits hdigits]
  cases Text.natural? segment.toList with
  | none => rfl
  | some i =>
      have hplace := @placeInList?_ofNat items.length i
      by_cases hi : i < items.length
      · simp [hplace, hi]
      · simp [hplace, hi]

/-- A pointer finds the part that a link finds, if the segment names it. -/
theorem pointed_of_linkPart? (d : Document) (hname : n.namesPart segment = true)
    (h : n.linkPart? segment = some next) :
    (n.inDocument d).pointed segment = .ok (some (next.inDocument d)) := by
  unfold namesPart at hname
  split at hname
  · next fields hfields =>
      simp only [linkPart?, hfields] at h
      obtain ⟨u, hu, rfl⟩ := Option.map_eq_some_iff.mp h
      simp [pointed, inDocument, hfields, hu, part]
  · next items hitems =>
      rw [linkPart?_of_allDigits hitems hname] at h
      obtain ⟨i, hi, h⟩ := Option.bind_eq_some_iff.mp h
      obtain ⟨u, hu, rfl⟩ := Option.map_eq_some_iff.mp h
      simp [pointed, inDocument, hitems, hname, hi, hu, part]
  · cases hname

theorem length_trail_of_linkPart? (h : n.linkPart? segment = some next) :
    next.trail.length = n.trail.length + 1 := by
  unfold linkPart? at h
  split at h
  · obtain ⟨u, -, rfl⟩ := Option.map_eq_some_iff.mp h
    rfl
  · obtain ⟨i, -, h⟩ := Option.bind_eq_some_iff.mp h
    obtain ⟨u, -, h⟩ := Option.bind_eq_some_iff.mp h
    cases h
    rfl
  · obtain ⟨i, -, h⟩ := Option.bind_eq_some_iff.mp h
    obtain ⟨c, -, h⟩ := Option.bind_eq_some_iff.mp h
    cases h
    rfl
  · cases h

theorem length_trail_of_pointed (h : n.pointed segment = .ok (some next)) :
    next.trail.length = n.trail.length + 1 := by
  rcases pointed_eq_some h with ⟨_, _, _, -, -, -, rfl⟩ | ⟨_, _, -, -, rfl⟩ <;> rfl

/-! ## All segments -/

variable {link : Node} {segments rest : List String}

/-- Whether the way along the segments of a link leads into a node that is a link itself. -/
def crossesLink : Node → List String → Bool
  | _, [] => false
  | n, segment :: rest =>
    (referenceText? n.value).isSome || (n.linkPart? segment).any (·.crossesLink rest)

/-- Whether every segment of a link names the part that it leads to. -/
def spelledOut : Node → List String → Bool
  | _, [] => true
  | n, segment :: rest => n.namesPart segment && (n.linkPart? segment).all (·.spelledOut rest)

theorem walkLink_cons_eq_ok (hcross : n.crossesLink (segment :: rest) = false)
    (h : walkLink settle link n (segment :: rest) = .ok b) :
    ∃ next, n.linkPart? segment = some next ∧ next.crossesLink rest = false ∧
      walkLink settle link next rest = .ok b := by
  rw [crossesLink, Bool.or_eq_false_iff, Option.isSome_eq_false_iff, Option.isNone_iff_eq_none]
    at hcross
  obtain ⟨hplain, hcross⟩ := hcross
  obtain ⟨here, hhere, hrest⟩ := ite_bind_eq_ok.mp h
  have heq : here = n := by
    split at hhere
    · exact (pure_eq_ok.mp hhere).symm
    · exact Except.ok.inj (hhere.symm.trans (settle_of_noLink hplain))
  subst heq
  dsimp only at hrest
  split at hrest
  · next next hnext =>
      rw [hnext] at hcross
      exact ⟨next, hnext, hcross, hrest⟩
  · exact absurd hrest throw_ne_ok

/-- A link takes one step for each of its segments. -/
theorem length_trail_of_walkLink (hcross : n.crossesLink segments = false)
    (h : walkLink settle link n segments = .ok b) :
    b.trail.length = n.trail.length + segments.length := by
  induction segments generalizing n with
  | nil =>
      cases h
      rfl
  | cons segment rest ih =>
      obtain ⟨next, hnext, hcross, h⟩ := walkLink_cons_eq_ok hcross h
      rw [ih hcross h, length_trail_of_linkPart? hnext, List.length_cons]
      omega

theorem length_trail_of_descend (h : n.descend segments = .ok (some b)) :
    b.trail.length = n.trail.length + segments.length := by
  induction segments generalizing n with
  | nil =>
      cases h
      rfl
  | cons segment rest ih =>
      obtain ⟨next, hnext, h⟩ := descend_cons_eq_some h
      rw [ih h, length_trail_of_pointed hnext, List.length_cons]
      omega

/-- Where no segment is empty, a pointer reaches what a link reaches just when it is spelled out. -/
theorem descend_iff_spelledOut (d : Document) (hcross : n.crossesLink segments = false)
    (hwalk : walkLink settle link n segments = .ok b) (hne : ∀ s ∈ segments, s ≠ "") :
    (n.inDocument d).descend segments = .ok (some (b.inDocument d)) ↔
      n.spelledOut segments = true := by
  induction segments generalizing n with
  | nil =>
      cases hwalk
      exact iff_of_true rfl rfl
  | cons segment rest ih =>
      obtain ⟨next, hnext, hcross, hwalk⟩ := walkLink_cons_eq_ok hcross hwalk
      rw [spelledOut, hnext, Option.all_some]
      cases hname : n.namesPart segment with
      | true =>
          rw [descend, pointed_of_linkPart? d hname hnext, Bool.true_and]
          exact ih hcross hwalk fun s hs => hne s (List.mem_cons_of_mem _ hs)
      | false =>
          refine iff_of_false (fun hdescend => ?_) (by simp)
          obtain ⟨found, hfound, -⟩ := descend_cons_eq_some hdescend
          have hnames := namesPart_of_pointed (hne segment List.mem_cons_self) hfound
          exact absurd (hnames.symm.trans hname) (by simp)

theorem ne_empty_of_spelledOut (hcross : n.crossesLink segments = false)
    (hwalk : walkLink settle link n segments = .ok b) (h : n.spelledOut segments = true) :
    ∀ s ∈ segments, s ≠ "" := by
  induction segments generalizing n with
  | nil => simp
  | cons segment rest ih =>
      obtain ⟨next, hnext, hcross, hwalk⟩ := walkLink_cons_eq_ok hcross hwalk
      rw [spelledOut, hnext, Option.all_some, Bool.and_eq_true] at h
      exact List.forall_mem_cons.mpr ⟨ne_empty_of_namesPart h.1, ih hcross hwalk h.2⟩

end Node

/-! ## Whole pointers -/

theorem Resolver.resolve_eq_ok {r : Resolver} {pointer : String} {n : Node} :
    r.resolve pointer = .ok n ↔ r.locate pointer = .ok (some n) := by
  constructor
  · intro h
    obtain ⟨found, hfound, h⟩ := bind_eq_ok.mp h
    cases found with
    | none => exact absurd h throw_ne_ok
    | some m =>
        obtain rfl : m = n := pure_eq_ok.mp h
        exact hfound
  · intro h
    exact bind_eq_ok.mpr ⟨some n, h, rfl⟩

/-- A pointer leads to the node that a link of the same text is followed to, without meeting another
link, just when the link is spelled out. -/
theorem Resolver.resolve_iff_spelledOut (s : Spec) (spec : Option String) {fragment : List Char}
    {link n : Node} (hdecoded : Text.percentDecode fragment = fragment)
    (hcross : s.resolved.top.crossesLink (Node.linkSegments fragment) = false)
    (hfound : Node.walkLink Node.settle link s.resolved.top (Node.linkSegments fragment) = .ok n) :
    (Resolver.mk s.written spec).resolve (String.ofList ('#' :: fragment)) =
        .ok (n.inDocument s.written) ↔
      s.resolved.top.spelledOut (Node.linkSegments fragment) = true := by
  have hlocate : (Resolver.mk s.written spec).locate (String.ofList ('#' :: fragment)) =
      (s.resolved.top.inDocument s.written).descend
        ((Node.linkSegments fragment).filter (· ≠ "")) := by
    rw [Resolver.locate, Pointer.segments_eq_filter hdecoded]
    rfl
  rw [resolve_eq_ok, hlocate]
  by_cases hne : ∀ segment ∈ Node.linkSegments fragment, segment ≠ ""
  · rw [List.filter_eq_self.mpr (by simpa using hne)]
    exact Node.descend_iff_spelledOut s.written hcross hfound hne
  · -- a pointer that skips a segment makes too few steps
    refine iff_of_false (fun hdescend => hne ?_) fun hspelled =>
      hne (Node.ne_empty_of_spelledOut hcross hfound hspelled)
    have hlength := Node.length_trail_of_descend hdescend
    have htrail := Node.length_trail_of_walkLink hcross hfound
    have hall : ((Node.linkSegments fragment).filter (· ≠ "")).length =
        (Node.linkSegments fragment).length := by
      simp only [Node.inDocument] at hlength
      omega
    simpa using List.length_filter_eq_length_iff.mp hall

/-- Keys that are empty, hold a slash or are numerals, a list, and texts. -/
def Spec.roads : Spec where
  path := "roads.yaml"
  content := .obj [("openapi", .str "3.0.0"),
    ("a", .obj [("", .obj [("b", .str "behind nothing")]), ("b", .str "in front")]),
    ("paths", .obj [("/a~b", .arr [.obj [("x", .null)], .obj [("7", .bool true)]])]),
    ("list", .arr [.str "first", .str "last"])]

/-- Escapes, a place in a list and a key of digits are read alike. -/
theorem Resolver.roads_resolve :
    (Resolver.mk Spec.roads.written none).resolve "#/paths/~1a~0b/1/7" =
      .ok ⟨Spec.roads.written, [.key "7", .index 1, .key "/a~b", .key "paths"], .bool true⟩ :=
  (@Resolver.resolve_iff_spelledOut Spec.roads none "/paths/~1a~0b/1/7".toList
    Spec.roads.resolved.top
    ⟨Spec.roads.resolved, [.key "7", .index 1, .key "/a~b", .key "paths"], .bool true⟩
    (by decide +kernel) (by decide +kernel) (by decide +kernel)).mpr (by decide +kernel)

/-- An empty key is skipped; a place counted from the end, or a character of a text, is not
found. -/
theorem Resolver.roads_differ :
    let roads := Spec.roads
    let follow (fragment : String) :=
      (Node.walkLink Node.settle ⟨roads.resolved, [.key "elsewhere"], .null⟩ roads.resolved.top
        (Node.linkSegments fragment.toList)).map (·.value)
    let resolve (fragment : String) :=
      ((Resolver.mk roads.written none).resolve ("#" ++ fragment)).map (·.value)
    (∀ fragment ∈ ["/a//b", "/list/-1", "/list/0/0"],
      roads.resolved.top.crossesLink (Node.linkSegments fragment.toList) = false) ∧
      follow "/a//b" = .ok (.str "behind nothing") ∧ resolve "/a//b" = .ok (.str "in front") ∧
      follow "/list/-1" = .ok (.str "last") ∧
      resolve "/list/-1" = .error (.complaint (.unresolved "#/list/-1") none) ∧
      follow "/list/0/0" = .ok (.str "f") ∧
      resolve "/list/0/0" = .error (.complaint (.unresolved "#/list/0/0") none) := by
  decide +kernel

end ApiScaffold
