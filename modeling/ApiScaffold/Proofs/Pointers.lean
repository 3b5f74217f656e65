import ApiScaffold.Proofs.Places
import Mathlib.Data.List.TakeWhile

set_option autoImplicit false

/-! # Pointers to named schemas

A pointer that names a schema leads from the root to the field of its name among the named schemas,
and nowhere else. -/

namespace ApiScaffold

/-! ## Cutting at a character -/

namespace Text

variable {c : Char} {front text piece : List Char}

theorem cutFrom_of_notMem (h : c ∉ text) : cutFrom [c] 0 text piece = [piece.reverse ++ text] := by
  induction text generalizing piece with
  | nil => simp [cutFrom]
  | cons d text ih =>
      rw [List.mem_cons, not_or] at h
      rw [cutFrom, if_neg (by simpa using h.1), ih h.2]
      simp

theorem cutFrom_append :
    cutFrom [c] 0 (front ++ c :: text) piece = cutFrom [c] 0 front piece ++ cut [c] text := by
  induction front generalizing piece with
  | nil => simp [cutFrom, cut]
  | cons d front ih =>
      rcases eq_or_ne c d with rfl | hd
      · simp [cutFrom, ih]
      · simp [cutFrom, hd, ih]

/-- A text without the separator is one piece. -/
theorem cut_of_notMem (h : c ∉ text) : cut [c] text = [text] := by
  rw [cut, cutFrom_of_notMem h]
  rfl

/-- A separator stands between the pieces in front of it and those behind it. -/
theorem cut_append_cons : cut [c] (front ++ c :: text) = cut [c] front ++ cut [c] text :=
  cutFrom_append

/-- What stands in front of the first separator is the first piece. -/
theorem cut_append (h : c ∉ front) : cut [c] (front ++ c :: text) = front :: cut [c] text := by
  rw [cut_append_cons, cut_of_notMem h]
  rfl

/-- Trimming stops at a last part without the character. -/
theorem trimBack_append (h : c ∉ text) (hne : text ≠ []) :
    trimBack (· = c) (front ++ text) = front ++ text := by
  cases hback : text.reverse with
  | nil => exact absurd (List.reverse_eq_nil_iff.mp hback) hne
  | cons d more =>
      have hd : d ≠ c := by
        rintro rfl
        exact h (List.mem_reverse.mp (hback ▸ List.mem_cons_self))
      rw [trimBack, List.reverse_append, hback, List.cons_append,
        List.dropWhile_cons_of_neg (by simpa using hd), ← List.cons_append, ← hback,
        ← List.reverse_append, List.reverse_reverse]

/-- A text is cut at its last separator. -/
theorem exists_last (h : c ∈ text) : ∃ front back, text = front ++ c :: back ∧ c ∉ back := by
  obtain ⟨back, front, hsplit, hback⟩ := List.eq_append_cons_of_mem (List.mem_reverse.mpr h)
  refine ⟨front.reverse, back.reverse, ?_, by simpa using hback⟩
  rw [← List.reverse_reverse text, hsplit]
  simp

/-- What stands behind the last separator is the last piece. -/
theorem getLast?_cut_append (h : c ∉ text) :
    (cut [c] (front ++ c :: text)).getLast? = some text := by
  rw [cut_append_cons, cut_of_notMem h, List.getLast?_concat]

/-- The last piece of a text that does not end with the separator is not empty. -/
theorem getLast?_cut_ne_nil (hne : text ≠ []) (hlast : text.getLast? ≠ some c) :
    (cut [c] text).getLast?.getD [] ≠ [] := by
  by_cases hmem : c ∈ text
  · obtain ⟨front, back, rfl, hback⟩ := exists_last hmem
    rw [getLast?_cut_append hback]
    rintro rfl
    exact hlast (by simp)
  · rw [cut_of_notMem hmem]
    exact hne

theorem cutFrom_ne_nil {separator : List Char} {skip : Nat} :
    cutFrom separator skip text piece ≠ [] := by
  induction text generalizing skip piece with
  | nil => simp [cutFrom]
  | cons d text ih =>
      cases skip with
      | succ skip => exact ih
      | zero =>
          rw [cutFrom]
          split
          · exact List.cons_ne_nil _ _
          · exact ih

theorem intercalate_cutFrom_ne_nil {old new : List Char} (hnew : new ≠ []) {skip : Nat}
    (h : piece ≠ [] ∨ skip = 0 ∧ text ≠ []) :
    new.intercalate (cutFrom old skip text piece) ≠ [] := by
  induction text generalizing skip piece with
  | nil =>
      have hpiece : piece ≠ [] := h.resolve_right fun hboth => hboth.2 rfl
      simpa [cutFrom] using hpiece
  | cons d text ih =>
      cases skip with
      | succ skip => exact ih (Or.inl (h.resolve_right fun hboth => by cases hboth.1))
      | zero =>
          rw [cutFrom]
          split
          · cases hrest : cutFrom old (old.length - 1) text [] with
            | nil => exact absurd hrest cutFrom_ne_nil
            | cons next more => simp [List.intercalate_cons_cons, hnew]
          · exact ih (Or.inl (List.cons_ne_nil _ _))

/-- Replacing does not empty a text. -/
theorem replace_ne_nil {old new : List Char} (hnew : new ≠ []) (h : text ≠ []) :
    replace old new text ≠ [] :=
  intercalate_cutFrom_ne_nil hnew (Or.inr ⟨rfl, h⟩)

end Text

/-! ## Named schemas -/

namespace Pointer

theorem unescape_ne_nil {segment : List Char} (h : segment ≠ []) : unescape segment ≠ [] :=
  Text.replace_ne_nil (by decide) (Text.replace_ne_nil (by decide) h)

/-- A pointer into the document ends with a name. -/
theorem name_ne_empty {pointer : String} {segments : List String}
    (h : segments? pointer = some segments) : name pointer ≠ "" := by
  unfold segments? at h
  split at h
  · next path hpath =>
      have hne : Text.trimBack (· = '/') pointer.toList ≠ [] := by
        intro hnil
        rw [Text.trimBack, List.reverse_eq_nil_iff, List.dropWhile_eq_nil_iff] at hnil
        have hall : ∀ d ∈ pointer.toList, d = '/' := by simpa using hnil
        exact absurd (hall '#' (hpath ▸ List.mem_cons_self)) (by decide)
      have hlast : (Text.trimBack (· = '/') pointer.toList).getLast? ≠ some '/' := by
        have hhead := List.head?_dropWhile_not (· = '/') pointer.toList.reverse
        rw [Text.trimBack, List.getLast?_reverse]
        intro hsome
        rw [hsome] at hhead
        cases hhead
      have hpiece := unescape_ne_nil (Text.getLast?_cut_ne_nil hne hlast)
      simpa [name] using hpiece
  · cases h

/-- Whether a pointer names a schema: it leads into the named schemas, to one of them. -/
def namesSchema (pointer : String) : Bool :=
  isComponent pointer && pointer != schemas

theorem exists_rest {pointer : String} (h : namesSchema pointer = true) :
    ∃ rest, pointer.toList = schemas.toList ++ rest ∧ '/' ∉ rest ∧ rest ≠ [] := by
  rw [namesSchema, Bool.and_eq_true, isComponent] at h
  obtain ⟨hcomponent, hne⟩ := h
  split at hcomponent
  · next rest hrest =>
      rw [Text.dropFront?_eq_some_iff] at hrest
      refine ⟨rest, hrest, by simpa using hcomponent, ?_⟩
      rintro rfl
      rw [List.append_nil] at hrest
      simp [String.toList_inj.mp hrest] at hne
  · cases hcomponent

theorem toList_schemas (rest : List Char) :
    schemas.toList ++ rest =
      '#' :: '/' :: ("components".toList ++ '/' :: ("schemas".toList ++ '/' :: rest)) := by
  have hfront : schemas.toList =
      '#' :: '/' :: ("components".toList ++ '/' :: ("schemas".toList ++ ['/'])) := by decide
  rw [hfront]
  simp only [List.append_assoc, List.cons_append, List.nil_append]

/-- The steps that a pointer to a named schema is written with. -/
theorem cut_way {rest : List Char} (h : '/' ∉ rest) :
    Text.cut ['/'] ("components".toList ++ '/' :: ("schemas".toList ++ '/' :: rest)) =
      ["components".toList, "schemas".toList, rest] := by
  rw [Text.cut_append (by decide), Text.cut_append (by decide), Text.cut_of_notMem h]

theorem name_of_rest {pointer : String} {rest : List Char}
    (hrest : pointer.toList = schemas.toList ++ rest) (hslash : '/' ∉ rest) (hne : rest ≠ []) :
    name pointer = String.ofList (unescape rest) := by
  have hcut : Text.cut ['/'] (schemas.toList ++ rest) =
      ['#'] :: ["components".toList, "schemas".toList, rest] := by
    rw [toList_schemas, ← cut_way hslash]
    exact Text.cut_append (show '/' ∉ ['#'] by decide)
  simp only [name, hrest, Text.trimBack_append hslash hne, hcut]
  rfl

/-- The way that a pointer leads to the schema that it names. -/
theorem segments_of_namesSchema {pointer : String} (h : namesSchema pointer = true) :
    segments? pointer = some ["components", "schemas", name pointer] := by
  obtain ⟨rest, hrest, hslash, hne⟩ := exists_rest h
  rw [name_of_rest hrest hslash hne]
  have hcut : Text.cut ['/'] ('/' ::
      ("components".toList ++ '/' :: ("schemas".toList ++ '/' :: rest))) =
      [] :: ["components".toList, "schemas".toList, rest] := by
    rw [← cut_way hslash]
    exact Text.cut_append List.not_mem_nil
  have hconstant : ∀ s ∈ ["components", "schemas"], String.ofList (unescape s.toList) = s := by
    decide
  have hkept : ∀ s ∈ ["components".toList, "schemas".toList, rest], (!s.isEmpty) = true := by
    simp [hne]
  unfold segments?
  rw [hrest, toList_schemas]
  simp only [hcut]
  rw [List.filter_cons_of_neg (by simp), List.filter_eq_self.mpr hkept]
  simp only [List.map_cons, List.map_nil, hconstant "components" (by simp),
    hconstant "schemas" (by simp)]

end Pointer

/-! ## Plain documents -/

namespace Node

variable {n b : Node}

theorem get_of_plain (hplain : n.document.linked = false) {key : String}
    (h : n.get key = .ok b) :
    ∃ fields, n.value = .obj fields ∧ b = n.part (.key key) ((fields.lookup key).getD .null) := by
  obtain ⟨here, hhere, h⟩ := bind_eq_ok.mp h
  obtain rfl : n = here := Except.ok.inj ((settle_of_plain hplain).symm.trans hhere)
  split at h
  · next fields hfields => exact ⟨fields, hfields, (pure_eq_ok.mp h).symm⟩
  · exact absurd h throw_ne_ok

theorem fields_of_plain (hplain : n.document.linked = false) {fields : List (String × Node)}
    (h : n.fields = .ok fields) :
    ∃ found, n.value = .obj found ∧ fields = n.fieldNodes found := by
  obtain ⟨here, hhere, h⟩ := bind_eq_ok.mp h
  obtain rfl : n = here := Except.ok.inj ((settle_of_plain hplain).symm.trans hhere)
  split at h
  · next found hfound => exact ⟨found, hfound, (pure_eq_ok.mp h).symm⟩
  · exact absurd h throw_ne_ok

theorem truthy_of_plain (h : n.document.linked = false) : n.truthy = .ok n.value.truthy := by
  rw [truthy, opened, settle_of_plain h]
  rfl

theorem pointed_eq_some {segment : String} (h : n.pointed segment = .ok (some b)) :
    (∃ items i u, n.value = .arr items ∧ Text.allDigits segment.toList = true ∧
        items[i]? = some u ∧ b = n.part (.index i) u) ∨
      ∃ fields u, n.value = .obj fields ∧ fields.lookup segment = some u ∧
        b = n.part (.key segment) u := by
  unfold pointed at h
  split at h
  · next items hitems =>
      split at h
      · cases h
      · next hdigits =>
          split at h
          · cases h
          · next i hi =>
              obtain ⟨u, hu, rfl⟩ := Option.map_eq_some_iff.mp (Except.ok.inj h)
              exact Or.inl ⟨items, i, u, hitems, by simpa using hdigits, hu, rfl⟩
  · next fields hfields =>
      obtain ⟨u, hu, rfl⟩ := Option.map_eq_some_iff.mp (Except.ok.inj h)
      exact Or.inr ⟨fields, u, hfields, hu, rfl⟩
  · cases h

theorem descend_cons_eq_some {segment : String} {rest : List String}
    (h : n.descend (segment :: rest) = .ok (some b)) :
    ∃ next, n.pointed segment = .ok (some next) ∧ next.descend rest = .ok (some b) := by
  obtain ⟨next?, hnext, h⟩ := bind_eq_ok.mp h
  cases next? with
  | none => cases pure_eq_ok.mp h
  | some next => exact ⟨next, hnext, h⟩

end Node

/-- The named schemas are where they should be, or an empty object stands in for them. -/
theorem Schema.components_eq_ok {n components : Node} (h : Schema.components n = .ok components) :
    ∃ parts schemas, n.get "components" = .ok parts ∧
      (parts.truthy = .ok true ∧ parts.get "schemas" = .ok schemas ∨
        parts.truthy = .ok false ∧ schemas = parts.part (.key "schemas") .null) ∧
      (schemas.truthy = .ok true ∧ components = schemas ∨
        schemas.truthy = .ok false ∧ components = ⟨schemas.document, schemas.trail, .obj []⟩) := by
  obtain ⟨parts, hparts, h⟩ := bind_eq_ok.mp h
  obtain ⟨present, hpresent, h⟩ := bind_eq_ok.mp h
  obtain ⟨schemas, hschemas, h⟩ := ite_bind_eq_ok.mp h
  refine ⟨parts, schemas, hparts, ?_, ?_⟩
  · cases present with
    | true => exact Or.inl ⟨hpresent, hschemas⟩
    | false => exact Or.inr ⟨hpresent, (pure_eq_ok.mp hschemas).symm⟩
  · obtain ⟨listed, hlisted, h⟩ := bind_eq_ok.mp h
    cases listed with
    | true => exact Or.inl ⟨hlisted, (pure_eq_ok.mp h).symm⟩
    | false => exact Or.inr ⟨hlisted, (pure_eq_ok.mp h).symm⟩

/-- Where the named schemas of a plain document are, if there are any. -/
theorem Schema.components_of_plain {n components : Node} (hplain : n.document.linked = false)
    {fields parts : Fields} {schemas : Json} (hfields : n.value = .obj fields)
    (hparts : fields.lookup "components" = some (.obj parts))
    (hschemas : parts.lookup "schemas" = some schemas) (htruthy : schemas.truthy = true)
    (h : Schema.components n = .ok components) :
    components = (n.part (.key "components") (.obj parts)).part (.key "schemas") schemas := by
  obtain ⟨first, second, hfirst, hsecond, hlast⟩ := Schema.components_eq_ok h
  obtain ⟨fields', hfields', hpart⟩ := Node.get_of_plain hplain hfirst
  obtain rfl : fields = fields' := Json.obj.inj (hfields.symm.trans hfields')
  rw [hparts, Option.getD_some] at hpart
  have hfirstPlain : first.document.linked = false := hpart ▸ hplain
  rcases hsecond with ⟨-, hsecond⟩ | ⟨hno, -⟩
  · obtain ⟨parts', hparts', hlisted⟩ := Node.get_of_plain hfirstPlain hsecond
    obtain rfl : parts = parts' := by
      rw [hpart] at hparts'
      exact Json.obj.inj hparts'
    rw [hschemas, Option.getD_some, hpart] at hlisted
    rcases hlast with ⟨-, heq⟩ | ⟨hno, -⟩
    · exact heq.trans hlisted
    · have hsecondPlain : second.document.linked = false := hlisted ▸ hplain
      rw [Node.truthy_of_plain hsecondPlain, hlisted] at hno
      exact absurd (htruthy.symm.trans (Except.ok.inj hno)) (by simp)
  · rw [Node.truthy_of_plain hfirstPlain, hpart] at hno
    have hempty : (Json.obj parts).truthy = false := Except.ok.inj hno
    cases parts with
    | nil => cases hschemas
    | cons f parts => cases hempty

/-- A name that is no numeral leads into an object. -/
theorem Node.pointed_key {here next : Node} {key : String}
    (hkey : Text.allDigits key.toList = false) (h : here.pointed key = .ok (some next)) :
    ∃ fields u, here.value = .obj fields ∧ fields.lookup key = some u ∧
      next = here.part (.key key) u := by
  rcases Node.pointed_eq_some h with ⟨_, _, _, _, hdigits, -⟩ | hfields
  · cases hdigits.symm.trans hkey
  · exact hfields

theorem Mapper.ofDocument_eq_ok {m : Mapper} {document : Document} {spec : Option String}
    (h : Mapper.ofDocument document spec = .ok m) :
    Schema.components document.top = .ok m.components ∧ m.resolver = ⟨document, spec⟩ ∧
      ModelNames.ofSchemas m.components = .ok m.names := by
  obtain ⟨components, hcomponents, h⟩ := bind_eq_ok.mp h
  obtain ⟨names, hnames, h⟩ := bind_eq_ok.mp h
  cases pure_eq_ok.mp h
  exact ⟨hcomponents, rfl, hnames⟩

/-- What a pointer to a named schema leads to is the field of its name. -/
theorem Mapper.mem_fields_of_locate {m : Mapper} {document : Document} {spec : Option String}
    (hm : Mapper.ofDocument document spec = .ok m) (hplain : document.linked = false)
    {pointer : String} (hnames : Pointer.namesSchema pointer = true) {n : Node}
    (hlocate : m.resolver.locate pointer = .ok (some n)) {fields : List (String × Node)}
    (hfields : m.components.fields = .ok fields) : (Pointer.name pointer, n) ∈ fields := by
  obtain ⟨hcomponents, hresolver, -⟩ := Mapper.ofDocument_eq_ok hm
  rw [hresolver, Resolver.locate, Pointer.segments_of_namesSchema hnames] at hlocate
  obtain ⟨first, hfirst, hrest⟩ := Node.descend_cons_eq_some hlocate
  obtain ⟨second, hsecond, hlast⟩ := Node.descend_cons_eq_some hrest
  obtain ⟨third, hthird, hend⟩ := Node.descend_cons_eq_some hlast
  obtain rfl : third = n := Option.some.inj (Except.ok.inj hend)
  obtain ⟨root, parts, hroot, hparts, rfl⟩ := Node.pointed_key (by decide) hfirst
  obtain ⟨listed, schemas, hlisted, hschemas, rfl⟩ := Node.pointed_key (by decide) hsecond
  obtain rfl : parts = .obj listed := hlisted
  have hthere : schemas.truthy = true := by
    rcases Node.pointed_eq_some hthird with
      ⟨items, i, u, hitems, -, hu, -⟩ | ⟨named, u, hnamed, hu, -⟩
    · rw [show schemas = .arr items from hitems]
      cases items with
      | nil => cases hu
      | cons item items => rfl
    · rw [show schemas = .obj named from hnamed]
      cases named with
      | nil => cases hu
      | cons f named => rfl
  rw [Schema.components_of_plain hplain hroot hparts hschemas hthere hcomponents] at hfields
  obtain ⟨found, hfound, rfl⟩ := Node.fields_of_plain hplain hfields
  rcases Node.pointed_eq_some hthird with ⟨items, _, _, hitems, -⟩ | ⟨named, u, hnamed, hu, rfl⟩
  · cases hitems.symm.trans hfound
  · obtain rfl : named = found := Json.obj.inj (hnamed.symm.trans hfound)
    exact List.mem_map.mpr ⟨(Pointer.name pointer, u), Json.mem_of_lookup hu, rfl⟩

end ApiScaffold
