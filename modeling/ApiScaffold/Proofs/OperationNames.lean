import Mathlib.Data.List.Induction
import ApiScaffold.Proofs.Operations
import ApiScaffold.Proofs.Pointers

set_option autoImplicit false

/-! # Names of operations

The name of an endpoint is the identifier that its operation gives. An operation without one is named
for its method and the last segment of its path, and nothing looks at the names that others have: so
names coincide just when the identifier of one operation is the name that another is given, or when
the methods and the last segments of two operations without identifiers are the same. -/

namespace ApiScaffold.EndpointCompiler

variable {c : EndpointCompiler} {s t : EndpointState}

/-! ## What operations are named for -/

/-- What an operation is named for: its method, its path, and the identifier that it may give. -/
structure Label where
  method : Method
  path : String
  id : Option Json
deriving DecidableEq

namespace Label

/-- The last segment of the path, where slashes at the end do not count. -/
def segment (l : Label) : List Char :=
  ((l.path.toList.reverse.dropWhile (· == '/')).takeWhile (· != '/')).reverse

/-- The last segment as it stands in names: without braces, its first letter in upper case. -/
def resource (l : Label) : List Char :=
  Naming.capitalizeChars (l.segment.filter fun c => c != '\x7b' && c != '\x7d')

/-- The name without an identifier. -/
def usual (l : Label) : String :=
  Naming.operationName l.method.name l.path

/-- The name: the identifier, or the usual name. -/
def name (l : Label) : Json :=
  l.id.getD (.str l.usual)

/-- How operations whose identifiers differ come to have one name. -/
inductive Coincides (a b : Label) : Prop where
  | usualGiven (ha : a.id = none) (hb : b.id = some (.str a.usual))
  | givenUsual (ha : a.id = some (.str b.usual)) (hb : b.id = none)
  | alike (ha : a.id = none) (hb : b.id = none) (hmethod : a.method = b.method)
      (hresource : a.resource = b.resource)

end Label

/-- The label of an operation. An identifier that counts as false is none. -/
def labelOf (c : EndpointCompiler) (method : Method) (path : String) (operation : Node) :
    Except Fault Label := do
  let source := (← c.sourceOf method path operation).1
  let id ← source.get "operationId"
  return { method, path, id := if (← id.opened).truthy then some id.value else none }

/-- The labels of all operations in their order. -/
def labels (c : EndpointCompiler) : Except Fault (List Label) :=
  c.readAll c.labelOf

/-- The operations of the document give no identifier twice. -/
def GivesOnce (c : EndpointCompiler) : Prop :=
  ∀ labels, c.labels = .ok labels → (labels.filterMap (·.id)).Nodup

/-- A label tells how an endpoint is called and what it is named. -/
structure Label.Names (l : Label) (e : Endpoint) : Prop where
  listed : l.method ∈ Method.all
  method : e.method = l.method
  path : e.path = if Text.beginsWith "/" l.path then l.path else "/" ++ l.path
  name : .str e.operationName = l.name

/-! ## Segments of paths -/

/-- The pieces between slashes that are not empty. -/
def segments (path : List Char) : List (List Char) :=
  (Text.cut ['/'] path).filter (!·.isEmpty)

theorem segments_append {front back : List Char} :
    segments (front ++ '/' :: back) = segments front ++ segments back := by
  rw [segments, Text.cut_append_cons, List.filter_append]
  rfl

theorem segments_of_notMem {segment : List Char} (h : '/' ∉ segment) (hne : segment ≠ []) :
    segments segment = [segment] := by
  rw [segments, Text.cut_of_notMem h, List.filter_cons_of_pos (by simpa using hne), List.filter_nil]

/-- What stands behind a slash or at the beginning, and holds none, is the last segment. -/
theorem getLast?_segments {before segment : List Char} (hbefore : ∀ c ∈ before.head?, c = '/')
    (h : '/' ∉ segment) (hne : segment ≠ []) :
    (segments (before.reverse ++ segment)).getLast? = some segment := by
  cases before with
  | nil =>
      rw [List.reverse_nil, List.nil_append, segments_of_notMem h hne]
      rfl
  | cons c before =>
      obtain rfl : c = '/' := hbefore c rfl
      rw [List.reverse_cons, List.append_assoc, List.singleton_append, segments_append,
        segments_of_notMem h hne, List.getLast?_concat]

/-- The last segment that is not empty is found from the back. -/
theorem lastSegment_eq (path : List Char) :
    Naming.lastSegment path =
      ((path.reverse.dropWhile (· == '/')).takeWhile (· != '/')).reverse := by
  change (segments path).getLast?.getD [] = _
  induction path using List.reverseRecOn with
  | nil => rfl
  | append_singleton path c ih =>
      by_cases hc : c = '/'
      · -- a slash at the end changes neither side
        subst hc
        rw [segments_append, List.reverse_append]
        simpa [segments, Text.cut, Text.cutFrom] using ih
      · rw [List.reverse_append, List.reverse_singleton, List.singleton_append,
          List.dropWhile_cons_of_neg (by simpa using hc)]
        have hbefore := List.head?_dropWhile_not (· != '/') (c :: path.reverse)
        have hfree : '/' ∉ ((c :: path.reverse).takeWhile (· != '/')).reverse := by
          intro hmem
          simpa using List.all_eq_true.mp List.all_takeWhile '/' (List.mem_reverse.mp hmem)
        have hpath : path ++ [c] = ((c :: path.reverse).dropWhile (· != '/')).reverse ++
            ((c :: path.reverse).takeWhile (· != '/')).reverse := by
          rw [← List.reverse_append, List.takeWhile_append_dropWhile, List.reverse_cons,
            List.reverse_reverse]
        rw [hpath, getLast?_segments ?_ hfree (by simp [hc])]
        · rfl
        · intro d hd
          rw [Option.mem_def.mp hd] at hbefore
          simpa using hbefore

/-! ## Equal names -/

/-- No method begins like another one. -/
theorem method_eq_of_append {m n : Method} (hm : m ∈ Method.all) (hn : n ∈ Method.all)
    {x y : List Char} (h : m.name.toList ++ x = n.name.toList ++ y) : m = n := by
  have hdiffer : ∀ m ∈ Method.all, ∀ n ∈ Method.all,
      m.name.toList.isPrefixOf n.name.toList = true → m = n := by
    decide
  rcases List.append_eq_append_iff.mp h with ⟨z, hz, -⟩ | ⟨z, hz, -⟩
  · exact hdiffer m hm n hn (List.isPrefixOf_iff_prefix.mpr ⟨z, hz.symm⟩)
  · exact (hdiffer n hn m hm (List.isPrefixOf_iff_prefix.mpr ⟨z, hz.symm⟩)).symm

namespace Label

variable {a b : Label}

theorem toList_usual (l : Label) : l.usual.toList = l.method.name.toList ++ l.resource := by
  simp [usual, Naming.operationName, lastSegment_eq, resource, segment]

theorem usual_eq_iff (ha : a.method ∈ Method.all) (hb : b.method ∈ Method.all) :
    a.usual = b.usual ↔ a.method = b.method ∧ a.resource = b.resource := by
  rw [← String.toList_inj, toList_usual, toList_usual]
  constructor
  · -- the methods end at the same place, as none begins like another
    intro h
    have hmethod := method_eq_of_append ha hb h
    rw [hmethod] at h
    exact ⟨hmethod, List.append_cancel_left h⟩
  · rintro ⟨hmethod, hresource⟩
    rw [hmethod, hresource]

theorem name_eq_iff (ha : a.method ∈ Method.all) (hb : b.method ∈ Method.all)
    (hids : ∀ id, a.id = some id → b.id ≠ some id) : a.name = b.name ↔ a.Coincides b := by
  constructor
  · intro h
    unfold name at h
    cases hida : a.id with
    | none =>
        rw [hida, Option.getD_none] at h
        cases hidb : b.id with
        | none =>
            rw [hidb, Option.getD_none, Json.str.injEq, usual_eq_iff ha hb] at h
            exact .alike hida hidb h.1 h.2
        | some id =>
            rw [hidb, Option.getD_some] at h
            exact .usualGiven hida (h ▸ hidb)
    | some id =>
        rw [hida, Option.getD_some] at h
        cases hidb : b.id with
        | none =>
            rw [hidb, Option.getD_none] at h
            exact .givenUsual (h ▸ hida) hidb
        | some id' =>
            rw [hidb, Option.getD_some] at h
            exact absurd (h ▸ hidb) (hids id hida)
  · rintro (⟨hida, hidb⟩ | ⟨hida, hidb⟩ | ⟨hida, hidb, hmethod, hresource⟩)
    · simp [name, hida, hidb]
    · simp [name, hida, hidb]
    · simp [name, hida, hidb, (usual_eq_iff ha hb).mpr ⟨hmethod, hresource⟩]

end Label

/-! ## Names of endpoints -/

/-- A text is read as it is. -/
theorem str_of_text {v : Json} {x : String} (h : Record.text v = .good x) : .str x = v := by
  cases v with
  | str y => exact congrArg Json.str (Record.Reading.good.inj h).symm
  | _ => cases h

theorem relates_names : Relates c c.labelOf fun _ _ => Label.Names where
  mono := fun _ _ _ _ _ _ _ h _ => h
  compile := by
    intro method path operation s e t hlists h
    obtain ⟨source, shared, hsource, hfilled⟩ := yields_compile h
    obtain ⟨id, name, shownName, hid, hname, htext, -⟩ := hfilled.named
    obtain ⟨value, hvalue, hname⟩ := bind_eq_ok.mp hname
    refine ⟨_, bind_eq_ok.mpr ⟨(source, shared), hsource, bind_eq_ok.mpr ⟨id, hid,
      bind_eq_ok.mpr ⟨value, hvalue, rfl⟩⟩⟩, hlists.1, hfilled.method, hfilled.path, ?_⟩
    rw [str_of_text htext]
    have hname := pure_eq_ok.mp hname
    cases htruthy : value.truthy with
    | true =>
        rw [htruthy] at hname
        exact (Prod.mk.inj hname).1.symm
    | false =>
        rw [htruthy] at hname
        exact (Prod.mk.inj hname).1.symm

/-- Every endpoint is named for its operation. When no identifier is given twice, two endpoints have
one name just when what they are named for coincides. -/
theorem compileAll_operationNames {endpoints : List Endpoint} (hids : c.GivesOnce)
    (h : Yields c.compileAll s endpoints t) :
    ∃ labels, c.labels = .ok labels ∧ List.Forall₂ Label.Names labels endpoints ∧
      (labels.zip endpoints).Pairwise fun x y =>
        x.2.operationName = y.2.operationName ↔ x.1.Coincides y.1 := by
  obtain ⟨-, labels, hlabels, hnamed⟩ := yields_compileAll_read relates_names h
  refine ⟨labels, hlabels, hnamed, ?_⟩
  have hdiffer : labels.Pairwise fun a b => ∀ id, a.id = some id → b.id ≠ some id := by
    refine (List.pairwise_filterMap.mp (hids labels hlabels)).imp fun h id ha hb => ?_
    exact h id ha id hb rfl
  have hzip : (labels.zip endpoints).Pairwise fun x y =>
      ∀ id, x.1.id = some id → y.1.id ≠ some id := by
    rw [← List.map_fst_zip (Nat.le_of_eq hnamed.length_eq)] at hdiffer
    exact List.pairwise_map.mp hdiffer
  refine hzip.imp_of_mem fun {x y} hx hy hids => ?_
  have hx := List.forall₂_zip hnamed hx
  have hy := List.forall₂_zip hnamed hy
  rw [← Label.name_eq_iff hx.listed hy.listed hids, ← hx.name, ← hy.name, Json.str.injEq]

/-- Users are listed under two paths, without identifiers; adding one has an identifier. -/
def directory : Json := .obj [
  ("paths", .obj [
    ("/users", .obj [("get", .obj []), ("post", .obj [("operationId", .str "createUser")])]),
    ("/admin/users", .obj [("get", .obj [])])]),
  ("components", .obj [("schemas", .obj [])])]

/-- The compiler for a document that is read as it is written. -/
def ofRoot (root : Json) : Except Fault EndpointCompiler :=
  ofDocuments ⟨1, root, true⟩ ⟨0, root, false⟩ false true none

/-- In `directory` no identifier is given twice; what the endpoints are named. -/
theorem directory_names :
    ∃ c endpoints t, ofRoot directory = .ok c ∧ c.GivesOnce ∧
      Yields c.compileAll {} endpoints t ∧
      endpoints.map Endpoint.operationName = ["getUsers", "createUser", "getUsers"] := by
  have hrun : (do
      let c ← ofRoot directory
      let labels ← c.labels
      let endpoints ← (c.compileAll.run.run {}).1
      pure (labels, endpoints.map Endpoint.operationName)).toOption =
      some ([⟨.get, "/users", none⟩, ⟨.post, "/users", some (.str "createUser")⟩,
        ⟨.get, "/admin/users", none⟩], ["getUsers", "createUser", "getUsers"]) := by
    with_unfolding_all decide
  obtain ⟨c, hc, h⟩ := bind_eq_ok.mp (eq_ok_of_toOption hrun)
  obtain ⟨labels, hlabels, h⟩ := bind_eq_ok.mp h
  obtain ⟨endpoints, hendpoints, h⟩ := bind_eq_ok.mp h
  obtain ⟨rfl, hnames⟩ := Prod.mk.inj (pure_eq_ok.mp h)
  refine ⟨c, endpoints, _, hc, ?_, Prod.ext hendpoints rfl, hnames⟩
  intro labels h
  cases hlabels.symm.trans h
  decide

/-- In `directory` users are listed under one name, though no identifier is given twice. -/
theorem directory_namesake :
    ∃ c endpoints t, ofRoot directory = .ok c ∧ c.GivesOnce ∧
      Yields c.compileAll {} endpoints t ∧ ¬ (endpoints.map Endpoint.operationName).Nodup := by
  obtain ⟨c, endpoints, t, hc, hids, hendpoints, hnames⟩ := directory_names
  refine ⟨c, endpoints, t, hc, hids, hendpoints, ?_⟩
  rw [hnames]
  decide

/-- In `directory` the two lists of users coincide, and nothing else does. -/
theorem directory_operationNames :
    ∃ c endpoints t, ofRoot directory = .ok c ∧ c.GivesOnce ∧
      Yields c.compileAll {} endpoints t ∧
      endpoints.map Endpoint.operationName = ["getUsers", "createUser", "getUsers"] ∧
      ∃ labels, c.labels = .ok labels ∧ List.Forall₂ Label.Names labels endpoints ∧
        (labels.zip endpoints).Pairwise fun x y =>
          x.2.operationName = y.2.operationName ↔ x.1.Coincides y.1 := by
  obtain ⟨c, endpoints, t, hc, hids, hendpoints, hnames⟩ := directory_names
  exact ⟨c, endpoints, t, hc, hids, hendpoints, hnames, compileAll_operationNames hids hendpoints⟩

end ApiScaffold.EndpointCompiler
