import ApiScaffold.Proofs.Claims

set_option autoImplicit false

/-! # Which operations there are

The document whose references stand for their targets only lists the operations: paths, and for each
method whether there is an operation (`listing`). What the operations are is read from the document
as it was written, wherever it describes them (`described`). So two documents that list the same
operations are compiled to the same endpoints, however they describe them
(`compileAll_listing`). -/

namespace ApiScaffold.EndpointCompiler

/-! ## Listing a document -/

/-- The operation of a method in the item of a path. -/
def held (item : Node) (method : Method) : Except Fault (Option Node) := do
  if !(← item.isObject) then return none
  let operation ← item.get method.name
  if ← operation.isObject then return some operation else return none

/-- The operation of a method that a document describes under a path. The item of the path may be
somewhere else, where references lead. -/
def described (r : Resolver) (path : String) (method : Method) : Except Fault (Option Node) := do
  match ← pathItem r.document path with
  | none => return none
  | some node =>
    match ← r.objectAt node with
    | none => return none
    | some item => held item method

/-- A path, and whether there is an operation of each method. Looking for one can fail. -/
abbrev Row := String × List (Method × Except Fault Bool)

/-- What is listed under a path. -/
def row (p : String × Node) : Row :=
  (p.1, Method.all.map fun method => (method, (held p.2 method).map (·.isSome)))

/-- The paths of a document with their items. -/
def pathsOf (document : Document) : Except Fault (List (String × Node)) := do
  (← document.top.get "paths").fieldsIfAny

/-- The operations that a document lists. -/
def listing (document : Document) : Except Fault (List Row) :=
  (pathsOf document).map (List.map row)

/-- The compiler with another document that lists the operations. -/
def relisted (c : EndpointCompiler) (document : Document) : EndpointCompiler :=
  { c with resolved := document }

variable {c : EndpointCompiler} {document written : Document} {path : String}
  {method : Method} {item item' operation : Node} {p q : String × Node}
  {includeErrors synthesize : Bool} {spec : Option String}

theorem ofDocuments_relisted (first second : Document) :
    ofDocuments second written includeErrors synthesize spec =
      (ofDocuments first written includeErrors synthesize spec).map (·.relisted second) := by
  unfold ofDocuments
  cases Mapper.ofDocument written spec with
  | error fault => rfl
  | ok mapper =>
      change (mapper.components.fields >>= _) = (mapper.components.fields >>= _).map _
      cases mapper.components.fields <;> rfl

/-! ## Compiling an operation that is described -/

/-- A compiler reads an operation from the document as it was written when it is described there,
whatever it is given. -/
theorem sourceOf_described (hwritten : c.written = c.mapper.resolver.document)
    (h : described c.mapper.resolver path method = .ok (some operation)) :
    ∃ item, ∀ document given,
      (c.relisted document).sourceOf method path given = .ok (operation, item) := by
  obtain ⟨node?, hnode, h⟩ := bind_eq_ok.mp h
  cases node? with
  | none => cases pure_eq_ok.mp h
  | some node =>
      obtain ⟨item?, hitem, h⟩ := bind_eq_ok.mp h
      cases item? with
      | none => cases pure_eq_ok.mp h
      | some item =>
          obtain ⟨isObject, -, h⟩ := bind_eq_ok.mp h
          cases isObject with
          | false => cases pure_eq_ok.mp h
          | true =>
              obtain ⟨own, hown, h⟩ := bind_eq_ok.mp h
              obtain ⟨isObject, hobject, h⟩ := bind_eq_ok.mp h
              cases isObject with
              | false => cases pure_eq_ok.mp h
              | true =>
                  obtain rfl := Option.some.inj (pure_eq_ok.mp h)
                  refine ⟨item, fun document given => ?_⟩
                  rw [← hwritten] at hnode
                  refine bind_eq_ok.mpr ⟨some node, hnode, bind_eq_ok.mpr ⟨some item, hitem, ?_⟩⟩
                  exact bind_eq_ok.mpr ⟨own, hown, bind_eq_ok.mpr ⟨true, hobject, rfl⟩⟩

theorem compile_described (hwritten : c.written = c.mapper.resolver.document)
    (h : described c.mapper.resolver path method = .ok (some operation)) (given given' : Node) :
    c.compile method path given = (c.relisted document).compile method path given' := by
  obtain ⟨item, hsource⟩ := sourceOf_described hwritten h
  have hsame : c.sourceOf method path given = .ok (operation, item) := hsource c.resolved given
  unfold compile
  rw [hsame, hsource document given']
  rfl

/-! ## Compiling what is listed -/

/-- Compile an operation if there is one. -/
def compileHeld (c : EndpointCompiler) (path : String) (item : Node) (method : Method) :
    Compiling (Option Endpoint) := do
  match ← liftM (held item method) with
  | none => return none
  | some operation => return some (← c.compile method path operation)

/-- Whether there is an operation can be seen first, or on the way. -/
theorem compileHeld_eq : c.compileHeld path item method = (do
    if !(← liftM item.isObject) then return none
    let operation ← liftM (item.get method.name)
    if ← liftM operation.isObject then return some (← c.compile method path operation)
    else return none) := by
  unfold compileHeld held
  cases item.isObject with
  | error fault => rfl
  | ok isObject =>
      cases isObject with
      | false => rfl
      | true =>
          cases item.get method.name with
          | error fault => rfl
          | ok operation =>
              change (liftM (operation.isObject >>= _) >>= _) = liftM operation.isObject >>= _
              cases operation.isObject with
              | error fault => rfl
              | ok isObject => cases isObject <;> rfl

theorem compileItem_eq :
    c.compileItem path item = Method.all.filterMapM (c.compileHeld path item) := by
  have hheld : c.compileHeld path item = _ := funext fun method => compileHeld_eq
  rw [hheld]
  unfold compileItem
  cases item.isObject with
  | error fault => rfl
  | ok isObject => cases isObject <;> rfl

/-- Two ways of looking for something that fail alike and find something alike. -/
theorem map_isSome_cases {x y : Except Fault (Option Node)}
    (h : x.map Option.isSome = y.map Option.isSome) :
    (∃ fault, x = .error fault ∧ y = .error fault) ∨ (x = .ok none ∧ y = .ok none) ∨
      ∃ a b, x = .ok (some a) ∧ y = .ok (some b) := by
  rcases x with fault | _ | a <;> rcases y with fault' | _ | b <;>
    simp_all [Except.map]

/-- Items in which there is the same to compile are compiled alike, whoever lists them, as far as
the operations are described. -/
theorem compileHeld_congr (hwritten : c.written = c.mapper.resolver.document)
    (hsame : (held item method).map Option.isSome = (held item' method).map Option.isSome)
    (hsaid : (held item method).map Option.isSome = .ok true →
      ∃ operation, described c.mapper.resolver path method = .ok (some operation)) :
    c.compileHeld path item method = (c.relisted document).compileHeld path item' method := by
  unfold compileHeld
  rcases map_isSome_cases hsame with ⟨fault, h, h'⟩ | ⟨h, h'⟩ | ⟨given, given', h, h'⟩
  · rw [h, h', liftM_error_bind, liftM_error_bind]
  · rw [h, h', liftM_ok, pure_bind, pure_bind]
  · obtain ⟨operation, hdescribed⟩ := hsaid (by rw [h]; rfl)
    rw [h, h', liftM_ok, liftM_ok, pure_bind, pure_bind]
    dsimp only
    rw [compile_described hwritten hdescribed given given']

/-- What a document describes of the operations that are listed. -/
def Covers (r : Resolver) (rows : List Row) : Prop :=
  ∀ row ∈ rows, ∀ method, (method, .ok true) ∈ row.2 →
    ∃ operation, described r row.1 method = .ok (some operation)

theorem filterMapM_congr {α β : Type} {f g : α → Compiling (Option β)} {xs : List α}
    (h : ∀ x ∈ xs, f x = g x) : xs.filterMapM f = xs.filterMapM g := by
  induction xs with
  | nil => rfl
  | cons x xs ih =>
      rw [List.filterMapM_cons, List.filterMapM_cons, h x List.mem_cons_self,
        ih fun y hy => h y (List.mem_cons_of_mem _ hy)]

theorem compileItem_congr (hwritten : c.written = c.mapper.resolver.document) (hrow : row p = row q)
    (hsaid : ∀ method, (method, .ok true) ∈ (row p).2 →
      ∃ operation, described c.mapper.resolver p.1 method = .ok (some operation)) :
    c.compileItem p.1 p.2 = (c.relisted document).compileItem q.1 q.2 := by
  obtain ⟨hpath, hmethods⟩ := Prod.mk.inj hrow
  rw [compileItem_eq, compileItem_eq, ← hpath]
  refine filterMapM_congr fun method hmethod => compileHeld_congr hwritten ?_ fun h => ?_
  · exact (Prod.mk.inj (List.map_inj_left.mp hmethods method hmethod)).2
  · exact hsaid method (List.mem_map.mpr ⟨method, hmethod, by rw [h]⟩)

theorem mapM_compileItem_congr (hwritten : c.written = c.mapper.resolver.document)
    {ps qs : List (String × Node)} (hrows : ps.map row = qs.map row)
    (hsaid : Covers c.mapper.resolver (ps.map row)) :
    (ps.mapM fun p => c.compileItem p.1 p.2) =
      qs.mapM fun q => (c.relisted document).compileItem q.1 q.2 := by
  induction ps generalizing qs with
  | nil =>
      obtain rfl : qs = [] := List.map_eq_nil_iff.mp hrows.symm
      rw [List.mapM_nil, List.mapM_nil]
  | cons p ps ih =>
      cases qs with
      | nil => cases hrows
      | cons q qs =>
          obtain ⟨hrow, hrows⟩ := List.cons.inj hrows
          have hfirst := hsaid (row p) List.mem_cons_self
          rw [List.mapM_cons, List.mapM_cons, compileItem_congr hwritten hrow hfirst,
            ih hrows fun r hr => hsaid r (List.mem_cons_of_mem _ hr)]

theorem compileAll_eq : c.compileAll = (do
    set c.start
    let ps ← liftM (pathsOf c.resolved)
    return (← ps.mapM fun p => c.compileItem p.1 p.2).flatten) := by
  unfold compileAll pathsOf
  rfl

/-- What is compiled hangs on the document that lists the operations only as far as the listing
goes, where the operations are described by the document as it was written. -/
theorem compileAll_relisted (hwritten : c.written = c.mapper.resolver.document)
    (hlisting : listing c.resolved = listing document)
    (hsaid : ∀ rows, listing c.resolved = .ok rows → Covers c.mapper.resolver rows) :
    c.compileAll = (c.relisted document).compileAll := by
  have hstart : (c.relisted document).start = c.start := rfl
  have hresolved : (c.relisted document).resolved = document := rfl
  rw [compileAll_eq, compileAll_eq, hstart, hresolved]
  unfold listing at hlisting hsaid
  cases hps : pathsOf c.resolved with
  | error fault =>
      rw [hps] at hlisting
      cases hqs : pathsOf document with
      | error fault' =>
          rw [hqs] at hlisting
          cases hlisting
          rw [liftM_error_bind, liftM_error_bind]
      | ok qs =>
          rw [hqs] at hlisting
          cases hlisting
  | ok ps =>
      rw [hps] at hlisting hsaid
      obtain ⟨qs, hqs, hrows⟩ := map_eq_ok hlisting.symm
      rw [hqs, liftM_ok, liftM_ok, pure_bind, pure_bind,
        mapM_compileItem_congr hwritten hrows.symm (hsaid _ rfl)]

/-- Two documents that list the same operations are compiled to the same endpoints, with the same
classes made up, if the document as it was written describes these operations. -/
theorem compileAll_listing {first second : Document}
    (hlisting : listing first = listing second)
    (hsaid : ∀ rows, listing first = .ok rows → Covers ⟨written, spec⟩ rows)
    (includeErrors synthesize : Bool) :
    (ofDocuments first written includeErrors synthesize spec).map
        (fun c => c.compileAll.run.run c.start) =
      (ofDocuments second written includeErrors synthesize spec).map
        fun c => c.compileAll.run.run c.start := by
  rw [ofDocuments_relisted first second]
  cases hc : ofDocuments first written includeErrors synthesize spec with
  | error fault => rfl
  | ok c =>
      obtain ⟨named, hmade⟩ := ofDocuments_eq_ok hc
      have hresolver : c.mapper.resolver = ⟨written, spec⟩ :=
        (Mapper.ofDocument_eq_ok hmade.mapper).2.1
      have hwritten : c.written = c.mapper.resolver.document := by rw [hresolver, hmade.written]
      rw [← hmade.resolved] at hlisting hsaid
      rw [← hresolver] at hsaid
      refine congrArg Except.ok ?_
      dsimp only
      rw [compileAll_relisted hwritten hlisting hsaid]
      rfl

/-- The item of a path is a reference; where it leads, an operation is described. -/
def routes : Json := .obj [
  ("paths", .obj [("/routes", .obj [("$ref", .str "#/components/pathItems/Routes")])]),
  ("components", .obj [
    ("pathItems", .obj [("Routes", .obj [("get", .obj [("operationId", .str "listRoutes")])])]),
    ("schemas", .obj [])])]

/-- A document that lists an operation and says another thing about it. -/
def timetable : Document where
  tag := 1
  root := .obj [("paths", .obj [("/routes", .obj [("get", .obj [
    ("operationId", .str "listTrains"), ("deprecated", .bool true)])])])]
  linked := false

theorem routes_covers : Covers ⟨⟨0, routes, false⟩, none⟩
    [("/routes", [(.get, .ok true), (.post, .ok false), (.put, .ok false), (.patch, .ok false),
      (.delete, .ok false)])] := by
  intro row hrow method hmethod
  obtain rfl := List.mem_singleton.mp hrow
  obtain rfl : method = .get := by simpa using hmethod
  exact ⟨_, rfl⟩

/-- With references that stand for their targets, `routes` is compiled to the same endpoint as
`timetable` is, with what `routes` says about it. -/
theorem routes_listing :
    listing ⟨1, routes, true⟩ = listing timetable ∧
      (ofDocuments ⟨1, routes, true⟩ ⟨0, routes, false⟩ false true none).map
          (fun c => c.compileAll.run.run c.start) =
        (ofDocuments timetable ⟨0, routes, false⟩ false true none).map
          (fun c => c.compileAll.run.run c.start) ∧
      (ofDocuments timetable ⟨0, routes, false⟩ false true none).map (fun c =>
        (c.compileAll.run.run c.start).1.map (·.map Endpoint.operationName)) =
        .ok (.ok ["listRoutes"]) := by
  have hlisting : listing ⟨1, routes, true⟩ = listing timetable := by decide +kernel
  have hrows : listing ⟨1, routes, true⟩ = .ok [("/routes", [(.get, .ok true), (.post, .ok false),
    (.put, .ok false), (.patch, .ok false), (.delete, .ok false)])] := by decide +kernel
  refine ⟨hlisting, compileAll_listing hlisting (fun rows h => ?_) false true,
    by with_unfolding_all decide⟩
  cases hrows.symm.trans h
  exact routes_covers

end ApiScaffold.EndpointCompiler
