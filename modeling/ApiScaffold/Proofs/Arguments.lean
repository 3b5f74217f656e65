import ApiScaffold.Proofs.Identifiers
import ApiScaffold.Proofs.OperationNames

set_option autoImplicit false

/-! # Arguments of operations

The arguments of a method are named for the parameters of its operation, and for the body. Only the
names of headers are changed; names from different places of a request, and the name of the body, are
put side by side as they are. So arguments have identifiers for names just when the hyphens of the
headers stand before letters, and different names just when no two parameters clash
(`compile_arguments`). -/

namespace ApiScaffold

/-- A kind is that of headers just when it is called so. -/
theorem ParameterKind.ofName_eq_header {name : String} :
    ParameterKind.ofName name = .header ↔ name = "header" := by
  constructor
  · intro h
    unfold ParameterKind.ofName at h
    cases hfind : ParameterKind.all.find? (·.name == name) with
    | none =>
        rw [hfind] at h
        cases h
    | some kind =>
        rw [hfind, Option.getD_some] at h
        subst h
        have hname := List.find?_some hfind
        exact (beq_iff_eq.mp hname).symm
  · rintro rfl
    rfl

/-- The names of the arguments of a method, in their order. -/
def Endpoint.argumentNames (e : Endpoint) : List String :=
  e.arguments.map (·.name)

namespace EndpointCompiler

variable {c : EndpointCompiler} {s t : EndpointState} {l : Letters}

/-! ## Parameters in requests -/

/-- What a parameter is called in requests, and the place that it has there. -/
structure Wire where
  name : String
  kind : ParameterKind
deriving DecidableEq

namespace Wire

/-- The argument for a parameter: a header has an identifier made of its name. -/
def argument (w : Wire) : String :=
  if w.kind = .header then Naming.headerIdentifier w.name else w.name

/-- A header is called as headers are, any other parameter by an identifier. -/
def WellNamed (l : Letters) (w : Wire) : Prop :=
  if w.kind = .header then IsHeaderName w.name else IsIdentifier l w.name

/-- How two parameters come to have one argument: the same name in different places, a header whose
identifier is the name of another parameter, or two headers with one identifier. -/
inductive Clash (a b : Wire) : Prop where
  | name (ha : a.kind ≠ .header) (hb : b.kind ≠ .header) (h : a.name = b.name)
  | headerFirst (ha : a.kind = .header) (hb : b.kind ≠ .header)
      (h : Naming.headerIdentifier a.name = b.name)
  | headerSecond (ha : a.kind ≠ .header) (hb : b.kind = .header)
      (h : a.name = Naming.headerIdentifier b.name)
  | headers (ha : a.kind = .header) (hb : b.kind = .header)
      (h : Naming.headerIdentifier a.name = Naming.headerIdentifier b.name)

theorem clash_iff {a b : Wire} : Clash a b ↔ a.argument = b.argument := by
  unfold argument
  by_cases ha : a.kind = .header
  · by_cases hb : b.kind = .header
    · rw [if_pos ha, if_pos hb]
      exact ⟨fun h => by cases h <;> simp_all, .headers ha hb⟩
    · rw [if_pos ha, if_neg hb]
      exact ⟨fun h => by cases h <;> simp_all, .headerFirst ha hb⟩
  · by_cases hb : b.kind = .header
    · rw [if_neg ha, if_pos hb]
      exact ⟨fun h => by cases h <;> simp_all, .headerSecond ha hb⟩
    · rw [if_neg ha, if_neg hb]
      exact ⟨fun h => by cases h <;> simp_all, .name ha hb⟩

end Wire

/-- The place that a parameter has in requests, a query if it says none. -/
def kindOf (parameter : Node) : Except Fault ParameterKind := do
  match (← givenOr (← parameter.get "in") (.str "query")).1 with
  | .str place => return .ofName place
  | _ => throw .unfit

/-- What a parameter is called in requests and where it stands in them. -/
def wireOf (parameter : Node) : Except Fault Wire := do
  match (← parameter.get "name").value with
  | .str name => return { name, kind := ← kindOf parameter }
  | _ => throw .unfit

/-- The parameters of a path and of an operation. -/
def wires (c : EndpointCompiler) (item operation : Node) : Except Fault (List Wire) := do
  let shared ← (← item.get "parameters").entriesIfAny
  let own ← (← operation.get "parameters").entriesIfAny
  (← (shared ++ own).foldlM c.mergeParameter []).mapM fun m => wireOf m.2

/-- A parameter of an endpoint is what the document says. -/
structure Wire.Gives (w : Wire) (p : Parameter) : Prop where
  name : p.name = w.argument
  wireName : p.wireName = w.name
  kind : p.kind = w.kind

theorem parameter_finish_eq_ok {name wireName kind description : Json} {required : Bool}
    {typeExpression : String} {constraintSchema : Fields} {p : Parameter}
    (h : Record.finish .parameter
      ((fun name wireName kind description =>
          ({ name, wireName, kind := .ofName kind, required, typeExpression, constraintSchema,
             description } : Parameter))
        <$> field "name" Record.text name
        <*> field "wire_name" Record.text wireName
        <*> field "kind" Record.text kind
        <*> field "description" (Record.optional Record.text) description) = .ok p) :
    name = .str p.name ∧ wireName = .str p.wireName ∧ p.typeExpression = typeExpression ∧
      ∃ place, kind = .str place ∧ p.kind = .ofName place := by
  -- the outermost reading is that of the last field
  obtain ⟨_, _, hreading, -, hlast⟩ := Record.seq_eq_good (Record.finish_eq_ok h)
  obtain ⟨_, place, hreading, hkind, hthird⟩ := Record.seq_eq_good hreading
  obtain ⟨_, called, hreading, hwire, hsecond⟩ := Record.seq_eq_good hreading
  obtain ⟨argument, hname, hfirst⟩ := Record.map_eq_good hreading
  rw [hfirst] at hsecond
  rw [hsecond] at hthird
  rw [hthird] at hlast
  subst hlast
  exact ⟨(str_of_text (Record.of_within_eq_good hname)).symm,
    (str_of_text (Record.of_within_eq_good hwire)).symm, rfl, place,
    (str_of_text (Record.of_within_eq_good hkind)).symm, rfl⟩

/-- A text that is written for a value is what the value stands for. -/
theorem givenOr_str {n : Node} {usual text : String} {value : Json}
    (h : givenOr n (.str usual) = .ok (.str text, value)) : value = .str text := by
  obtain ⟨opened, hopened, h⟩ := bind_eq_ok.mp h
  have h := pure_eq_ok.mp h
  split at h
  · obtain ⟨hvalue, rfl⟩ := Prod.mk.inj h
    have hself : n.settle = .ok n := Node.settle_of_noLink (by rw [hvalue]; rfl)
    rw [Node.opened, hself] at hopened
    exact (Except.ok.inj hopened).symm.trans hvalue
  · obtain ⟨hfirst, hsecond⟩ := Prod.mk.inj h
    exact hsecond.symm.trans hfirst

/-- What is read for the argument of a parameter, what the argument is called and of which type it
is. -/
theorem compileParameter_reads {parameter : Node} {p : Parameter}
    (h : c.compileParameter parameter = .ok p) :
    ∃ called place text named, parameter.get "name" = .ok called ∧
      parameter.get "in" = .ok place ∧ givenOr place (.str "query") = .ok (.str text, named) ∧
      called.value = .str p.wireName ∧ p.kind = .ofName text ∧
      (p.name = if named = .str "header" then Naming.headerIdentifier p.wireName else p.wireName) ∧
      ∃ schema, parameterType c.mapper.resolver schema = .ok p.typeExpression := by
  obtain ⟨called, hcalled, h⟩ := bind_eq_ok.mp h
  obtain ⟨place, hplace, h⟩ := bind_eq_ok.mp h
  obtain ⟨⟨kind, named⟩, hkind, h⟩ := bind_eq_ok.mp h
  obtain ⟨_, -, h⟩ := bind_eq_ok.mp h
  obtain ⟨schema, -, h⟩ := bind_eq_ok.mp h
  -- whatever the argument is called, the record is filled in the same way
  have hlast : ∀ {name : Json}, (do
      let node ← parameter.get "required"
      let typeExpression ← parameterType c.mapper.resolver schema
      let constraintSchema ← shallowFields schema
      let description ← parameter.get "description"
      Record.finish .parameter
        ((fun name wireName kind description =>
            ({ name, wireName, kind := .ofName kind,
               required := named = Json.str "path" || node.value = Json.bool true,
               typeExpression, constraintSchema, description } : Parameter))
          <$> field "name" Record.text name
          <*> field "wire_name" Record.text called.value
          <*> field "kind" Record.text kind
          <*> field "description" (Record.optional Record.text) description.value)) =
        Except.ok p →
      name = .str p.name ∧ called.value = .str p.wireName ∧
        (∃ place, kind = .str place ∧ p.kind = .ofName place) ∧
        parameterType c.mapper.resolver schema = .ok p.typeExpression := by
    intro name h
    obtain ⟨_, -, h⟩ := bind_eq_ok.mp h
    obtain ⟨type, htype, h⟩ := bind_eq_ok.mp h
    obtain ⟨_, -, h⟩ := bind_eq_ok.mp h
    obtain ⟨_, -, h⟩ := bind_eq_ok.mp h
    obtain ⟨hname, hwireName, rfl, hplace⟩ := parameter_finish_eq_ok h
    exact ⟨hname, hwireName, hplace, htype⟩
  dsimp only at h
  split at h
  · next hheader =>
      split at h
      · next header htext =>
          obtain ⟨hname, hwireName, ⟨text, rfl, hp⟩, htype⟩ := hlast h
          refine ⟨called, place, text, named, hcalled, hplace, hkind, hwireName, hp, ?_, schema,
            htype⟩
          obtain rfl := Json.str.inj (htext.symm.trans hwireName)
          rw [if_pos hheader]
          exact (Json.str.inj hname).symm
      · exact absurd h throw_ne_ok
  · next hother =>
      obtain ⟨hname, hwireName, ⟨text, rfl, hp⟩, htype⟩ := hlast h
      refine ⟨called, place, text, named, hcalled, hplace, hkind, hwireName, hp, ?_, schema, htype⟩
      rw [if_neg hother]
      exact Json.str.inj (hname.symm.trans hwireName)

theorem compileParameter_eq_ok {parameter : Node} {p : Parameter}
    (h : c.compileParameter parameter = .ok p) : ∃ w, wireOf parameter = .ok w ∧ w.Gives p := by
  obtain ⟨called, place, text, named, hcalled, hplace, hkind, hwireName, hp, hname, -⟩ :=
    compileParameter_reads h
  have hkindOf : kindOf parameter = .ok p.kind := by
    refine bind_eq_ok.mpr ⟨place, hplace, bind_eq_ok.mpr ⟨_, hkind, ?_⟩⟩
    rw [hp]
    rfl
  have hwire : wireOf parameter = .ok ⟨p.wireName, p.kind⟩ := by
    refine bind_eq_ok.mpr ⟨called, hcalled, ?_⟩
    rw [hwireName]
    exact bind_eq_ok.mpr ⟨p.kind, hkindOf, rfl⟩
  refine ⟨_, hwire, ?_, rfl, rfl⟩
  rw [hname, givenOr_str hkind, Wire.argument, hp]
  simp only [ParameterKind.ofName_eq_header, Json.str.injEq]

/-- Each parameter of an endpoint is compiled from a node. -/
theorem mem_compileParameters {item operation : Node} {parameters : List Parameter}
    (h : c.compileParameters item operation = .ok parameters) :
    ∀ p ∈ parameters, ∃ parameter, c.compileParameter parameter = .ok p := by
  obtain ⟨_, -, h⟩ := bind_eq_ok.mp h
  obtain ⟨_, -, h⟩ := bind_eq_ok.mp h
  obtain ⟨_, -, h⟩ := bind_eq_ok.mp h
  obtain ⟨_, -, h⟩ := bind_eq_ok.mp h
  obtain ⟨merged, -, h⟩ := bind_eq_ok.mp h
  intro p hp
  obtain ⟨m, -, hp⟩ := mem_of_mapM h p hp
  exact ⟨m.2, hp⟩

/-- The parameters of an endpoint are what the document says, in its order. -/
theorem compileParameters_eq_ok {item operation : Node} {parameters : List Parameter}
    (h : c.compileParameters item operation = .ok parameters) :
    ∃ all, c.wires item operation = .ok all ∧ List.Forall₂ Wire.Gives all parameters := by
  obtain ⟨sharedNode, hsharedNode, h⟩ := bind_eq_ok.mp h
  obtain ⟨shared, hshared, h⟩ := bind_eq_ok.mp h
  obtain ⟨ownNode, hownNode, h⟩ := bind_eq_ok.mp h
  obtain ⟨own, hown, h⟩ := bind_eq_ok.mp h
  obtain ⟨merged, hmerged, h⟩ := bind_eq_ok.mp h
  have hall : ∃ all, merged.mapM (fun m => wireOf m.2) = .ok all ∧
      List.Forall₂ Wire.Gives all parameters := by
    refine mapM_of_forall₂ ((forall₂_of_mapM h).imp fun m p hp => ?_)
    exact compileParameter_eq_ok hp
  obtain ⟨all, hwires, hgives⟩ := hall
  refine ⟨all, ?_, hgives⟩
  exact bind_eq_ok.mpr ⟨sharedNode, hsharedNode, bind_eq_ok.mpr ⟨shared, hshared,
    bind_eq_ok.mpr ⟨ownNode, hownNode, bind_eq_ok.mpr ⟨own, hown,
      bind_eq_ok.mpr ⟨merged, hmerged, hwires⟩⟩⟩⟩⟩

/-! ## Arguments -/

/-- The body as a parameter, if there is one. -/
def bodyWire (body : Option Body) : List Wire :=
  body.toList.map fun _ => ⟨"body", .body⟩

theorem isIdentifier_body : IsIdentifier l "body" where
  begins := ⟨'b', ['o', 'd', 'y'], rfl, rfl⟩
  holds := by
    intro c hc
    have hall : "body".toList.all Char.isAlphanum = true := by decide
    exact Letters.holds_of_isAlphanum (List.all_eq_true.mp hall c hc)
  free := by decide

/-- The argument for a parameter is an identifier, unless a header has a hyphen before anything but a
letter or makes a word of the language. -/
theorem Wire.isIdentifier_argument {w : Wire} (h : w.WellNamed l) :
    IsIdentifier l w.argument ↔ (w.kind = .header →
      HyphensJoin w.name.toList ∧ Naming.headerIdentifier w.name ∉ reservedWords) := by
  unfold WellNamed at h
  unfold argument
  by_cases hkind : w.kind = .header
  · rw [if_pos hkind] at h ⊢
    rw [isIdentifier_headerIdentifier h]
    exact ⟨fun h _ => h, fun h => h hkind⟩
  · rw [if_neg hkind] at h ⊢
    exact ⟨fun _ hkind' => absurd hkind' hkind, fun _ => h⟩

theorem map_name_of_gives {all : List Wire} {parameters : List Parameter}
    (h : List.Forall₂ Wire.Gives all parameters) :
    parameters.map (·.name) = all.map Wire.argument := by
  induction h with
  | nil => rfl
  | cons hfirst _ ih => rw [List.map_cons, List.map_cons, hfirst.name, ih]

/-- The arguments of a method are those for its parameters and for the body. -/
theorem FilledIn.argumentNames_perm {method : Method} {path : String} {source item : Node}
    {e : Endpoint} (h : FilledIn c s t method path source item e) :
    e.argumentNames.Perm
      (e.parameters.map (·.name) ++ (e.body.toList.map bodyArgument).map (·.name)) := by
  rw [Endpoint.argumentNames, h.arguments, ← List.map_append]
  exact (List.mergeSort_perm _ _).map _

theorem FilledIn.argumentNames_wires {method : Method} {path : String} {source item : Node}
    {e : Endpoint} (h : FilledIn c s t method path source item e) :
    ∃ all, c.wires item source = .ok all ∧
      e.argumentNames.Perm ((all ++ bodyWire e.body).map Wire.argument) := by
  obtain ⟨all, hall, hgives⟩ := compileParameters_eq_ok h.parameters
  have hbody : (e.body.toList.map bodyArgument).map (·.name) =
      (bodyWire e.body).map Wire.argument := by
    rw [bodyWire, List.map_map, List.map_map]
    rfl
  have hperm := h.argumentNames_perm
  rw [map_name_of_gives hgives, hbody, ← List.map_append] at hperm
  exact ⟨all, hall, hperm⟩

/-- The arguments of a method are called as their parameters. When the parameters of the document are
well named, the arguments have identifiers for names just when the headers among them make some, and
different names just when no two parameters, the body counted in, clash. -/
theorem compile_arguments {method : Method} {path : String} {operation : Node} {e : Endpoint}
    (h : Yields (c.compile method path operation) s e t) :
    ∃ source item all, c.sourceOf method path operation = .ok (source, item) ∧
      c.wires item source = .ok all ∧
      e.argumentNames.Perm ((all ++ bodyWire e.body).map Wire.argument) ∧
      (∀ l, (∀ w ∈ all, w.WellNamed l) →
        ((∀ name ∈ e.argumentNames, IsIdentifier l name) ↔
          ∀ w ∈ all, w.kind = .header →
            HyphensJoin w.name.toList ∧ Naming.headerIdentifier w.name ∉ reservedWords)) ∧
      (e.argumentNames.Nodup ↔
        (all ++ bodyWire e.body).Pairwise fun a b => ¬ Wire.Clash a b) := by
  obtain ⟨source, item, hsource, hfilled⟩ := yields_compile h
  obtain ⟨all, hall, hperm⟩ := hfilled.argumentNames_wires
  refine ⟨source, item, all, hsource, hall, hperm, ?_, ?_⟩
  · intro l hnamed
    have hbody : ∀ w ∈ bodyWire e.body, IsIdentifier l w.argument := by
      intro w hw
      obtain ⟨_, -, rfl⟩ := List.mem_map.mp hw
      exact isIdentifier_body
    simp only [hperm.mem_iff, List.map_append, List.mem_append, List.mem_map]
    constructor
    · intro hid w hw
      exact (Wire.isIdentifier_argument (hnamed w hw)).mp (hid _ (Or.inl ⟨w, hw, rfl⟩))
    · rintro hheaders name (⟨w, hw, rfl⟩ | ⟨w, hw, rfl⟩)
      · exact (Wire.isIdentifier_argument (hnamed w hw)).mpr (hheaders w hw)
      · exact hbody w hw
  · rw [hperm.nodup_iff, List.Nodup, List.pairwise_map]
    simp only [Wire.clash_iff, ne_eq]

/-- A parameter of an operation. -/
def parameterNamed (name place : String) : Json := .obj [("name", .str name), ("in", .str place)]

/-- Lamps are set with a body and a header, listed with a header whose last word is a number, and
lit with two parameters of one name. -/
def lamps : Json := .obj [
  ("paths", .obj [
    ("/lamps", .obj [
      ("put", .obj [
        ("parameters", .arr [parameterNamed "X-Request-ID" "header", parameterNamed "room" "query"]),
        ("requestBody", .obj [("content", .obj [("application/json", .obj [
          ("schema", .obj [("type", .str "string")])])])])]),
      ("get", .obj [("parameters", .arr [parameterNamed "X-1" "header"])]),
      ("post", .obj [("parameters", .arr [parameterNamed "id" "query",
        parameterNamed "id" "cookie"])])])]),
  ("components", .obj [("schemas", .obj [])])]

/-- The parameters that a method of `lamps` takes, and the body. -/
def lampsArguments (method : Method) : Except Fault (List String) := do
  let c ← ofRoot lamps
  let e ← ((c.compile method "/lamps" c.resolved.top).run.run {}).1
  return e.parameters.map (·.name) ++ (e.body.toList.map bodyArgument).map (·.name)

theorem lamps_compiled {method : Method} {names : List String}
    (h : (lampsArguments method).toOption = some names) :
    ∃ c e t, ofRoot lamps = .ok c ∧ Yields (c.compile method "/lamps" c.resolved.top) {} e t ∧
      e.argumentNames.Perm names := by
  obtain ⟨c, hc, h⟩ := bind_eq_ok.mp (eq_ok_of_toOption h)
  obtain ⟨e, he, h⟩ := bind_eq_ok.mp h
  have hyields : Yields (c.compile method "/lamps" c.resolved.top) {} e _ := Prod.ext he rfl
  obtain ⟨source, item, -, hfilled⟩ := yields_compile hyields
  exact ⟨c, e, _, hc, hyields, pure_eq_ok.mp h ▸ hfilled.argumentNames_perm⟩

/-- In `lamps` the arguments for setting are called as the parameters and the body. -/
theorem lamps_arguments :
    ∃ c e t, ofRoot lamps = .ok c ∧ Yields (c.compile .put "/lamps" c.resolved.top) {} e t ∧
      e.argumentNames.Perm ["xRequestID", "room", "body"] ∧
      ∃ source item all, c.sourceOf .put "/lamps" c.resolved.top = .ok (source, item) ∧
        c.wires item source = .ok all ∧
        e.argumentNames.Perm ((all ++ bodyWire e.body).map Wire.argument) ∧
        (∀ l, (∀ w ∈ all, w.WellNamed l) →
          ((∀ name ∈ e.argumentNames, IsIdentifier l name) ↔
            ∀ w ∈ all, w.kind = .header →
              HyphensJoin w.name.toList ∧ Naming.headerIdentifier w.name ∉ reservedWords)) ∧
        (e.argumentNames.Nodup ↔
          (all ++ bodyWire e.body).Pairwise fun a b => ¬ Wire.Clash a b) := by
  obtain ⟨c, e, t, hc, he, hnames⟩ := lamps_compiled (by with_unfolding_all decide :
    (lampsArguments .put).toOption = some ["xRequestID", "room", "body"])
  exact ⟨c, e, t, hc, he, hnames, compile_arguments he⟩

/-- In `lamps` the header `X-1` makes no identifier, and two parameters of one name make one argument
twice. -/
theorem lamps_misnamed :
    IsHeaderName "X-1" ∧
      (∃ c e t, ofRoot lamps = .ok c ∧ Yields (c.compile .get "/lamps" c.resolved.top) {} e t ∧
        e.argumentNames = ["x-1"] ∧ ∀ l, ¬ IsIdentifier l "x-1") ∧
      ∃ c e t, ofRoot lamps = .ok c ∧ Yields (c.compile .post "/lamps" c.resolved.top) {} e t ∧
        e.argumentNames.Perm ["id", "id"] ∧ ¬ e.argumentNames.Nodup := by
  refine ⟨⟨'X', ['-', '1'], rfl, rfl, by simp⟩, ?_, ?_⟩
  · obtain ⟨c, e, t, hc, he, hnames⟩ := lamps_compiled (by with_unfolding_all decide :
      (lampsArguments .get).toOption = some ["x-1"])
    refine ⟨c, e, t, hc, he, List.perm_singleton.mp hnames, ?_⟩
    intro l hid
    cases (Letters.holds_hyphen (l := l)).symm.trans (hid.holds '-' (by decide))
  · obtain ⟨c, e, t, hc, he, hnames⟩ := lamps_compiled (by with_unfolding_all decide :
      (lampsArguments .post).toOption = some ["id", "id"])
    refine ⟨c, e, t, hc, he, hnames, ?_⟩
    rw [hnames.nodup_iff]
    decide

end EndpointCompiler

end ApiScaffold
