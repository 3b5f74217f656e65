import ApiScaffold.Code.Decorator
import ApiScaffold.Proofs.Outcome
import ApiScaffold.Proofs.Quoting
import ApiScaffold.Proofs.WrittenPointers

set_option autoImplicit false

/-! # Decorators that code names

What a controller imports is looked up in the code of its methods: a word between `@` and an
opening round bracket is the name of a decorator (`namesIn`). No name is cut or made where two
pieces of code meet, and quoting a text neither hides a name in it nor makes one. So the names in
the code are those of the decorators and those in the texts that the code repeats from the
description of the API (`Shows`): a controller imports all decorators that are applied, and besides
them whatever the texts name (`controllerImports_outcome`). -/

namespace ApiScaffold

namespace Code

/-- The names of decorators in a text. -/
def namesIn (text : String) : List String := decoratorNames text.toList

/-! ## Looking for names -/

variable {front rest word : List Char} {c : Char} {a b name : String}

theorem decoratorNames_cons_of_ne (h : c ≠ '@') :
    decoratorNames (c :: rest) = decoratorNames rest := by
  simp [decoratorNames, h]

theorem decoratorNames_append_of_notMem (h : '@' ∉ front) :
    decoratorNames (front ++ rest) = decoratorNames rest := by
  induction front with
  | nil => rfl
  | cons c front ih =>
      rw [List.mem_cons, not_or] at h
      rw [List.cons_append, decoratorNames_cons_of_ne (Ne.symm h.1), ih h.2]

/-- Every text begins with a word, perhaps an empty one, and goes on with something else. -/
theorem exists_word (text : List Char) :
    ∃ word rest, text = word ++ rest ∧ (∀ c ∈ word, Text.isWord c = true) ∧
      ∀ c ∈ rest.head?, Text.isWord c = false := by
  induction text with
  | nil => exact ⟨[], [], rfl, nofun, nofun⟩
  | cons c text ih =>
      cases hc : Text.isWord c with
      | false => exact ⟨[], c :: text, rfl, nofun, by simpa using hc⟩
      | true =>
          obtain ⟨word, rest, rfl, hword, hrest⟩ := ih
          exact ⟨c :: word, rest, rfl, List.forall_mem_cons.mpr ⟨hc, hword⟩, hrest⟩

/-- A word behind `@` is a name if a round bracket opens behind it. -/
theorem decoratorNames_at (hword : ∀ c ∈ word, Text.isWord c = true)
    (hrest : ∀ c ∈ rest.head?, Text.isWord c = false) :
    decoratorNames ('@' :: (word ++ rest)) =
      (if word ≠ [] ∧ rest.head? = some '(' then [String.ofList word] else []) ++
        decoratorNames (word ++ rest) := by
  have htake : (word ++ rest).takeWhile Text.isWord = word := by
    rw [List.takeWhile_append_of_pos hword]
    cases rest with
    | nil => simp
    | cons c rest => rw [List.takeWhile_cons_of_neg (by simpa using hrest), List.append_nil]
  rw [decoratorNames, htake, List.drop_left]
  split
  · next h => rw [if_pos (by simpa using h)]; rfl
  · next h => rw [if_neg (by simpa using h)]; rfl

/-- A character that ends a word and opens no bracket. -/
def isGap (c : Char) : Bool := !Text.isWord c && c != '('

/-- No name goes on over a gap. -/
theorem decoratorNames_append_cons (h : isGap c = true) :
    decoratorNames (front ++ c :: rest) = decoratorNames front ++ decoratorNames (c :: rest) := by
  have hgap : Text.isWord c = false ∧ c ≠ '(' := by simpa [isGap] using h
  induction front with
  | nil => rfl
  | cons d front ih =>
      by_cases hd : d = '@'
      · subst hd
        obtain ⟨word, more, rfl, hword, hmore⟩ := exists_word front
        have hhead : ∀ x ∈ (more ++ c :: rest).head?, Text.isWord x = false := by
          cases more with
          | nil => simpa using hgap.1
          | cons x more => exact hmore
        have hbracket : (more ++ c :: rest).head? = some '(' ↔ more.head? = some '(' := by
          cases more with
          | nil => simpa using hgap.2
          | cons x more => rfl
        rw [List.append_assoc] at ih
        rw [List.cons_append, List.append_assoc, decoratorNames_at hword hhead,
          decoratorNames_at hword hmore, ih]
        simp only [hbracket, List.append_assoc]
      · rw [List.cons_append, decoratorNames_cons_of_ne hd, decoratorNames_cons_of_ne hd, ih]

/-! ## Names in pieces of code -/

theorem namesIn_of_notMem (h : '@' ∉ a.toList) : namesIn a = [] := by
  rw [namesIn, ← List.append_nil a.toList, decoratorNames_append_of_notMem h]
  rfl

theorem namesIn_behind (h : '@' ∉ a.toList) : namesIn (a ++ b) = namesIn b := by
  rw [namesIn, String.toList_append, decoratorNames_append_of_notMem h]
  rfl

theorem namesIn_append (h : b.toList.head?.all isGap = true) :
    namesIn (a ++ b) = namesIn a ++ namesIn b := by
  rw [namesIn, String.toList_append, namesIn, namesIn]
  cases hb : b.toList with
  | nil => simp [decoratorNames]
  | cons c rest => exact decoratorNames_append_cons (by simpa [hb] using h)

theorem namesIn_append_gap (hgap : b.toList.head?.all isGap = true) (h : '@' ∉ b.toList) :
    namesIn (a ++ b) = namesIn a := by
  rw [namesIn_append hgap, namesIn_of_notMem h, List.append_nil]

theorem namesIn_intercalate (pieces : List String) :
    namesIn (", ".intercalate pieces) = pieces.flatMap namesIn := by
  induction pieces with
  | nil => rfl
  | cons piece pieces ih =>
      cases pieces with
      | nil => simp
      | cons next more =>
          have hrest : namesIn (", " ++ ", ".intercalate (next :: more)) =
              namesIn (", ".intercalate (next :: more)) := namesIn_behind (by decide)
          rw [String.intercalate_cons_cons, String.append_assoc, namesIn_append (by simp; decide),
            hrest, ih]
          rfl

theorem namesIn_settings (items : List String) :
    namesIn (Decorator.settings items) = items.flatMap namesIn := by
  rw [Decorator.settings, namesIn_append_gap (by decide) (by decide),
    namesIn_behind (by decide), namesIn_intercalate]

/-! ## Names in quoted texts -/

/-- A word is not escaped, and what follows it goes on like before. -/
theorem flatMap_literalChar_word (hword : ∀ c ∈ word, Text.isWord c = true)
    (hrest : ∀ c ∈ rest.head?, Text.isWord c = false) :
    word.flatMap literalChar = word ∧
      (∀ c ∈ (rest.flatMap literalChar).head?, Text.isWord c = false) ∧
      ((rest.flatMap literalChar).head? = some '(' ↔ rest.head? = some '(') := by
  have hkept : ∀ c ∈ word, literalChar c = [c] := by
    intro c hc
    have hisWord := hword c hc
    rcases literalChar_cases c with ⟨rfl | rfl, -⟩ | ⟨rfl, -⟩ | ⟨-, h⟩
    · exact absurd hisWord (by decide)
    · exact absurd hisWord (by decide)
    · exact absurd hisWord (by decide)
    · exact h
  refine ⟨by rw [List.flatMap_congr hkept, List.flatMap_singleton'], ?_⟩
  cases rest with
  | nil => exact ⟨nofun, Iff.rfl⟩
  | cons d rest =>
      rcases literalChar_cases d with ⟨rfl | rfl, hd⟩ | ⟨rfl, hd⟩ | ⟨-, hd⟩
      · rw [List.flatMap_cons, hd]; exact ⟨by simp; decide, by simp⟩
      · rw [List.flatMap_cons, hd]; exact ⟨by simp; decide, by simp⟩
      · rw [List.flatMap_cons, hd]; exact ⟨by simp; decide, by simp⟩
      · rw [List.flatMap_cons, hd]; exact ⟨by simpa using hrest, by simp⟩

/-- Escaping touches no word and no bracket, so it leaves the names as they are. -/
theorem decoratorNames_flatMap (text : List Char) :
    decoratorNames (text.flatMap literalChar) = decoratorNames text := by
  induction text with
  | nil => rfl
  | cons c text ih =>
      rw [List.flatMap_cons]
      rcases literalChar_cases c with ⟨rfl | rfl, hc⟩ | ⟨rfl, hc⟩ | ⟨-, hc⟩
      · rw [hc]; exact ih
      · rw [hc]; exact ih
      · rw [hc]; exact ih
      · rw [hc, List.singleton_append]
        by_cases hat : c = '@'
        · subst hat
          obtain ⟨word, rest, rfl, hword, hrest⟩ := exists_word text
          obtain ⟨hsame, hhead, hbracket⟩ := flatMap_literalChar_word hword hrest
          rw [List.flatMap_append, hsame] at ih ⊢
          rw [decoratorNames_at hword hhead, decoratorNames_at hword hrest, ih]
          simp only [hbracket]
        · rw [decoratorNames_cons_of_ne hat, decoratorNames_cons_of_ne hat, ih]

theorem namesIn_stringLiteral (text : String) : namesIn (stringLiteral text) = namesIn text := by
  have hlist : (stringLiteral text).toList =
      '\'' :: (text.toList.flatMap literalChar ++ ['\'']) := by
    simp [stringLiteral]
  rw [namesIn, hlist, decoratorNames_cons_of_ne (by decide), decoratorNames_append_cons (by decide),
    decoratorNames_flatMap]
  simp [namesIn, decoratorNames]

theorem namesIn_of_allDigits (h : Text.allDigits a.toList = true) : namesIn a = [] := by
  refine namesIn_of_notMem fun hat => ?_
  rw [Text.allDigits, Bool.and_eq_true, List.all_eq_true] at h
  exact absurd (h.2 '@' hat) (by decide)

theorem namesIn_int (n : Int) : namesIn (toString n) = [] := by
  cases n with
  | ofNat n => exact namesIn_of_allDigits (Text.natural?_toString n).1
  | negSucc n =>
      have hdigits := namesIn_of_allDigits (Text.natural?_toString (n + 1)).1
      exact (namesIn_behind (a := "-") (by decide)).trans hdigits

/-! ## Decorators and the texts that they repeat -/

/-- A word that is not empty. -/
def IsDecoratorName (name : String) : Prop :=
  name.toList ≠ [] ∧ ∀ c ∈ name.toList, Text.isWord c = true

instance (name : String) : Decidable (IsDecoratorName name) :=
  decidable_of_iff (name.toList ≠ [] ∧ name.toList.all Text.isWord = true)
    (and_congr Iff.rfl List.all_eq_true)

variable {d : Decorator} {decorators more : List Decorator} {texts others code code' : List String}

theorem namesIn_text (h : IsDecoratorName d.name) :
    namesIn d.text = d.name :: namesIn d.arguments := by
  have hlist : d.text.toList = '@' :: (d.name.toList ++ '(' :: (d.arguments.toList ++ [')'])) := by
    simp [Decorator.text]
  have hat : '@' ∉ d.name.toList := fun hat => absurd (h.2 '@' hat) (by decide)
  rw [namesIn, hlist, decoratorNames_at h.2 (by simp; decide), if_pos ⟨h.1, rfl⟩,
    decoratorNames_append_of_notMem hat, decoratorNames_cons_of_ne (by decide),
    decoratorNames_append_cons (by decide), String.ofList_toList]
  simp [namesIn, decoratorNames]

/-- The names in some code are those of decorators and those in texts that it repeats. -/
def Names (code : List String) (decorators : List Decorator) (texts : List String) : Prop :=
  ∀ name, name ∈ code.flatMap namesIn ↔
    name ∈ decorators.map (·.name) ∨ name ∈ texts.flatMap namesIn

/-- The names in decorators are their own and those in the texts that they repeat. -/
def Shows (decorators : List Decorator) (texts : List String) : Prop :=
  Names (decorators.map Decorator.text) decorators texts

theorem names_nil : Names [] [] [] := by simp [Names]

theorem Names.append (h : Names code decorators texts) (h' : Names code' more others) :
    Names (code ++ code') (decorators ++ more) (texts ++ others) := by
  intro name
  rw [List.flatMap_append, List.mem_append, h name, h' name, List.map_append, List.mem_append,
    List.flatMap_append, List.mem_append]
  tauto

theorem names_flatMap {α : Type} {xs : List α} {f t : α → List String} {g : α → List Decorator}
    (h : ∀ x ∈ xs, Names (f x) (g x) (t x)) :
    Names (xs.flatMap f) (xs.flatMap g) (xs.flatMap t) := by
  induction xs with
  | nil => exact names_nil
  | cons x xs ih =>
      obtain ⟨hx, hxs⟩ := List.forall_mem_cons.mp h
      exact hx.append (ih hxs)

theorem shows_nil : Shows [] [] := names_nil

theorem Shows.append (h : Shows decorators texts) (h' : Shows more others) :
    Shows (decorators ++ more) (texts ++ others) := by
  rw [Shows, List.map_append]
  exact Names.append h h'

theorem shows_map {α : Type} (xs : List α) {f : α → Decorator} {t : α → List String}
    (h : ∀ x, Shows [f x] (t x)) : Shows (xs.map f) (xs.flatMap t) := by
  have hall : Names (xs.flatMap fun x => [(f x).text]) (xs.flatMap fun x => [f x]) (xs.flatMap t) :=
    names_flatMap fun x _ => h x
  rw [← List.map_eq_flatMap, ← List.map_eq_flatMap] at hall
  rw [Shows, List.map_map]
  exact hall

theorem shows_singleton (hname : IsDecoratorName d.name)
    (h : ∀ name, name ∈ namesIn d.arguments ↔ name ∈ texts.flatMap namesIn) : Shows [d] texts := by
  intro name
  simp [namesIn_text hname, h name]

/-- A decorator of settings shows what the settings repeat. -/
theorem shows_settings {items : List String} (hname : IsDecoratorName name)
    (h : ∀ name, name ∈ items.flatMap namesIn ↔ name ∈ texts.flatMap namesIn) :
    Shows [⟨name, Decorator.settings items⟩] texts :=
  shows_singleton hname fun name => by rw [namesIn_settings, h name]

/-! ## Arguments, routes and documentation -/

/-- The texts that the decorator of an argument repeats. -/
def argumentQuotes (p : Parameter) : List String :=
  match p.kind with
  | .path | .query | .header => [p.wireName]
  | .body | .other _ => []

/-- The texts that the decorator of a parameter of the path or the query repeats. -/
def parameterTexts (p : Parameter) : List String :=
  [p.wireName, constructorOf p.typeExpression]

/-- The texts that the decorator of a header repeats of its schema. -/
def schemaTexts (p : Parameter) : List String :=
  Decorator.schemaKeys.filterMap fun key =>
    (p.constraintSchema.lookup key).bind fun value =>
      if value.truthy then some value.display else none

/-- The texts that the decorator of a header repeats. -/
def headerTexts (p : Parameter) : List String :=
  p.wireName :: p.description.toList ++ schemaTexts p

/-- The texts that the decorator of a response repeats. -/
def responseTexts (r : Response) : List String :=
  r.status ::
    if r.typeExpression != "void" && r.typeExpression != "any" && r.status != "204" then
      [constructorOf r.typeExpression]
    else []

theorem isDecoratorName_ofKind (kind : ParameterKind) :
    ∀ name ∈ kind.decorator?, IsDecoratorName name := by
  have hall : ∀ name ∈ ["Param", "Body", "Query", "Headers"], IsDecoratorName name := by
    decide
  intro name hname
  refine hall name ?_
  cases kind <;> cases hname <;> simp

theorem isDecoratorName_ofMethod (method : Method) :
    ∀ name ∈ method.decorator?, IsDecoratorName name := by
  have hall : ∀ name ∈ ["Get", "Post", "Put", "Patch", "Delete"], IsDecoratorName name := by
    decide
  intro name hname
  refine hall name ?_
  cases method <;> cases hname <;> simp

theorem shows_ofArgument (p : Parameter) :
    Shows (Decorator.ofArgument p).toList (argumentQuotes p) := by
  have hquoted : ∀ name, IsDecoratorName name →
      Shows [⟨name, stringLiteral p.wireName⟩] [p.wireName] := fun name hname =>
    shows_singleton hname fun _ => by simp [namesIn_stringLiteral]
  have hname := isDecoratorName_ofKind p.kind
  unfold Decorator.ofArgument argumentQuotes
  cases hkind : p.kind with
  | path => exact hquoted _ (hname _ (by rw [hkind]; rfl))
  | query => exact hquoted _ (hname _ (by rw [hkind]; rfl))
  | header => exact hquoted _ (hname _ (by rw [hkind]; rfl))
  | body => exact shows_singleton (hname _ (by rw [hkind]; rfl)) fun _ => Iff.rfl
  | other _ => exact shows_nil

theorem shows_ofRoute {e : Endpoint} (h : Decorator.ofRoute e = .ok d) :
    Shows [d] [route e.path] := by
  unfold Decorator.ofRoute at h
  split at h
  · next name hname =>
      cases h
      exact shows_singleton (isDecoratorName_ofMethod e.method name hname) fun name => by
        simp [namesIn_stringLiteral]
  · cases h

theorem namesIn_truth (b : Bool) : namesIn ("required: " ++ Decorator.truth b) = [] := by
  cases b <;> exact namesIn_of_notMem (by decide)

theorem namesIn_labelled (hlabel : '@' ∉ a.toList) (text : String) :
    namesIn (a ++ stringLiteral text) = namesIn text := by
  rw [namesIn_behind hlabel, namesIn_stringLiteral]

theorem shows_apiOperation (e : Endpoint) : Shows (Decorator.apiOperation e) e.summary.toList := by
  unfold Decorator.apiOperation
  cases e.summary with
  | none => exact shows_nil
  | some summary =>
      dsimp only
      split
      · next hnil =>
          subst hnil
          exact fun name => by simp [namesIn, decoratorNames]
      · refine shows_settings (by decide) fun name => ?_
        have hflag : namesIn "deprecated: true" = [] := namesIn_of_notMem (by decide)
        have hsummary := namesIn_labelled (a := "summary: ") (by decide) summary
        split <;> simp [hsummary, hflag]

theorem namesIn_named (p : Parameter) :
    namesIn ("name: " ++ stringLiteral p.wireName) = namesIn p.wireName :=
  namesIn_labelled (by decide) p.wireName

theorem namesIn_typed (text : String) : namesIn ("type: " ++ text) = namesIn text :=
  namesIn_behind (by decide)

theorem shows_apiParam (p : Parameter) : Shows [Decorator.apiParam p] (parameterTexts p) :=
  shows_settings (by decide) fun name => by
    simp [parameterTexts, namesIn_named, namesIn_typed]

theorem shows_apiQuery (p : Parameter) : Shows [Decorator.apiQuery p] (parameterTexts p) :=
  shows_settings (by decide) fun name => by
    simp [parameterTexts, namesIn_named, namesIn_typed, namesIn_truth]

/-- What the documentation of a header says of its schema names what the schema does. -/
theorem namesIn_schema (p : Parameter) :
    (Decorator.schemaKeys.filterMap fun key =>
        match p.constraintSchema.lookup key with
        | some value =>
          if value.truthy then some (key ++ ": " ++ stringLiteral value.display) else none
        | none => none).flatMap namesIn =
      (schemaTexts p).flatMap namesIn := by
  have hlabel : ∀ key ∈ Decorator.schemaKeys, '@' ∉ (key ++ ": ").toList := by decide
  rw [schemaTexts, List.filterMap_eq_flatMap_toList, List.filterMap_eq_flatMap_toList,
    List.flatMap_assoc, List.flatMap_assoc]
  refine List.flatMap_congr fun key hkey => ?_
  cases p.constraintSchema.lookup key with
  | none => rfl
  | some value =>
      cases htruthy : value.truthy with
      | false => simp [htruthy]
      | true => simp [htruthy, namesIn_labelled (hlabel key hkey)]

theorem shows_apiHeader (p : Parameter) : Shows [Decorator.apiHeader p] (headerTexts p) := by
  refine shows_settings (by decide) fun name => ?_
  have hlast : ∀ schema : List String,
      (if schema.isEmpty then [] else ["schema: " ++ Decorator.settings schema]).flatMap namesIn =
        schema.flatMap namesIn := by
    intro schema
    cases schema with
    | nil => rfl
    | cons text schema =>
        simp only [List.isEmpty_cons, Bool.false_eq_true, if_false, List.flatMap_singleton]
        rw [namesIn_behind (by decide), namesIn_settings]
  have hdescribed : ∀ text, namesIn ("description: " ++ stringLiteral text) = namesIn text :=
    namesIn_labelled (by decide)
  have hdefault : namesIn (p.wireName ++ " header parameter") = namesIn p.wireName :=
    namesIn_append_gap (by decide) (by decide)
  rw [List.flatMap_append, hlast, headerTexts, List.flatMap_append, List.mem_append,
    List.mem_append, List.flatMap_cons, List.mem_append]
  refine or_congr ?_ (iff_of_eq (congrArg (name ∈ ·) (namesIn_schema p)))
  -- a header without a description of its own is described by its name
  cases p.description with
  | none => simp [namesIn_named, hdescribed, hdefault, namesIn_truth]
  | some text =>
      by_cases htext : text = ""
      · have hnil : namesIn "" = [] := rfl
        simp [htext, hnil, namesIn_named, hdescribed, hdefault, namesIn_truth]
      · simp [htext, namesIn_named, hdescribed, namesIn_truth]

/-- The number of a status names nothing, and neither do the digits that it is read from. -/
theorem namesIn_statusCode {r : Response} {code : Nat} (h : r.statusCode = .ok (some code)) :
    namesIn (toString code) = namesIn r.status := by
  unfold Response.statusCode at h
  split at h
  · next hdigits =>
      rw [namesIn_of_allDigits hdigits]
      exact namesIn_of_allDigits (Text.natural?_toString code).1
  · cases h

theorem namesIn_responseType (text : String) :
    namesIn (responseType text) = namesIn (constructorOf text) := by
  unfold responseType
  dsimp only
  split
  · rw [namesIn_append_gap (by decide) (by decide), namesIn_behind (by decide)]
  · rfl

theorem shows_apiResponse {r : Response} (h : Decorator.apiResponse r = .ok d) :
    Shows [d] (responseTexts r) := by
  obtain ⟨status?, hstatus, h⟩ := bind_eq_ok.mp h
  obtain rfl := pure_eq_ok.mp h
  have hlabelled : ∀ text, namesIn ("status: " ++ text) = namesIn text := fun _ =>
    namesIn_behind (by decide)
  refine shows_settings (by decide) fun name => ?_
  unfold responseTexts
  cases status? with
  | none =>
      dsimp only
      split <;> simp [hlabelled, namesIn_stringLiteral, namesIn_typed, namesIn_responseType]
  | some code =>
      have hcode : namesIn code.repr = namesIn r.status := namesIn_statusCode hstatus
      dsimp only
      split <;> simp [hlabelled, hcode, namesIn_typed, namesIn_responseType]

theorem shows_responses {responses : List Response}
    (h : responses.mapM Decorator.apiResponse = .ok decorators) :
    Shows decorators (responses.flatMap responseTexts) := by
  have hall := forall₂_of_mapM h
  clear h
  induction hall with
  | nil => exact shows_nil
  | cons hfirst _ ih => exact (shows_apiResponse hfirst).append ih

theorem shows_httpCode (code : Int) : Shows [⟨"HttpCode", toString code⟩] [] := by
  have hname : IsDecoratorName "HttpCode" := by decide
  exact shows_singleton hname fun name => by rw [namesIn_int]; rfl

/-! ## Endpoints -/

/-- The texts that the decorators of an endpoint repeat, but that of its route. -/
def documentedTexts (e : Endpoint) : List String :=
  e.summary.toList ++ (e.parameters.filter (·.kind = .path)).flatMap parameterTexts ++
    (e.parameters.filter (·.kind = .query)).flatMap parameterTexts ++
    (e.parameters.filter (·.kind = .header)).flatMap headerTexts ++
    e.responses.flatMap responseTexts

theorem shows_ofEndpoint {e : Endpoint} (h : Decorator.ofEndpoint e = .ok decorators) :
    Shows decorators (documentedTexts e) := by
  obtain ⟨responses, hresponses, h⟩ := bind_eq_ok.mp h
  obtain rfl := pure_eq_ok.mp h
  have hpath := shows_map (e.parameters.filter (·.kind = .path)) shows_apiParam
  have hquery := shows_map (e.parameters.filter (·.kind = .query)) shows_apiQuery
  have hheader := shows_map (e.parameters.filter (·.kind = .header)) shows_apiHeader
  have hparameters := (((shows_apiOperation e).append hpath).append hquery).append hheader
  rw [← List.append_nil (documentedTexts e)]
  refine (hparameters.append (shows_responses hresponses)).append ?_
  split
  · exact shows_httpCode _
  · exact shows_nil

/-- The texts that an argument with its decorator repeats. -/
def argumentTexts (p : Parameter) : List String :=
  argumentQuotes p ++ [p.name, p.typeExpression]

theorem namesIn_argument (p : Parameter) :
    namesIn (argument p) = namesIn p.name ++ namesIn p.typeExpression := by
  have hname : namesIn p.declaration = namesIn p.name := by
    unfold Parameter.declaration
    split
    · rfl
    · exact namesIn_append_gap (by decide) (by decide)
  have hcolon : namesIn (": " ++ p.typeExpression) = namesIn p.typeExpression :=
    namesIn_behind (by decide)
  rw [argument, String.append_assoc, namesIn_append (by simp; decide), hname, hcolon]

/-- An argument behind its decorator, if its kind has one. -/
def decoratedArgument (p : Parameter) : String :=
  match Decorator.ofArgument p with
  | some d => d.text ++ " " ++ argument p
  | none => argument p

theorem controllerSignature_eq (e : Endpoint) :
    controllerSignature e = ", ".intercalate (e.arguments.map decoratedArgument) := rfl

theorem names_decoratedArgument (p : Parameter) :
    Names [decoratedArgument p] (Decorator.ofArgument p).toList (argumentTexts p) := by
  have hargument : Names [argument p] [] [p.name, p.typeExpression] := fun name => by
    simp [namesIn_argument]
  have hboth : Names _ _ (argumentTexts p) := Names.append (shows_ofArgument p) hargument
  unfold decoratedArgument
  cases hd : Decorator.ofArgument p with
  | none => simpa [hd] using hboth
  | some d =>
      have hblank : namesIn (" " ++ argument p) = namesIn (argument p) := namesIn_behind (by decide)
      have hjoin : namesIn (d.text ++ " " ++ argument p) =
          namesIn d.text ++ namesIn (argument p) := by
        rw [String.append_assoc, namesIn_append (by simp; decide), hblank]
      rw [hd] at hboth
      intro name
      simpa [hjoin] using hboth name

theorem names_controllerSignature (e : Endpoint) :
    Names [controllerSignature e] (e.arguments.filterMap Decorator.ofArgument)
      (e.arguments.flatMap argumentTexts) := by
  have hall : Names (e.arguments.flatMap fun p => [decoratedArgument p]) _ _ :=
    names_flatMap fun p _ => names_decoratedArgument p
  rw [← List.map_eq_flatMap, ← List.filterMap_eq_flatMap_toList] at hall
  intro name
  rw [← hall name, controllerSignature_eq, List.flatMap_singleton, namesIn_intercalate]

/-- The decorators that a method of a controller is written with: that of its route, those of its
arguments, and those that document it. -/
def applied (e : Endpoint) : Except Fault (List Decorator) := do
  let route ← Decorator.ofRoute e
  let others ← Decorator.ofEndpoint e
  return route :: e.arguments.filterMap Decorator.ofArgument ++ others

/-- The texts that the code of a method repeats from the description of its endpoint. -/
def repeatedTexts (e : Endpoint) : List String :=
  route e.path :: e.arguments.flatMap argumentTexts ++ documentedTexts e

/-- A method is written if its decorators are there to be written, and names them. -/
theorem decoratedLines_outcome (e : Endpoint) :
    (∃ fault, applied e = .error fault ∧ decoratedLines e = .error fault) ∨
      ∃ decorators lines, applied e = .ok decorators ∧ decoratedLines e = .ok lines ∧
        Names lines decorators (repeatedTexts e) := by
  unfold applied decoratedLines
  cases hroute : Decorator.ofRoute e with
  | error fault => exact Or.inl ⟨fault, rfl, rfl⟩
  | ok first =>
      cases hothers : Decorator.ofEndpoint e with
      | error fault => exact Or.inl ⟨fault, rfl, rfl⟩
      | ok others =>
          refine Or.inr ⟨_, _, rfl, rfl, ?_⟩
          exact (Names.append (shows_ofRoute hroute) (names_controllerSignature e)).append
            (shows_ofEndpoint hothers)

theorem mapM_decoratedLines_outcome (endpoints : List Endpoint) :
    (∃ fault, endpoints.mapM applied = .error fault ∧
        endpoints.mapM decoratedLines = .error fault) ∨
      ∃ decorators lines, endpoints.mapM applied = .ok decorators ∧
        endpoints.mapM decoratedLines = .ok lines ∧
        Names lines.flatten decorators.flatten (endpoints.flatMap repeatedTexts) := by
  induction endpoints with
  | nil => exact Or.inr ⟨[], [], rfl, rfl, names_nil⟩
  | cons e endpoints ih =>
      rw [List.mapM_cons, List.mapM_cons]
      obtain ⟨fault, happlied, hlines⟩ | ⟨first, lines, happlied, hlines, hnames⟩ :=
        decoratedLines_outcome e
      · rw [happlied, hlines]
        exact Or.inl ⟨fault, rfl, rfl⟩
      · rw [happlied, hlines]
        obtain ⟨fault, hmore, hmoreLines⟩ | ⟨more, moreLines, hmore, hmoreLines, hall⟩ := ih
        · rw [hmore, hmoreLines]
          exact Or.inl ⟨fault, rfl, rfl⟩
        · rw [hmore, hmoreLines]
          exact Or.inr ⟨_, _, rfl, rfl, hnames.append hall⟩

/-! ## Imports -/

/-- What a controller imports is found in the lines of its methods. -/
theorem controllerImports_of_lines {endpoints : List Endpoint} {lines : List (List String)}
    (h : endpoints.mapM decoratedLines = .ok lines) (hasTags : Bool) :
    ∃ imports, controllerImports endpoints hasTags = .ok imports ∧
      ∀ name, name ∈ imports.common ++ imports.swagger ↔
        name ∈ ["Controller", "NotImplementedException"] ∨ hasTags = true ∧ name = "ApiTags" ∨
          name ∈ lines.flatten.flatMap namesIn := by
  unfold controllerImports
  rw [h]
  refine ⟨_, rfl, fun name => ?_⟩
  have htags : name ∈ (if hasTags then ["ApiTags"] else []) ↔
      hasTags = true ∧ name = "ApiTags" := by
    cases hasTags <;> simp
  have hsplit : ∀ used : List String, ∀ test : String → Bool,
      name ∈ used.filter (!test ·) ++ used.filter test ↔ name ∈ used := by
    intro used test
    rw [List.mem_append, List.mem_filter, List.mem_filter]
    cases htest : test name <;> simp
  rw [hsplit, mem_sortedFirsts, List.mem_append, List.mem_append, htags, or_assoc]
  exact or_congr_right or_comm

/-- A controller imports what it always needs, the decorator of its tags if it has any, all
decorators that its methods are written with, and besides them every name in a text that the methods
repeat. It imports nothing only if some decorator cannot be written. -/
theorem controllerImports_outcome (endpoints : List Endpoint) (hasTags : Bool) :
    (∃ fault, endpoints.mapM applied = .error fault ∧
        controllerImports endpoints hasTags = .error fault) ∨
      ∃ decorators imports, endpoints.mapM applied = .ok decorators ∧
        controllerImports endpoints hasTags = .ok imports ∧
        ∀ name, name ∈ imports.common ++ imports.swagger ↔
          name ∈ ["Controller", "NotImplementedException"] ∨ hasTags = true ∧ name = "ApiTags" ∨
            name ∈ decorators.flatten.map (·.name) ∨
            ∃ text ∈ endpoints.flatMap repeatedTexts, name ∈ namesIn text := by
  obtain ⟨fault, happlied, hlines⟩ | ⟨decorators, lines, happlied, hlines, hnames⟩ :=
    mapM_decoratedLines_outcome endpoints
  · refine Or.inl ⟨fault, happlied, ?_⟩
    rw [controllerImports, hlines]
    rfl
  · obtain ⟨imports, himports, hall⟩ := controllerImports_of_lines hlines hasTags
    refine Or.inr ⟨decorators, imports, happlied, himports, fun name => ?_⟩
    rw [hall name, hnames name, List.mem_flatMap]

/-- An endpoint whose summary speaks of a decorator. -/
def guarded : Endpoint where
  method := .get
  path := "/x"
  operationName := "x"
  summary := some "Ask @Roles(admin)"

/-- A decorator that a summary speaks of is imported, though no method is written with it. -/
theorem guarded_stray :
    ¬∀ (endpoints : List Endpoint) (hasTags : Bool) (decorators : List (List Decorator))
        (imports : ControllerImports), endpoints.mapM applied = .ok decorators →
      controllerImports endpoints hasTags = .ok imports →
      ∀ name, name ∈ imports.common ++ imports.swagger ↔
        name ∈ ["Controller", "NotImplementedException"] ∨ hasTags = true ∧ name = "ApiTags" ∨
          name ∈ decorators.flatten.map (·.name) := by
  intro h
  have happlied : [guarded].mapM applied = .ok
      [[⟨"Get", "'/x'"⟩, ⟨"ApiOperation", "\x7b summary: 'Ask @Roles(admin)' \x7d"⟩]] := by
    decide
  have hlines : [guarded].mapM decoratedLines = .ok
      [["@Get('/x')", "", "@ApiOperation(\x7b summary: 'Ask @Roles(admin)' \x7d)"]] := by
    decide
  obtain ⟨imports, himports, hall⟩ := controllerImports_of_lines hlines false
  have hstray := (hall "Roles").mpr (Or.inr (Or.inr (by decide)))
  have hclaimed := (h [guarded] false _ imports happlied himports "Roles").mp hstray
  exact absurd hclaimed (by decide)

end Code

end ApiScaffold
