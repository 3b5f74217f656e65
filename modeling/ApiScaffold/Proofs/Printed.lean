import ApiScaffold.Code.Decorator
import ApiScaffold.Proofs.Arguments
import ApiScaffold.Proofs.Checked
import ApiScaffold.Proofs.Imports
import ApiScaffold.Proofs.Words

set_option autoImplicit false

/-! # The types that a controller prints

A controller prints types in the signatures of its methods, as what they return, and as constructors
in the decorators of their parameters and responses. Each is the type of a single name, or of lists
of it, or a union of such types; however it is taken apart, that name is found. So when names are
words, a controller imports every class that it prints (`compile_imported`). -/

namespace ApiScaffold

open Text

/-! ## Types of one word -/

theorem isWordChar_plain {c : Char} (h : isWordChar c = true) :
    isBlank c = false ∧ c ∉ ['(', ')', '[', ']', ' ', '<'] :=
  forall_of_latin
    (P := fun c => isWordChar c = true → isBlank c = false ∧ c ∉ ['(', ')', '[', ']', ' ', '<'])
    (by decide) (toNat_of_isWordChar h) h

theorem IsWord.free {name : String} (h : IsWord name) :
    ∀ c ∈ name.toList, c ∉ ['(', ')', '[', ']', ' ', '<'] :=
  fun c hc => (isWordChar_plain (h c hc)).2

theorem IsWord.noBlank {name : String} (h : IsWord name) : ' ' ∉ name.toList :=
  fun hc => h.free ' ' hc (by decide)

theorem trim_eq_self {test : Char → Bool} {text : List Char} (h : ∀ c ∈ text, test c = false) :
    trim test text = text := by
  have hfront : ∀ {text : List Char}, (∀ c ∈ text, test c = false) → text.dropWhile test = text := by
    intro text h
    cases text with
    | nil => rfl
    | cons c rest => rw [List.dropWhile_cons_of_neg (by simp [h c List.mem_cons_self])]
  rw [trim, trimBack, hfront h, hfront fun c hc => h c (List.mem_reverse.mp hc), List.reverse_reverse]

theorem cutFrom_noBlank {text piece : List Char} (h : ' ' ∉ text) :
    cutFrom bar 0 text piece = [piece.reverse ++ text] := by
  induction text generalizing piece with
  | nil => simp [cutFrom]
  | cons c text ih =>
      obtain ⟨hc, htext⟩ := not_or.mp (List.mem_cons.not.mp h)
      rw [cutFrom, if_neg (by simp [bar, List.isPrefixOf, hc]), ih htext]
      simp

/-- A word is the only name in itself. -/
theorem IsWord.mem_unionMembers {name n : String} (h : IsWord name) (hne : name ≠ "") :
    n ∈ unionMembers name ↔ n = name := by
  have hbare : bare name.toList = name.toList := by
    refine List.filter_eq_self.mpr fun c hc => ?_
    have hfree := h.free c hc
    simp only [List.mem_cons, not_or] at hfree
    simp [hfree]
  rw [ApiScaffold.mem_unionMembers, cut, cutFrom_noBlank h.noBlank]
  simp only [List.reverse_nil, List.nil_append, List.map_cons, List.map_nil, List.mem_singleton,
    exists_eq_left, hbare, trim_eq_self fun c hc => (isWordChar_plain (h c hc)).1,
    String.ofList_toList]
  exact ⟨And.right, fun heq => ⟨heq ▸ hne, heq⟩⟩

theorem holds_bar_noBlank {text : String} (h : ' ' ∉ text.toList) : holds " | " text = false := by
  have hcut : cut " | ".toList text.toList = [text.toList] := cutFrom_noBlank h
  rw [holds, hcut]
  rfl

/-- A type that is a single word, or lists of it. -/
structure OneWord (name text : String) : Prop where
  word : IsWord name
  nonempty : name ≠ ""
  lists : ∃ type, ListsOf name type ∧ text = type.text

section OneWord

variable {name text n : String} {type : TypeExpr}

/-- Lists of a word have no items that look like a union. -/
theorem ListsOf.noBlank (h : ListsOf name type) (hname : IsWord name) :
    ' ' ∉ type.text.toList := by
  induction h with
  | named => exact hname.noBlank
  | list _ ih =>
      rw [TypeExpr.text_list, holds_bar_noBlank ih]
      simpa using ih

theorem ListsOf.text_list {item : TypeExpr} (h : ListsOf name item) (hname : IsWord name) :
    (TypeExpr.list item).text = item.text ++ "[]" := by
  rw [TypeExpr.text_list, holds_bar_noBlank (h.noBlank hname)]
  rfl

theorem dropLists_eq_self {text : List Char} (h : ']' ∉ text) : Code.dropLists text = text := by
  unfold Code.dropLists
  split
  · exact absurd List.mem_cons_self h
  · rfl

/-- The innermost items of lists of a word are called by the word. -/
theorem ListsOf.innermost (h : ListsOf name type) (hname : IsWord name) :
    Code.innermost type.text = name := by
  have hdrop : Code.dropLists type.text.toList.reverse = name.toList.reverse := by
    induction h with
    | named =>
        refine dropLists_eq_self fun hc => ?_
        exact hname.free ']' (List.mem_reverse.mp hc) (by decide)
    | list h ih =>
        rw [h.text_list hname, String.toList_append, List.reverse_append]
        exact ih
  have htrim : trim (fun c => c = '(' || c = ')') name.toList = name.toList := by
    refine trim_eq_self fun c hc => ?_
    have hfree := hname.free c hc
    simp only [List.mem_cons, not_or] at hfree
    simp [hfree]
  rw [Code.innermost, hdrop, List.reverse_reverse, htrim, String.ofList_toList]

theorem IsWord.not_beginsWith_record (h : IsWord name) : beginsWith "Record<" name = false := by
  rw [Bool.eq_false_iff]
  intro hfront
  obtain ⟨rest, hrest⟩ := List.isPrefixOf_iff_prefix.mp hfront
  exact h.free '<' (hrest ▸ by simp) (by decide)

/-- The constructor of lists of a word is that of the word. -/
theorem ListsOf.constructorOf (h : ListsOf name type) (hname : IsWord name) :
    Code.constructorOf type.text = (Code.constructors.lookup name).getD name := by
  rw [Code.constructorOf, h.innermost hname, holds_bar_noBlank hname.noBlank,
    hname.not_beginsWith_record]
  rfl

theorem ListsOf.words (h : ListsOf name type) : words type.text = words name := by
  induction h with
  | named => rfl
  | list _ ih => rw [TypeExpr.words_list, ih]

/-- The word is the only one in its type. -/
theorem OneWord.words (h : OneWord name text) : words text = [name] := by
  obtain ⟨type, hlists, rfl⟩ := h.lists
  rw [hlists.words, words_of_isWord h.word h.nonempty]

/-- The word is the only name that is found in its type. -/
theorem OneWord.mem_unionMembers (h : OneWord name text) : n ∈ unionMembers text ↔ n = name := by
  obtain ⟨type, hlists, rfl⟩ := h.lists
  rw [mem_unionMembers_listsOf hlists, h.word.mem_unionMembers h.nonempty]

theorem OneWord.list (h : OneWord name text) : OneWord name (text ++ "[]") := by
  obtain ⟨type, hlists, rfl⟩ := h.lists
  exact ⟨h.word, h.nonempty, .list type, .list hlists, (hlists.text_list h.word).symm⟩

/-- A plain type is a word. -/
theorem oneWord_plain (h : name ∈ plainTypes) : OneWord name name := by
  have hall : ∀ name ∈ plainTypes, IsWord name ∧ name ≠ "" := by decide
  obtain ⟨hword, hne⟩ := hall name h
  exact ⟨hword, hne, .named name, .named, rfl⟩

/-- The names that code has of itself: plain types and their constructors. -/
def ownNames : List String := plainTypes ++ ["String", "Number", "Boolean", "Object"]

/-- The constructor for a type is its word, or one that code has of itself. -/
theorem OneWord.words_constructorOf (h : OneWord name text) :
    ∀ w ∈ ApiScaffold.words (Code.constructorOf text), w = name ∨ w ∈ ownNames := by
  obtain ⟨type, hlists, rfl⟩ := h.lists
  rw [hlists.constructorOf h.word]
  cases hlookup : Code.constructors.lookup name with
  | none =>
      rw [Option.getD_none, words_of_isWord h.word h.nonempty]
      exact fun w hw => Or.inl (List.mem_singleton.mp hw)
  | some constructor =>
      have hall : ∀ p ∈ Code.constructors, ∀ w ∈ ApiScaffold.words p.2, w ∈ ownNames := by
        decide
      obtain ⟨before, after, heq, -⟩ := List.lookup_eq_some_iff.mp hlookup
      exact fun w hw => Or.inr (hall (name, constructor) (by simp [heq]) w hw)

/-- Square brackets around a constructor are no words. -/
theorem words_responseType (text : String) :
    ApiScaffold.words (Code.responseType text) = ApiScaffold.words (Code.constructorOf text) := by
  have hbrackets : ApiScaffold.words "[" = [] ∧ ApiScaffold.words "]" = [] := by decide
  rw [Code.responseType]
  split
  · rw [words_append_of_head _ (by simp [isWordChar]), words_append_of_last _ (by simp [isWordChar]),
      hbrackets.1, hbrackets.2]
    simp
  · rfl

end OneWord

/-! ## What a method prints -/

/-- A type that the code of a method prints: that of an argument, what the method returns, and the
constructors for parameters of the path and the query and for responses. -/
inductive Endpoint.Prints (e : Endpoint) : String → Prop where
  | argument {p : Parameter} (hp : p ∈ e.arguments) : e.Prints p.typeExpression
  | returned : e.Prints e.returnType
  | ofPath {p : Parameter} (hp : p ∈ e.parameters) (hkind : p.kind = .path) :
      e.Prints (Code.constructorOf p.typeExpression)
  | ofQuery {p : Parameter} (hp : p ∈ e.parameters) (hkind : p.kind = .query) :
      e.Prints (Code.constructorOf p.typeExpression)
  | ofResponse {r : Response} (hr : r ∈ e.responses) :
      e.Prints (Code.responseType r.typeExpression)

namespace EndpointCompiler

variable {c : EndpointCompiler} {s t : EndpointState} {r : Resolver} {schema : Node}
  {name text : String}

/-- The type of a parameter is plain, or that of lists of a plain type. -/
theorem parameterType_plain {schema : Option Node} (h : parameterType r schema = .ok text) :
    ∃ name ∈ plainTypes, OneWord name text := by
  have hplain : ∀ name ∈ plainTypes, ∃ name' ∈ plainTypes, OneWord name' name :=
    fun name hname => ⟨name, hname, oneWord_plain hname⟩
  have hany : ∃ name ∈ plainTypes, OneWord name "any[]" :=
    ⟨"any", by decide, (oneWord_plain (by decide) : OneWord "any" "any").list⟩
  have hwithin : ∀ fuel schema text, parameterTypeWithin r fuel schema = .ok text →
      ∃ name ∈ plainTypes, OneWord name text := by
    intro fuel
    induction fuel with
    | zero =>
        intro schema text h
        cases h
    | succ fuel ih =>
        intro schema text h
        cases schema with
        | none => exact Except.ok.inj h ▸ hplain "string" (by decide)
        | some schema =>
            obtain ⟨isObject, -, h⟩ := bind_eq_ok.mp h
            split at h
            · exact pure_eq_ok.mp h ▸ hplain "string" (by decide)
            · obtain ⟨type, -, h⟩ := bind_eq_ok.mp h
              split at h
              · exact pure_eq_ok.mp h ▸ hplain "number" (by decide)
              · obtain ⟨node, -, h⟩ := bind_eq_ok.mp h
                obtain ⟨items?, -, h⟩ := bind_eq_ok.mp h
                cases items? with
                | none => exact pure_eq_ok.mp h ▸ hany
                | some items =>
                    dsimp only at h
                    split at h
                    · exact pure_eq_ok.mp h ▸ hany
                    · obtain ⟨item, hitem, h⟩ := bind_eq_ok.mp h
                      obtain ⟨name, hname, hone⟩ := ih _ _ hitem
                      exact pure_eq_ok.mp h ▸ ⟨name, hname, hone.list⟩
              · exact pure_eq_ok.mp h ▸ hplain "number" (by decide)
              · exact pure_eq_ok.mp h ▸ hplain "boolean" (by decide)
              · exact pure_eq_ok.mp h ▸ hplain "object" (by decide)
              · exact pure_eq_ok.mp h ▸ hplain "string" (by decide)
  exact hwithin _ _ _ h

theorem FilledIn.parameter_plain {method : Method} {path : String} {source item : Node}
    {e : Endpoint} (h : FilledIn c s t method path source item e) :
    ∀ p ∈ e.parameters, ∃ name ∈ plainTypes, OneWord name p.typeExpression := by
  intro p hp
  obtain ⟨parameter, hp⟩ := mem_compileParameters h.parameters p hp
  obtain ⟨called, place, text, named, -, -, -, -, -, -, schema, htype⟩ := compileParameter_reads hp
  exact parameterType_plain htype

/-- The texts that types may copy are words: the names of operations and the statuses of responses
that classes are named for, and what the references end with that bodies and responses meet. -/
structure NamedInWords (c : EndpointCompiler) : Prop where
  answers : ∀ operation status, c.Answers operation status → IsWord operation ∧ IsWord status
  references : ∀ schema, c.Answerable schema ∨ c.Requested schema →
    ∀ n, Relation.ReflTransGen (Mapper.Part c.mapper) schema n →
      ∀ pointer, n.pointer? = .ok (some pointer) → IsWord (Pointer.name pointer)

section Named

variable {resolved written : Document} {synthesize : Bool} {spec : Option String}
  {named : List (String × Node)}

theorem nonempty_ofBase (base : String) : ModelName.ofBase base ≠ "" := by
  simp [ModelName.ofBase, ModelName.ending]

/-- The type of a body or of a response with a schema is that of a word. -/
theorem MadeFor.oneWord_mapBody (hc : MadeFor c resolved written synthesize spec named)
    (hnamed : c.NamedInWords) (hschema : c.Answerable schema ∨ c.Requested schema)
    {type : TypeExpr} (h : c.mapper.mapBody schema = .ok type) :
    ∃ name, OneWord name type.text := by
  obtain ⟨name, hlists, hname⟩ := Mapper.bodyWithin_type h
  have husual := Mapper.usual_of_ofDocument hc.mapper hc.fields
  cases hname with
  | plain hname =>
      obtain ⟨hword, hne, -⟩ := oneWord_plain hname
      exact ⟨name, hword, hne, type, hlists, rfl⟩
  | texts hn hrefers hname =>
      have hword := hnamed.references schema hschema _ hn _ hrefers.reference
      refine ⟨name, hname ▸ hword.enumName, ?_, type, hlists, rfl⟩
      simp [hname, Naming.enumName]
  | model hn hrefers hpointer hname =>
      have hword := hnamed.references schema hschema _ hn _ hrefers.reference
      rw [husual.classOf] at hname
      exact ⟨name, hname ▸ hword.ofBase, hname ▸ nonempty_ofBase _, type, hlists, rfl⟩

/-- The type of a response is that of a word. -/
theorem CompiledResponse.oneWord (hc : MadeFor c resolved written synthesize spec named)
    (hnamed : c.NamedInWords) {raw : RawResponse} {response : Response}
    (h : CompiledResponse c s raw response t)
    (hanswer : ∀ schema, raw.schema = some schema → c.Answerable schema) :
    ∃ name, OneWord name response.typeExpression := by
  cases h with
  | empty _ htype => exact ⟨"void", htype ▸ (oneWord_plain (by decide) : OneWord "void" "void")⟩
  | typed hschema _ htype htext =>
      rw [htext]
      exact hc.oneWord_mapBody hnamed (Or.inl (hanswer _ hschema)) htype
  | inPlace _ _ _ hanswers hclaim =>
      obtain ⟨arena, hclaimed, -⟩ := yields_claimResponse hclaim
      obtain ⟨-, -, k, -, -, hname, -⟩ := Registry.claim_spec hclaimed
      obtain ⟨hoperation, hstatus⟩ := hnamed.answers _ _ hanswers
      have hbase : IsWord (responseBase _ _) :=
        (hoperation.capitalize.append hstatus).append (by decide)
      refine ⟨response.typeExpression, ?_, ?_, .named _, .named, rfl⟩
      · rw [hname]
        exact (hbase.numbered k).ofBase
      · rw [hname]
        exact nonempty_ofBase _

end Named

/-- The types that an endpoint shows are those of words; parameters have plain ones. -/
structure ShowsWords (e : Endpoint) : Prop where
  parameters : ∀ p ∈ e.parameters, ∃ name ∈ plainTypes, OneWord name p.typeExpression
  body : ∀ b ∈ e.body, ∃ name, OneWord name b.typeExpression
  responses : ∀ r ∈ e.responses, ∃ name, OneWord name r.typeExpression
  returnType : ∃ includeErrors, e.returnType = ApiScaffold.returnType includeErrors e.responses
  arguments : e.arguments.Perm (e.parameters ++ e.body.toList.map bodyArgument)

/-- An endpoint is compiled from an operation that the document lists. -/
def CompilesTo (c : EndpointCompiler) (e : Endpoint) : Prop :=
  ∃ method path operation s t, c.Lists method path operation ∧
    Yields (c.compile method path operation) s e t

theorem CompilesTo.showsWords {resolved written : Document} {synthesize : Bool}
    {spec : Option String} {named : List (String × Node)} {e : Endpoint}
    (hc : MadeFor c resolved written synthesize spec named) (hnamed : c.NamedInWords)
    (h : c.CompilesTo e) : ShowsWords e := by
  obtain ⟨method, path, operation, s, t, hlists, hcompile⟩ := h
  obtain ⟨source, item, hsource, hfilled⟩ := yields_compile hcompile
  have hdescribes := (hfilled.describes hlists hsource).2
  refine ⟨hfilled.parameter_plain, ?_, ?_, ⟨_, hfilled.returnType⟩, ?_⟩
  · intro body hbody
    obtain ⟨request, hrequest, hcompiled⟩ := bind_eq_ok.mp hfilled.body
    rw [hbody] at hcompiled
    obtain ⟨node, content, schema, type, hnode, hcontent, hschema, htype, htext⟩ :=
      compileBody_eq_ok hcompiled
    rw [htext]
    exact hc.oneWord_mapBody hnamed (Or.inr ⟨source, request, node, content,
      hdescribes.isOperation, hrequest, hnode, hcontent, hschema⟩) htype
  · intro response hresponse
    obtain ⟨raw, hraw, hall⟩ := hdescribes.responses
    obtain ⟨r, hr, hbetween⟩ := exists_left_of_forall₂ hall response hresponse
    obtain ⟨u, v, -, hone, -⟩ := hbetween.run
    exact hone.oneWord hc hnamed fun schema hschema =>
      ⟨source, raw, hdescribes.isOperation, hraw, r, hr, hschema⟩
  · rw [hfilled.arguments]
    exact List.mergeSort_perm _ _

/-! ## Imports -/

/-- The word of a type that an endpoint shows is plain or imported. -/
theorem imported_of_mem {endpoints : List Endpoint} {e : Endpoint} (he : e ∈ endpoints)
    (htext : text ∈ e.typeExpressions) (h : OneWord name text) :
    name ∈ ownNames ∨ name ∈ dtoImports endpoints := by
  by_cases hplain : name ∈ plainTypes
  · exact Or.inl (List.mem_append_left _ hplain)
  · right
    have hrecord : beginsWith "Record<" name = false := h.word.not_beginsWith_record
    rw [dtoImports, mem_sortedFirsts, List.mem_filter]
    refine ⟨List.mem_flatMap.mpr ⟨e, he, List.mem_flatMap.mpr ⟨text, htext, ?_⟩⟩, by
      simp [hplain, hrecord]⟩
    exact h.mem_unionMembers.mpr rfl

/-- The words of the type that a method returns are plain types, or those of its responses. -/
theorem mem_words_returnType {includeErrors : Bool} {responses : List Response} {w : String}
    (hw : w ∈ words (returnType includeErrors responses)) :
    w ∈ plainTypes ∨ ∃ r ∈ responses, w ∈ words r.typeExpression := by
  have hplain : ∀ name ∈ ["any", "void"], ∀ w ∈ words name, w ∈ plainTypes := by decide
  unfold returnType at hw
  dsimp only at hw
  split at hw
  · left
    split at hw
    · exact hplain "any" (by simp) w hw
    · exact hplain "void" (by simp) w hw
  · right
    rw [TypeExpr.words_intercalate] at hw
    obtain ⟨text, htext, hw⟩ := List.mem_flatMap.mp hw
    obtain ⟨r, hr, rfl⟩ := List.mem_map.mp (List.mem_of_mem_filter (mem_firsts.mp htext))
    exact ⟨r, List.mem_of_mem_filter hr, hw⟩

/-- Every word in a type that a method prints is a name that code has of itself, or imported. -/
theorem ShowsWords.printed {endpoints : List Endpoint} {e : Endpoint} {w : String}
    (h : ShowsWords e) (he : e ∈ endpoints) (hprints : e.Prints text) (hw : w ∈ words text) :
    w ∈ ownNames ∨ w ∈ dtoImports endpoints := by
  have hresponse : ∀ r ∈ e.responses, ∀ w ∈ words r.typeExpression,
      w ∈ ownNames ∨ w ∈ dtoImports endpoints := by
    intro r hr w hw
    obtain ⟨name, hone⟩ := h.responses r hr
    rw [hone.words] at hw
    obtain rfl := List.mem_singleton.mp hw
    refine imported_of_mem he (List.mem_append_left _ (List.mem_cons_of_mem _ ?_)) hone
    exact List.mem_map_of_mem hr
  have hparameter : ∀ p ∈ e.parameters, ∃ name ∈ ownNames, OneWord name p.typeExpression := by
    intro p hp
    obtain ⟨name, hname, hone⟩ := h.parameters p hp
    exact ⟨name, List.mem_append_left _ hname, hone⟩
  have hconstructor : ∀ p ∈ e.parameters, ∀ w ∈ words (Code.constructorOf p.typeExpression),
      w ∈ ownNames := by
    intro p hp w hw
    obtain ⟨name, hname, hone⟩ := hparameter p hp
    rcases hone.words_constructorOf w hw with rfl | hown
    · exact hname
    · exact hown
  cases hprints with
  | @argument p hp =>
      rcases List.mem_append.mp (h.arguments.mem_iff.mp hp) with hp | hp
      · obtain ⟨name, hname, hone⟩ := hparameter p hp
        rw [hone.words] at hw
        exact Or.inl (List.mem_singleton.mp hw ▸ hname)
      · obtain ⟨b, hb, rfl⟩ := List.mem_map.mp hp
        obtain ⟨name, hone⟩ := h.body b (Option.mem_toList.mp hb)
        rw [show (bodyArgument b).typeExpression = b.typeExpression from rfl, hone.words] at hw
        obtain rfl := List.mem_singleton.mp hw
        refine imported_of_mem he (List.mem_append_right _ (Option.mem_toList.mpr ?_)) hone
        exact Option.mem_map_of_mem _ (Option.mem_toList.mp hb)
  | returned =>
      obtain ⟨includeErrors, hreturn⟩ := h.returnType
      rw [hreturn] at hw
      rcases mem_words_returnType hw with hplain | ⟨r, hr, hw⟩
      · exact Or.inl (List.mem_append_left _ hplain)
      · exact hresponse r hr w hw
  | ofPath hp _ => exact Or.inl (hconstructor _ hp w hw)
  | ofQuery hp _ => exact Or.inl (hconstructor _ hp w hw)
  | @ofResponse r hr =>
      rw [words_responseType] at hw
      obtain ⟨name, hone⟩ := h.responses r hr
      rcases hone.words_constructorOf w hw with rfl | hown
      · exact hresponse r hr w (hone.words ▸ List.mem_singleton_self w)
      · exact Or.inl hown

end EndpointCompiler

/-- Looking leads from the documents to the schemas of bodies. -/
theorem Closed.requested {P : Node → Prop} {c : EndpointCompiler} {schema : Node} (h : Closed P)
    (hresolved : P c.resolved.top) (hwritten : P c.written.top)
    (hresolver : P c.mapper.resolver.document.top) (hschema : c.Requested schema) : P schema := by
  obtain ⟨source, request, node, content, hoperation, hrequest, hnode, hcontent, hjson⟩ := hschema
  have hin : P source := h.isOperation hresolved hwritten hresolver hoperation
  exact h.jsonSchema (h.get (h.objectAt hresolver (h.get hin hrequest) hnode) hcontent) hjson

namespace EndpointCompiler

variable {c : EndpointCompiler} {s t : EndpointState}

/-- What is asked of texts that words copy. -/
def wordChecks : TextChecks where
  reference pointer := IsWord (Pointer.name pointer)
  operation name := IsWord name
  status status := IsWord status
  schema _ := true
  property _ := true

theorem wordChecks_reference {text : String} :
    wordChecks.reference text = true ↔ IsWord (Pointer.name text) := by
  simp only [wordChecks, decide_eq_true_eq]

theorem wordChecks_operation {text : String} :
    wordChecks.operation text = true ↔ IsWord text := by
  simp only [wordChecks, decide_eq_true_eq]

theorem wordChecks_status {text : String} : wordChecks.status text = true ↔ IsWord text := by
  simp only [wordChecks, decide_eq_true_eq]

theorem namedInWords_of_readable {resolved written : Document} {synthesize : Bool}
    {spec : Option String} {named : List (String × Node)}
    (hc : MadeFor c resolved written synthesize spec named)
    (hresolved : resolved.root.readable wordChecks = true)
    (hwritten : written.root.readable wordChecks = true) : c.NamedInWords := by
  have hD : ∀ d ∈ ({resolved, written} : Set Document), d.root.readable wordChecks = true := by
    rintro d (rfl | rfl)
    · exact hresolved
    · exact hwritten
  have hclosed : Closed (Lives {resolved, written} (Json.readables wordChecks)) :=
    (world_readables hD).closed
  have htop : ∀ d ∈ ({resolved, written} : Set Document),
      Lives {resolved, written} (Json.readables wordChecks) d.top := fun d hd => ⟨hd, hD d hd⟩
  have hlisted := htop c.resolved (by simp [hc.resolved])
  have hsaid := htop c.written (by simp [hc.written])
  have hresolver := htop c.mapper.resolver.document
    (by simp [(Mapper.ofDocument_eq_ok hc.mapper).2.1])
  constructor
  · intro operation status hanswers
    obtain ⟨hoperation, hstatus⟩ := hanswers.passes hD hlisted hsaid hresolver
    refine ⟨wordChecks_operation.mp hoperation, ?_⟩
    rcases hstatus with rfl | hstatus
    · decide
    · exact wordChecks_status.mp hstatus
  · intro schema hschema n hn pointer hpointer
    have hin : Lives {resolved, written} (Json.readables wordChecks) schema := by
      rcases hschema with hschema | hschema
      · exact hclosed.answerable hlisted hsaid hresolver hschema
      · exact hclosed.requested hlisted hsaid hresolver hschema
    exact wordChecks_reference.mp ((hclosed.parts hresolver hin hn).reference hD hpointer)

/-- All endpoints of a document are compiled from operations that it lists. -/
theorem compileAll_compilesTo {endpoints : List Endpoint} (h : Yields c.compileAll s endpoints t) :
    ∀ e ∈ endpoints, c.CompilesTo e := by
  have hrelates : Relates c (fun method path operation => .ok (method, path, operation))
      fun _ _ _ e => c.CompilesTo e :=
    ⟨fun _ _ _ _ _ _ _ h _ => h, fun method path operation s e t hlists he =>
      ⟨_, rfl, method, path, operation, s, t, hlists, he⟩⟩
  obtain ⟨-, operations, -, hall⟩ := yields_compileAll_read hrelates h
  intro e he
  obtain ⟨_, -, hcompiles⟩ := exists_left_of_forall₂ hall e he
  exact hcompiles

/-- A ward lists its patients by their numbers, admits some at once and tells how long they stay. -/
def ward : Json := .obj [
  ("paths", .obj [
    ("/patients", .obj [
      ("get", .obj [
        ("operationId", .str "listPatients"),
        ("parameters", .arr [.obj [("name", .str "numbers"), ("in", .str "query"),
          ("schema", .obj [("type", .str "array"), ("items", .obj [("type", .str "integer")])])]]),
        ("responses", .obj [("200", Generator.carrying
          (.obj [("type", .str "array"), ("items", ModelCompiler.referenceTo "Patient")]))])]),
      ("post", .obj [
        ("operationId", .str "admit"),
        ("requestBody", Generator.carrying
          (.obj [("type", .str "array"), ("items", ModelCompiler.referenceTo "Patient")])),
        ("responses", .obj [("201", Generator.carrying
          (.obj [("properties", .obj [("count", .obj [("type", .str "integer")])])]))])])]),
    ("/stays", .obj [
      ("get", .obj [
        ("operationId", .str "listStays"),
        ("responses", .obj [("200", Generator.carrying (.obj [("type", .str "array"),
          ("items", .obj [("type", .str "array"),
            ("items", ModelCompiler.referenceTo "Stay")])]))])])])]),
  ("components", .obj [("schemas", .obj [
    ("Patient", .obj [("properties", .obj [("first-name", .obj [("type", .str "string")])])]),
    ("Stay", Generator.either "short" "long")])])]

/-- The types that the endpoints of some list return and take. -/
def typesShown (endpoints : List Endpoint) : List (String × List String) :=
  endpoints.map fun e => (e.returnType, e.parameters.map (·.typeExpression))

end EndpointCompiler

end ApiScaffold
