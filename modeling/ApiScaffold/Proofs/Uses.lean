import ApiScaffold.Proofs.Absent
import ApiScaffold.Proofs.ClassNames
import ApiScaffold.Proofs.Rules
import ApiScaffold.Proofs.Words

set_option autoImplicit false

/-! # The models that types name

When names are single words, the words of a type tell which models it names: those that are no plain
types, no enumerations and not how records are written. Every way to map a schema notes just the
models that its type names (`tells_rules`), so a model uses just the models that the types of its
properties name, on every registry and whatever models are blocked (`compileOn_dependsOn`). -/

namespace ApiScaffold

open ModelCompiler

namespace Mapper

variable {m : Mapper} {ctx : MappingContext} {Q : Node → Prop} {n : Node} {s t u : MapperState}
  {a : MappedType} {d : String}

/-! ## Names of models -/

/-- The name of an enumeration that references stand for. -/
def NamesEnum (m : Mapper) (name : String) : Prop :=
  ∃ pointer target, m.resolver.find pointer = .ok (some target) ∧
    Schema.isStringEnum target = .ok true ∧ name = Naming.enumName (Pointer.name pointer)

/-- A type names a model. -/
structure NamesModel (m : Mapper) (type name : String) : Prop where
  word : name ∈ words type
  other : name ∉ plainTypes
  record : name ≠ "Record"
  enum : ¬ NamesEnum m name

/-- Texts with the same words, but for plain types and how records are written. -/
theorem namesModel_congr {a b : String}
    (h : d ∉ plainTypes → d ≠ "Record" → (d ∈ words a ↔ d ∈ words b)) :
    NamesModel m a d ↔ NamesModel m b d := by
  constructor
  · rintro ⟨hword, hother, hrecord, henum⟩
    exact ⟨(h hother hrecord).mp hword, hother, hrecord, henum⟩
  · rintro ⟨hword, hother, hrecord, henum⟩
    exact ⟨(h hother hrecord).mpr hword, hother, hrecord, henum⟩

theorem namesModel_list {item : TypeExpr} :
    NamesModel m (TypeExpr.list item).text d ↔ NamesModel m item.text d :=
  namesModel_congr fun _ _ => by rw [TypeExpr.words_list]

theorem namesModel_listOfClass {name : String} :
    NamesModel m (TypeExpr.listOfClass name).text d ↔ NamesModel m name d :=
  namesModel_congr fun _ _ => by rw [TypeExpr.words_listOfClass]

theorem namesModel_record {value : TypeExpr} :
    NamesModel m (TypeExpr.record value).text d ↔ NamesModel m value.text d := by
  refine namesModel_congr fun hother hrecord => ?_
  have hstring : d ≠ "string" := by
    rintro rfl
    exact hother (by decide)
  simp [TypeExpr.words_record, hrecord, hstring]

theorem namesModel_unionType {types : List MappedType} :
    NamesModel m (unionType types).type.text d ↔ ∃ a ∈ types, NamesModel m a.type.text d := by
  have hiff (hother : d ∉ plainTypes) :
      d ∈ words (unionType types).type.text ↔ ∃ a ∈ types, d ∈ words a.type.text := by
    refine mem_words_unionType ?_
    rintro rfl
    exact hother (by decide)
  constructor
  · rintro ⟨hword, hother, hrecord, henum⟩
    obtain ⟨a, ha, hword⟩ := (hiff hother).mp hword
    exact ⟨a, ha, hword, hother, hrecord, henum⟩
  · rintro ⟨a, ha, hword, hother, hrecord, henum⟩
    exact ⟨(hiff hother).mpr ⟨a, ha, hword⟩, hother, hrecord, henum⟩

theorem not_namesModel_plain {name : String} (h : name ∈ plainTypes) : ¬ NamesModel m name d := by
  have hall : ∀ name ∈ plainTypes, words name = [name] := by decide
  rintro ⟨hword, hother, -, -⟩
  rw [hall name h] at hword
  exact hother (List.mem_singleton.mp hword ▸ h)

theorem not_namesModel_enum {pointer : String} {target : Node}
    (h : RefersToTexts m n pointer target) (hword : IsWord (Pointer.name pointer)) :
    ¬ NamesModel m (Naming.enumName (Pointer.name pointer)) d := by
  rintro ⟨hmem, -, -, henum⟩
  rw [words_of_isWord hword.enumName (by simp [Naming.enumName])] at hmem
  exact henum ⟨pointer, target, h.found, h.lists, List.mem_singleton.mp hmem⟩

/-- The names of classes have an end of their own. -/
theorem last_ofBase (base : String) : (ModelName.ofBase base).toList.getLast? = some 'o' := by
  simp [ModelName.ofBase, ModelName.ending]

theorem namesModel_ofBase {base : String} (hbase : IsWord base) :
    NamesModel m (ModelName.ofBase base) d ↔ d = ModelName.ofBase base := by
  have hwords := words_of_isWord hbase.ofBase (by simp [ModelName.ofBase, ModelName.ending])
  constructor
  · rintro ⟨hword, -, -, -⟩
    rw [hwords] at hword
    exact List.mem_singleton.mp hword
  · -- its end tells a class from plain types, from records and from enumerations
    rintro rfl
    have hlast := last_ofBase base
    refine ⟨by simp [hwords], fun hmem => ?_, fun heq => ?_, ?_⟩
    · have hall : ∀ name ∈ plainTypes, name.toList.getLast? ≠ some 'o' := by decide
      exact hall _ hmem hlast
    · rw [heq] at hlast
      revert hlast
      decide
    · rintro ⟨pointer, target, -, -, heq⟩
      rw [heq] at hlast
      simp [Naming.enumName] at hlast

/-! ## What is noted -/

/-- Behind some steps those models are noted that were noted in front and those that `P` holds of,
and each of the latter is registered and may be used. -/
structure Tells (model : String) (blocked : List String) (s : MapperState) (P : String → Prop)
    (t : MapperState) : Prop where
  grows : Registry.Extends s.registry t.registry
  noted : ∀ d, d ∈ t.dependencies ↔ d ∈ s.dependencies ∨ P d
  usable : ∀ d, P d → d ≠ model ∧ d ∉ blocked ∧ d ∈ t.registry.names

section Tells

variable {model : String} {blocked : List String} {P R : String → Prop}

theorem Tells.none {r : Registry} (hgrows : Registry.Extends s.registry r) (hnone : ∀ d, ¬ P d) :
    Tells model blocked s P ⟨r, s.dependencies⟩ where
  grows := hgrows
  noted d := by simp [hnone d]
  usable d hd := absurd hd (hnone d)

theorem Tells.congr (h : Tells model blocked s P t) (hiff : ∀ d, R d ↔ P d) :
    Tells model blocked s R t where
  grows := h.grows
  noted d := by rw [h.noted, hiff]
  usable d hd := h.usable d ((hiff d).mp hd)

theorem Tells.trans (h : Tells model blocked s P u) (h' : Tells model blocked u R t) :
    Tells model blocked s (fun d => P d ∨ R d) t where
  grows := h.grows.trans h'.grows
  noted d := by rw [h'.noted, h.noted, or_assoc]
  usable d hd := by
    rcases hd with hd | hd
    · obtain ⟨hmodel, hblocked, hmem⟩ := h.usable d hd
      exact ⟨hmodel, hblocked, h'.grows.mem hmem⟩
    · exact h'.usable d hd

theorem tells_class {name : String} (h : UsesClass m ctx n s name t) :
    Tells ctx.model ctx.blocked s (· = name) t where
  grows := h.named.extends
  noted d := by rw [h.noted, mem_addNew]
  usable d hd := by
    subst hd
    have hfree := h.free
    simp only [isBlocked, Bool.or_eq_false_iff, beq_eq_false_iff_ne] at hfree
    exact ⟨hfree.1, by simpa using hfree.2, h.named.registered⟩

end Tells

/-! ## Mapping tells what it names -/

/-- All names that mapping a property can meet are words; `Q` holds of the schemas in reach. -/
structure Worded (m : Mapper) (ctx : MappingContext) (Q : Node → Prop) : Prop where
  classOf : ∀ schema, m.names.classOf schema = ModelName.ofBase schema
  components : ∀ fields, m.components.fields = .ok fields → ∀ f ∈ fields, IsWord f.1
  pointers : ∀ n pointer, Q n → n.pointer? = .ok (some pointer) → IsWord (Pointer.name pointer)
  base : IsWord ctx.base
  property : IsWord ctx.property
  part : ∀ a b, Q a → Part m a b → Q b

theorem exists_base_of_claim {r r' : Registry} {base source name : String}
    (hbase : IsWord base) (h : r.claim base n source = .ok (name, r')) :
    ∃ b, IsWord b ∧ name = ModelName.ofBase b := by
  obtain ⟨-, -, k, -, -, rfl, -⟩ := Registry.claim_spec h
  exact ⟨_, hbase.numbered k, rfl⟩

theorem ClassFor.exists_base {r r' : Registry} {name : String} (hw : Worded m ctx Q) (hn : Q n)
    (h : ClassFor m ctx n r name r') : ∃ base, IsWord base ∧ name = ModelName.ofBase base := by
  cases h with
  | component hclass hname =>
      exact ⟨_, hw.pointers n _ hn hclass.reference, hname.trans (hw.classOf _)⟩
  | target hclass _ hclaim =>
      exact exists_base_of_claim (hw.pointers n _ hn hclass.reference).capitalize hclaim
  | alike hfound hname =>
      obtain ⟨fields, hfields, hmem⟩ := mem_of_structuralMatch hfound
      obtain ⟨f, hf, rfl⟩ := List.mem_map.mp hmem
      exact ⟨_, hw.components fields hfields f hf, hname.trans (hw.classOf _)⟩
  | inPlace hsuffix hclaim =>
      have hword : ∀ suffix ∈ ["", "Item"], IsWord suffix := by decide
      exact exists_base_of_claim
        ((hw.base.append hw.property.capitalize).append (hword _ hsuffix)) hclaim

/-- A class that is used is the model that its name names. -/
theorem tells_named {name : String} (hw : Worded m ctx Q) (hn : Q n)
    (h : UsesClass m ctx n s name t) :
    Tells ctx.model ctx.blocked s (NamesModel m name) t := by
  obtain ⟨base, hbase, rfl⟩ := h.named.exists_base hw hn
  exact (tells_class h).congr fun d => namesModel_ofBase hbase

theorem tells_chain {all : List Node} {types : List MappedType} (hall : ∀ n ∈ all, Q n)
    (h : Chain (fun n s a t => Q n → Tells ctx.model ctx.blocked s (NamesModel m a.type.text) t)
      all s types t) :
    Tells ctx.model ctx.blocked s (fun d => ∃ a ∈ types, NamesModel m a.type.text d) t := by
  induction h with
  | nil => exact Tells.none (Registry.Extends.refl _) (by simp)
  | skip _ ih => exact ih fun n hn => hall n (List.mem_cons_of_mem _ hn)
  | cons hfirst _ ih =>
      have hrest := ih fun n hn => hall n (List.mem_cons_of_mem _ hn)
      exact ((hfirst (hall _ List.mem_cons_self)).trans hrest).congr fun d => by simp

/-- Every way to map a schema notes the models that its type names. -/
theorem tells_rules (hw : Worded m ctx Q) :
    MapRules m ctx fun n s a t =>
      Q n → Tells ctx.model ctx.blocked s (NamesModel m a.type.text) t where
  plain hplain hgains _ := by
    obtain ⟨name, hname, htype⟩ := hplain.type
    exact Tells.none hgains.extends fun d => htype ▸ not_namesModel_plain hname
  texts hrefers _ hn :=
    Tells.none (Registry.Extends.refl _) fun d =>
      not_namesModel_enum hrefers (hw.pointers _ _ hn hrefers.reference)
  through hstep h hn := h (hw.part _ _ hn hstep.part)
  ofClass huses hn := tells_named hw hn huses
  union hall hchain hn :=
    (tells_chain (fun b hb => hw.part _ b hn (.variant hall hb)) hchain).congr fun d =>
      namesModel_unionType
  unknown _ hgains _ :=
    Tells.none hgains.extends fun d => namesModel_list.not.mpr (not_namesModel_plain (by decide))
  items hlist h hn := (h (hw.part _ _ hn (.items hlist.items))).congr fun d => namesModel_list
  itemsOfClass hlist huses hn :=
    (tells_named hw (hw.part _ _ hn (.items hlist.items)) huses).congr fun d =>
      namesModel_listOfClass
  record hget h hn := (h (hw.part _ _ hn (.values hget))).congr fun d => namesModel_record

end Mapper

/-! ## Names that a schema brings in -/

/-- The names that a schema can bring into types are words: those of the named schemas, those of its
properties, and those that the pointers in reach of its properties end with. -/
structure ModelCompiler.NamedInWords (m : Mapper) (schema : Node) : Prop where
  components : ∀ fields, m.components.fields = .ok fields → ∀ f ∈ fields, IsWord f.1
  properties : ∀ gathered, Gathered.ofSchema m.resolver schema = .ok gathered →
    ∀ q ∈ gathered.properties, IsWord q.1
  pointers : ∀ n pointer, Inside m schema n → n.pointer? = .ok (some pointer) →
    IsWord (Pointer.name pointer)

/-! ## Plain documents -/

namespace Json

/-- Whether the names that a field gives are words: the keys of an object under `properties` or
`schemas`, or the end of a pointer. -/
def fieldNamed (key : String) : Json → Bool
  | .obj fields => !(key == "properties" || key == "schemas") || fields.all fun f => IsWord f.1
  | .str pointer => !(key == "$ref") || IsWord (Pointer.name pointer)
  | _ => true

mutual

/-- Whether all names that a value gives are words. -/
def namedInWords : Json → Bool
  | .arr items => itemsNamed items
  | .obj fields => fieldsNamed fields
  | _ => true

/-- `namedInWords` for the items of a list. -/
def itemsNamed : List Json → Bool
  | [] => true
  | x :: rest => namedInWords x && itemsNamed rest

/-- `namedInWords` for the fields of an object. -/
def fieldsNamed : Fields → Bool
  | [] => true
  | (key, x) :: rest => fieldNamed key x && namedInWords x && fieldsNamed rest

end

theorem itemsNamed_iff {items : List Json} :
    itemsNamed items = true ↔ ∀ x ∈ items, x.namedInWords = true := by
  induction items with
  | nil => simp [itemsNamed]
  | cons x items ih => simp [itemsNamed, ih]

theorem fieldsNamed_iff {fields : Fields} :
    fieldsNamed fields = true ↔
      ∀ f ∈ fields, fieldNamed f.1 f.2 = true ∧ f.2.namedInWords = true := by
  induction fields with
  | nil => simp [fieldsNamed]
  | cons f fields ih => simp [fieldsNamed, ih]

end Json

section Plain

variable {D : Document} {n b : Node}

/-- A node of a document whose value gives names that are words. -/
structure GivesWords (D : Document) (n : Node) : Prop where
  document : n.document = D
  value : n.value.namedInWords = true

theorem GivesWords.field (hn : GivesWords D n) {fields : Fields} (hfields : n.value = .obj fields)
    {f : String × Json} (hf : f ∈ fields) :
    Json.fieldNamed f.1 f.2 = true ∧ f.2.namedInWords = true := by
  have hvalue := hn.value
  rw [hfields, Json.namedInWords, Json.fieldsNamed_iff] at hvalue
  exact hvalue f hf

theorem closed_givesWords (hD : D.root.namedInWords = true) : Closed (GivesWords D) where
  top hn := ⟨hn.document, hn.document ▸ hD⟩
  field {n fields} key hn hfields := by
    refine ⟨hn.document, ?_⟩
    change ((fields.lookup key).getD .null).namedInWords = true
    cases hu : fields.lookup key with
    | none => rfl
    | some u => exact (hn.field hfields (Json.mem_of_lookup hu)).2
  listed hn hfields f hf := ⟨hn.document, (hn.field hfields hf).2⟩
  item hn hitems hu := by
    have hvalue := hn.value
    rw [hitems, Json.namedInWords, Json.itemsNamed_iff] at hvalue
    exact ⟨hn.document, hvalue _ (List.mem_of_getElem? hu)⟩
  char hn _ _ := ⟨hn.document, rfl⟩
  name hn _ _ := ⟨hn.document, rfl⟩

theorem givesWords_top (hroot : D.root.namedInWords = true) {spec : Option String} {m : Mapper}
    (hm : Mapper.ofDocument D spec = .ok m) : GivesWords D m.resolver.document.top := by
  obtain ⟨-, hresolver, -⟩ := Mapper.ofDocument_eq_ok hm
  rw [hresolver]
  exact ⟨rfl, hroot⟩

variable (hplain : D.linked = false)

include hplain

/-- What stands under a key of a node is the value of a field. -/
theorem GivesWords.named (hn : GivesWords D n) {key : String} (h : n.get key = .ok b)
    (hthere : b.value ≠ .null) : Json.fieldNamed key b.value = true := by
  obtain ⟨fields, hfields, rfl⟩ := Node.get_of_plain (hn.document ▸ hplain) h
  change (fields.lookup key).getD .null ≠ .null at hthere
  change Json.fieldNamed key ((fields.lookup key).getD .null) = true
  cases hu : fields.lookup key with
  | none => exact absurd (by rw [hu]; rfl) hthere
  | some u => exact (hn.field hfields (Json.mem_of_lookup hu)).1

theorem GivesWords.keys (hn : GivesWords D n) {key : String} (hkey : key ∈ ["properties", "schemas"])
    (h : n.get key = .ok b) {fields : List (String × Node)} (hfields : b.fields = .ok fields) :
    ∀ f ∈ fields, IsWord f.1 := by
  obtain ⟨parts, -, hb⟩ := Node.get_of_plain (hn.document ▸ hplain) h
  have hbplain : b.document.linked = false := by
    rw [hb]
    exact hn.document ▸ hplain
  obtain ⟨found, hfound, rfl⟩ := Node.fields_of_plain hbplain hfields
  have hnamed := hn.named hplain h (by simp [hfound])
  have hnames : ∀ f ∈ found, IsWord f.1 := by
    rw [hfound] at hnamed
    simp only [List.mem_cons, List.not_mem_nil, or_false] at hkey
    rcases hkey with rfl | rfl
    · simpa [Json.fieldNamed] using hnamed
    · simpa [Json.fieldNamed] using hnamed
  intro f hf
  obtain ⟨g, hg, rfl⟩ := List.mem_map.mp hf
  exact hnames g hg

theorem GivesWords.pointer (hn : GivesWords D n) {pointer : String}
    (h : n.pointer? = .ok (some pointer)) : IsWord (Pointer.name pointer) := by
  obtain ⟨reference, hget, hvalue⟩ := Mapper.reference_of_pointer? h
  obtain ⟨fields, -, hpart⟩ := Node.get_of_plain (hn.document ▸ hplain) hget
  have hsettle : reference.settle = .ok reference := by
    rw [hpart]
    exact Node.settle_of_plain (hn.document ▸ hplain)
  obtain ⟨here, hhere, hstr⟩ := Node.opened_eq_ok.mp hvalue
  obtain rfl := Except.ok.inj (hsettle.symm.trans hhere)
  have hnamed := hn.named hplain hget (by simp [hstr])
  rw [hstr] at hnamed
  simpa [Json.fieldNamed] using hnamed

theorem GivesWords.components (hroot : D.root.namedInWords = true) {components : Node}
    (h : Schema.components D.top = .ok components) {fields : List (String × Node)}
    (hfields : components.fields = .ok fields) : ∀ f ∈ fields, IsWord f.1 := by
  obtain ⟨parts, schemas, hparts, hschemas, hlast⟩ := Schema.components_eq_ok h
  rcases hlast with ⟨htruthy, rfl⟩ | ⟨-, rfl⟩
  · rcases hschemas with ⟨-, hget⟩ | ⟨-, rfl⟩
    · have hin : GivesWords D parts := (closed_givesWords hroot).get ⟨rfl, hroot⟩ hparts
      exact hin.keys hplain (by simp) hget hfields
    · rw [Node.truthy, Node.opened, Node.settle_of_noLink rfl] at htruthy
      cases htruthy
  · rw [Node.fields, Node.settle_of_noLink rfl] at hfields
    obtain rfl := Except.ok.inj hfields
    exact fun f hf => absurd hf List.not_mem_nil

/-- In a plain document whose names are words no schema brings other names into types. -/
theorem ModelCompiler.namedInWords_of_plain (hroot : D.root.namedInWords = true)
    {spec : Option String} {m : Mapper} (hm : Mapper.ofDocument D spec = .ok m) {schema : Node}
    (hschema : GivesWords D schema) : NamedInWords m schema := by
  have hclosed := closed_givesWords hroot
  obtain ⟨hcomponents, -, -⟩ := Mapper.ofDocument_eq_ok hm
  have htop := givesWords_top hroot hm
  refine ⟨?_, ?_, ?_⟩
  · intro fields hfields
    exact GivesWords.components hplain hroot hcomponents hfields
  · intro gathered hgathered q hq
    obtain ⟨b, hb, listed, fields, hlisted, hfields, hmem⟩ := ofSchema_members hgathered q hq
    have hin : GivesWords D b := hclosed.memberOf htop hschema hb
    obtain ⟨truthy, -, hfields⟩ := bind_eq_ok.mp hfields
    split at hfields
    · exact hin.keys hplain (by simp) hlisted hfields q hmem
    · cases pure_eq_ok.mp hfields
      exact absurd hmem List.not_mem_nil
  · intro n pointer hn hpointer
    exact (hclosed.inside htop hschema hn).pointer hplain hpointer

end Plain

namespace ModelCompiler

open Mapper

/-! ## Models -/

section Models

variable {document : Document} {spec : Option String} {m : Mapper} {schema : Node}
  {name source : String} {blocked : List String}

theorem tells_properties {Q : Node → Prop} {required : String → Bool}
    {listed : List (String × Node)} {properties : List Property} {s t : MapperState}
    (hw : ∀ q ∈ listed, Q q.2 ∧
      Worded m { model := name, base := ModelName.base name, property := q.1, blocked } Q)
    (h : Yields (listed.mapM fun q => compileProperty m
      { model := name, base := ModelName.base name, property := q.1, blocked }
      (required q.1) q.2) s properties t) :
    Tells name blocked s (fun d => ∃ p ∈ properties, NamesModel m p.typeExpression d) t := by
  -- all properties are compiled on one state, so what they note adds up
  induction listed generalizing s properties with
  | nil =>
      obtain ⟨rfl, rfl⟩ := yields_pure.mp h
      exact Tells.none (Registry.Extends.refl _) (by simp)
  | cons q listed ih =>
      rw [List.mapM_cons] at h
      obtain ⟨p, u, hp, h⟩ := yields_bind.mp h
      obtain ⟨rest, v, hrest, h⟩ := yields_bind.mp h
      obtain ⟨rfl, rfl⟩ := yields_pure.mp h
      obtain ⟨mapped, description, sample, hmapped, rfl⟩ := yields_compileProperty hp
      obtain ⟨hq, hwords⟩ := hw q List.mem_cons_self
      have hfirst := mapProperty_rules (tells_rules hwords) hmapped hq
      have hlater := ih (fun q hq => hw q (List.mem_cons_of_mem _ hq)) hrest
      exact (hfirst.trans hlater).congr fun d => by simp [propertyOf, Property.settled]

/-- A model uses just the models that the types of its properties name. All of them are registered,
and neither the model itself nor a blocked one is among them. -/
theorem compileOn_dependsOn (hm : Mapper.ofDocument document spec = .ok m)
    (hwords : NamedInWords m schema) (hname : IsWord name) {r r' : Registry} {model : Model}
    (h : compileOn m r name source blocked schema = .ok (model, r')) :
    (∀ d, d ∈ model.dependsOn ↔ ∃ p ∈ model.properties, NamesModel m p.typeExpression d) ∧
      model.name ∉ model.dependsOn ∧
      ∀ d ∈ model.dependsOn, d ∉ blocked ∧ d ∈ r'.names := by
  obtain ⟨t, hrun, rfl⟩ := compileOn_eq_ok.mp h
  obtain ⟨gathered, properties, description, hgathered, hproperties, -, rfl⟩ :=
    yields_compileModel.mp hrun
  have hclass := ModelNames.classOf_of_ofSchemas (Mapper.ofDocument_eq_ok hm).2.2
  have htells := tells_properties (Q := Inside m schema) (fun q hq =>
    ⟨⟨gathered, q, hgathered, hq, .refl⟩, hclass, hwords.components, hwords.pointers, hname.base,
      hwords.properties gathered hgathered q hq, fun a b => Inside.part⟩) hproperties
  have hnoted : ∀ d, d ∈ t.dependencies ↔
      ∃ p ∈ properties, NamesModel m p.typeExpression d := by
    intro d
    rw [htells.noted]
    simp
  refine ⟨hnoted, fun hself => ?_, fun d hd => ?_⟩
  · exact (htells.usable name ((hnoted name).mp hself)).1 rfl
  · exact (htells.usable d ((hnoted d).mp hd)).2

end Models

/-- A document of a model that refers to itself, to others in several ways and to texts, and has an
object in place. -/
def household : Document where
  tag := 0
  root := .obj [("components", .obj [("schemas", .obj [
    ("Cat", .obj [("properties", .obj [
      ("mate", referenceTo "Cat"),
      ("keepers", .obj [("type", .str "array"), ("items", referenceTo "Keeper")]),
      ("mood", referenceTo "Mood"),
      ("toys", .obj [("type", .str "array"), ("items", .obj [("properties", .obj [
        ("size", .obj [("type", .str "integer")])])])]),
      ("feeds", .obj [("type", .str "object"), ("additionalProperties", .obj [
        ("oneOf", .arr [referenceTo "Keeper", .obj [("type", .str "string")]])])]),
      ("house", referenceTo "House")])]),
    ("House", .obj [("properties", .obj [("rooms", .obj [("type", .str "integer")])])]),
    ("Keeper", .obj [("properties", .obj [("name", .obj [("type", .str "string")])])]),
    ("Mood", .obj [("type", .str "string"), ("enum", .arr [.str "calm", .str "wild"])])])])]
  linked := false

/-- In `household` a cat that must not have a house uses its keepers and its toys. -/
theorem household_dependsOn :
    ∃ m schema model r', Mapper.ofDocument household none = .ok m ∧
      m.components.get "Cat" = .ok schema ∧ NamedInWords m schema ∧ IsWord "CatDto" ∧
      compileOn m {} "CatDto" "component" ["HouseDto"] schema = .ok (model, r') ∧
      typesOf model = [("mate", "any"), ("keepers", "KeeperDto[]"), ("mood", "MoodEnum"),
        ("toys", "CatToysItemDto[]"), ("feeds", "Record<string, KeeperDto | string>"),
        ("house", "any")] ∧
      model.dependsOn = ["KeeperDto", "CatToysItemDto"] ∧
      (∀ d, d ∈ model.dependsOn ↔ ∃ p ∈ model.properties, NamesModel m p.typeExpression d) ∧
      model.name ∉ model.dependsOn ∧
      ∀ d ∈ model.dependsOn, d ∉ ["HouseDto"] ∧ d ∈ r'.names := by
  have hroot : household.root.namedInWords = true := by decide
  have hrun : (do
      let m ← Mapper.ofDocument household none
      let schema ← m.components.get "Cat"
      let compiled ← compileOn m {} "CatDto" "component" ["HouseDto"] schema
      pure (decide (schema.document = household), schema.value.namedInWords,
        typesOf compiled.1, compiled.1.dependsOn)).toOption =
      some (true, true, [("mate", "any"), ("keepers", "KeeperDto[]"), ("mood", "MoodEnum"),
        ("toys", "CatToysItemDto[]"), ("feeds", "Record<string, KeeperDto | string>"),
        ("house", "any")], ["KeeperDto", "CatToysItemDto"]) := by
    decide +kernel
  obtain ⟨m, hm, h⟩ := bind_eq_ok.mp (eq_ok_of_toOption hrun)
  obtain ⟨schema, hschema, h⟩ := bind_eq_ok.mp h
  obtain ⟨⟨model, r'⟩, hcompile, h⟩ := bind_eq_ok.mp h
  obtain ⟨hdocument, hrest⟩ := Prod.mk.inj (pure_eq_ok.mp h)
  obtain ⟨hvalue, hrest⟩ := Prod.mk.inj hrest
  obtain ⟨htypes, hdepends⟩ := Prod.mk.inj hrest
  have hwords : NamedInWords m schema :=
    namedInWords_of_plain rfl hroot hm ⟨of_decide_eq_true hdocument, hvalue⟩
  have hname : IsWord "CatDto" := by decide
  exact ⟨m, schema, model, r', hm, hschema, hwords, hname, hcompile, htypes, hdepends,
    compileOn_dependsOn hm hwords hname hcompile⟩

end ModelCompiler

end ApiScaffold
