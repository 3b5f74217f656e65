import ApiScaffold.Proofs.OperationNames
import ApiScaffold.Proofs.Reclaiming
import Mathlib.Data.List.Sort

set_option autoImplicit false

/-! # The order of responses

Responses are put in the order of their statuses: numbers by what they are worth, then texts. So
when the statuses of an operation have different places in that order, it does not matter in which
order the document lists them (`compile_reordered`). Through links a message can have the responses
themselves for its contents; there the first of several JSON types counts, and the order does matter
(`contents_ordered`). -/

namespace ApiScaffold

open EndpointCompiler (StatusKey RawResponse)

variable {sure : Prop} {free : List Step → Prop}

/-! ## The order of statuses -/

namespace EndpointCompiler.StatusKey

variable {a b c : StatusKey}

/-- Numbers stand before texts. -/
def rank : StatusKey → Nat
  | .number _ => 0
  | .text _ => 1

/-- Whether statuses stand in order by what they are: a number can be compared with a number and a
text with a text, a number with a text cannot. -/
def valuesInOrder? : StatusKey → StatusKey → Option Bool
  | .number m, .number n => some (m ≤ n)
  | .text s, .text t => some (s ≤ t)
  | _, _ => none

/-- Statuses are compared by their rank, and only those of one rank by what they are. -/
def inOrder? (a b : StatusKey) : Option Bool :=
  if a.rank = b.rank then a.valuesInOrder? b else some (a.rank < b.rank)

/-- Whether a status stands before another never hangs on comparing a number with a text. -/
theorem inOrder?_eq (a b : StatusKey) : a.inOrder? b = some (a.notAfter b) := by
  cases a <;> cases b <;> rfl

theorem notAfter_trans (h : a.notAfter b = true) (h' : b.notAfter c = true) :
    a.notAfter c = true := by
  cases a <;> cases b <;> cases c <;> simp_all [notAfter]
  · exact Nat.le_trans h h'
  · exact String.le_trans h h'

theorem notAfter_total (a b : StatusKey) : (a.notAfter b || b.notAfter a) = true := by
  cases a <;> cases b <;> simp [notAfter, Nat.le_total, String.le_total]

theorem notAfter_antisymm (h : a.notAfter b = true) (h' : b.notAfter a = true) : a = b := by
  cases a <;> cases b <;> simp_all [notAfter]
  · exact Nat.le_antisymm h h'
  · exact String.le_antisymm h h'

end EndpointCompiler.StatusKey

namespace EndpointCompiler

open Node (Twin FieldTwin Plain closed_plain)

variable {c c' : EndpointCompiler} {r r' : Resolver} {raw raw' : List RawResponse}

/-- The order of responses by their statuses. -/
def inOrder (a b : RawResponse) : Bool := a.key.notAfter b.key

theorem inOrder_trans (a b d : RawResponse) (h : inOrder a b = true) (h' : inOrder b d = true) :
    inOrder a d = true :=
  StatusKey.notAfter_trans h h'

theorem inOrder_total (a b : RawResponse) : (inOrder a b || inOrder b a) = true :=
  StatusKey.notAfter_total a.key b.key

theorem pairwise_inOrder (raw : List RawResponse) :
    (raw.mergeSort inOrder).Pairwise fun a b => a.key.notAfter b.key = true :=
  List.pairwise_mergeSort inOrder_trans inOrder_total raw

theorem orderedInsert_append {α : Type} {r : α → α → Prop} [DecidableRel r] {x : α}
    {before after : List α} (hbefore : ∀ y ∈ before, ¬ r x y) (hafter : ∀ y ∈ after, r x y) :
    (before ++ after).orderedInsert r x = before ++ x :: after := by
  induction before with
  | nil =>
      cases after with
      | nil => rfl
      | cons y after => exact List.orderedInsert_cons_of_le r after (hafter y List.mem_cons_self)
  | cons y before ih =>
      rw [List.cons_append, List.orderedInsert_of_not_le r _ (hbefore y List.mem_cons_self),
        ih fun z hz => hbefore z (List.mem_cons_of_mem y hz), List.cons_append]

/-- Responses can be put in order one by one. -/
theorem mergeSort_inOrder (raw : List RawResponse) :
    (raw.mergeSort fun a b => a.key.notAfter b.key) =
      raw.insertionSort fun a b => inOrder a b = true := by
  change raw.mergeSort inOrder = _
  induction raw with
  | nil => rw [List.mergeSort_nil, List.insertionSort_nil]
  | cons x raw ih =>
      obtain ⟨before, after, hwhole, hrest, hbefore⟩ :=
        List.mergeSort_cons inOrder_trans inOrder_total x raw
      have hsorted := List.pairwise_mergeSort inOrder_trans inOrder_total (x :: raw)
      rw [hwhole, List.pairwise_append, List.pairwise_cons] at hsorted
      rw [List.insertionSort_cons, ← ih, hrest, hwhole, orderedInsert_append _ hsorted.2.1.1]
      exact fun y hy h => by simpa [h] using hbefore y hy

/-- Twins whose statuses have different places in the order correspond one by one when they are put
in order. -/
theorem forall₂_mergeSort (h : Regrouped (RawTwin free) raw raw')
    (hkeys : (raw.map (·.key)).Nodup) :
    List.Forall₂ (RawTwin free) (raw.mergeSort inOrder) (raw'.mergeSort inOrder) := by
  obtain ⟨mid, hmid, hperm⟩ := h
  have hsort := List.mergeSort_perm raw inOrder
  obtain ⟨sorted, hsorted, hmids⟩ := List.perm_comp_forall₂ hsort hmid
  have hsame : sorted.map (·.key) = (raw.mergeSort inOrder).map (·.key) := by
    rw [← List.forall₂_eq_eq_eq, List.forall₂_map_left_iff, List.forall₂_map_right_iff]
    exact hsorted.flip.imp fun _ _ htwin => htwin.key
  have hall : sorted.Perm (raw'.mergeSort inOrder) :=
    (hmids.trans hperm).trans (List.mergeSort_perm raw' inOrder).symm
  have hnodup : (sorted.map (·.key)).Nodup := hsame ▸ (hsort.map _).nodup_iff.mpr hkeys
  have hpairwise : sorted.Pairwise fun a b => a.key.notAfter b.key = true := by
    have hplaces : ((raw.mergeSort inOrder).map (·.key)).Pairwise fun a b => a.notAfter b = true :=
      List.pairwise_map.mpr (pairwise_inOrder raw)
    exact List.pairwise_map.mp (hsame ▸ hplaces)
  have heq : sorted = raw'.mergeSort inOrder := by
    refine hall.eq_of_pairwise (fun a b ha hb hab hba => ?_) hpairwise (pairwise_inOrder raw')
    exact List.inj_on_of_nodup_map hnodup ha (hall.mem_iff.mpr hb)
      (StatusKey.notAfter_antisymm hab hba)
  exact heq ▸ hsorted

/-! ## Responses before they are compiled -/

/-- Responses whose statuses have different places in the order do not hang on the order in which
they are listed. -/
theorem rawResponses_twin (hr : r.document.Reordered free r'.document)
    {entries entries' : List (String × Node)} (h : Regrouped (FieldTwin free) entries entries')
    (hplace : ∀ f ∈ entries, ∀ node content here, r.objectAt f.2 = .ok (some node) →
      node.get "content" = .ok content → content.settle = .ok here → ¬ free here.trail) :
    Follows sure (fun raw raw' => (raw.map (·.key)).Nodup → List.Forall₂ (RawTwin free) raw raw')
      (rawResponses r entries) (rawResponses r' entries') := by
  -- what is found of the entries, before it has its place in the order
  let Found : String × Node × Option Node → String × Node × Option Node → Prop := fun x x' =>
    x'.1 = x.1 ∧ Twin free x.2.1 x'.2.1 ∧ Option.Rel (Twin free) x.2.2 x'.2.2
  refine Follows.bind (R := Regrouped Found) (follows_filterMapM h.and_mem ?_)
    fun found found' hfound => ?_
  · rintro ⟨status, entry⟩ ⟨status', entry'⟩ ⟨hmem, rfl, hentry⟩
    refine (Resolver.objectAt_twin hr hentry).given.bind fun a? a'? ⟨hobject, _, ha⟩ => ?_
    cases ha with
    | none => exact follows_pure .none
    | some ha =>
        refine (ha.get "content").given.bind fun b b' ⟨hcontent, _, hb⟩ => ?_
        refine (jsonSchema_twin hb fun here => ?_).bind fun schema? schema?' hschema =>
          follows_pure (.some ⟨rfl, ha, hschema⟩)
        exact hplace _ hmem _ b here hobject hcontent
  · refine (follows_mapM_regrouped (S := RawTwin free) hfound ?_).bind fun keyed keyed' hkeyed =>
      follows_pure fun hkeys => ?_
    · rintro ⟨status, response, schema?⟩ ⟨status', response', schema?'⟩ ⟨rfl, hresponse, hschema⟩
      exact (follows_refl (statusKey status')).bind_eq fun key =>
        follows_pure ⟨rfl, rfl, hresponse, hschema⟩
    · have hperm := (List.mergeSort_perm keyed inOrder).map (·.key)
      exact forall₂_mergeSort hkeyed (hperm.nodup_iff.mp hkeys)

theorem follows_filterM {α β : Type} {R : α → β → Prop} {p : α → Except Fault Bool}
    {q : β → Except Fault Bool} {xs : List α} {ys : List β} (h : List.Forall₂ R xs ys)
    (hpq : ∀ a b, R a b → Follows sure Eq (p a) (q b)) :
    Follows sure (List.Forall₂ R) (xs.filterM p) (ys.filterM q) := by
  have hkept : ∀ kept kept', List.Forall₂ R kept kept' →
      Follows sure (List.Forall₂ R) (xs.filterAuxM p kept) (ys.filterAuxM q kept') := by
    induction h with
    | nil => exact fun kept kept' hkept => follows_pure hkept
    | cons hfirst _ ih =>
        intro kept kept' hkept
        refine (hpq _ _ hfirst).bind_eq fun holds => ih _ _ ?_
        cases holds with
        | true => exact .cons hfirst hkept
        | false => exact hkept
  exact (hkept [] [] .nil).bind fun kept kept' hall => follows_pure (List.rel_reverse hall)

/-! ## Operations -/

/-- The contents of the messages of an operation: of its body and of its responses. -/
inductive IsContent (c : EndpointCompiler) (source content : Node) : Prop where
  | body {request node : Node} (hrequest : source.get "requestBody" = .ok request)
      (hnode : c.mapper.resolver.objectAt request = .ok (some node))
      (hcontent : node.get "content" = .ok content)
  | response {responses node : Node} {entries : List (String × Node)} {f : String × Node}
      (hresponses : source.get "responses" = .ok responses)
      (hentries : responses.fieldsIfAny = .ok entries) (hf : f ∈ entries)
      (hnode : c.mapper.resolver.objectAt f.2 = .ok (some node))
      (hcontent : node.get "content" = .ok content)

/-- The schemas of the responses of an operation stand for finite values. -/
def FiniteAnswers (c : EndpointCompiler) (source : Node) : Prop :=
  ∀ raw, c.rawOf source = .ok raw → ∀ r ∈ raw, ∀ schema, r.schema = some schema → Readable schema

/-- An operation that does not hang on the order of fields at free places: the statuses of its
responses have different places in their order, and no message has its contents there. -/
structure Orderly (free : List Step → Prop) (c : EndpointCompiler) (source : Node) : Prop where
  keys : ∀ raw, c.rawOf source = .ok raw → (raw.map (·.key)).Nodup
  contents : ∀ content here, c.IsContent source content → content.settle = .ok here →
    ¬ free here.trail

variable {source source' item item' operation operation' node node' : Node}

theorem rawOf_eq (hnode : source.get "responses" = .ok node) :
    c.rawOf source = (do rawResponses c.mapper.resolver (← node.fieldsIfAny)) :=
  ok_bind hnode

theorem compileResponses_twin (hc : CompilerTwin free c c') (h : Orderly free c source)
    (hfinite : sure → c.FiniteAnswers source) (hnode : source.get "responses" = .ok node)
    (htwin : Twin free node node') {name name' : Json} (hname : Json.Restated free name name') :
    Accompanies sure free Eq (c.compileResponses name node) (c'.compileResponses name' node') := by
  have hraw : Follows sure (fun raw raw' => c.rawOf source = .ok raw ∧
      List.Forall₂ (RawTwin free) raw raw')
      (do rawResponses c.mapper.resolver (← node.fieldsIfAny))
      (do rawResponses c'.mapper.resolver (← node'.fieldsIfAny)) := by
    refine (Follows.bind htwin.fieldsIfAny.given fun entries entries' ⟨hentries, _, hall⟩ =>
      rawResponses_twin hc.mapper.document hall fun f hf m content here hm hcontent => ?_).given.imp
      fun raw raw' ⟨hgiven, _, hall⟩ => ?_
    · exact h.contents content here (.response hnode hentries hf hm hcontent)
    · have hsource := (rawOf_eq hnode).trans hgiven
      exact ⟨hsource, hall (h.keys raw hsource)⟩
  refine accompanies_lift_bind hraw fun raw raw' ⟨hsource, hall⟩ => ?_
  refine accompanies_lift_bind (follows_filterM hall fun x x' hx => isMadeUp_twin hx.schema)
    fun madeUp madeUp' hmadeUp => ?_
  rw [← hmadeUp.length_eq]
  have hmem := (List.forall₂_and_left (p := (· ∈ raw)) _ _).mpr ⟨fun _ hx => hx, hall⟩
  refine (accompanies_mapM (S := Eq) hmem fun x x' ⟨hx, hxx'⟩ =>
    compileResponse_twin hc hname _ hxx' fun hsure => hfinite hsure raw hsource x hx).imp ?_
  intro responses responses' hsame
  rwa [List.forall₂_eq_eq_eq] at hsame

/-- Endpoints that answer in the same way. -/
structure AnswersAlike (e e' : Endpoint) : Prop where
  responses : e'.responses = e.responses
  returnType : e'.returnType = e.returnType
  forcedStatus : e'.forcedStatus = e.forcedStatus

theorem tags_twin {tags tags' : List Node} (h : List.Forall₂ (Node.EntryTwin free) tags tags') :
    Record.Rereads (fun _ _ => True) (Record.list Record.text (.arr (tags.map (·.value))))
      (Record.list Record.text (.arr (tags'.map (·.value)))) := by
  refine Record.rereads_texts ?_
  rw [List.forall₂_map_left_iff, List.forall₂_map_right_iff]
  refine h.imp fun a a' ha s hs => ?_
  rcases ha with ha | ⟨-, htext⟩
  · exact ⟨s, (Json.Restated.eq_iff ⟨_, ha.value⟩ rfl).mpr hs⟩
  · exact htext

/-- An operation is compiled like its twin. -/
theorem compile_twin (hc : CompilerTwin free c c') {method : Method} {path : String}
    (hoperation : Twin free operation operation')
    (hsource : c.sourceOf method path operation = .ok (source, item)) (h : Orderly free c source)
    (hfinite : sure → c.FiniteAnswers source) :
    Accompanies sure free AnswersAlike (c.compile method path operation)
      (c'.compile method path operation') := by
  refine accompanies_lift_bind (hc.sourceOf method path hoperation).given ?_
  rintro ⟨found, shared⟩ ⟨source', item'⟩ ⟨hgiven, -, hs, hi⟩
  obtain ⟨rfl, rfl⟩ := Prod.mk.inj (Except.ok.inj (hsource.symm.trans hgiven))
  refine accompanies_lift_bind (hs.get "operationId") fun id id' hid => ?_
  refine accompanies_lift_bind (givenOr_twin hid rfl) ?_
  rintro ⟨name, shownName⟩ ⟨name', shownName'⟩ ⟨hname, hshown⟩
  refine accompanies_lift_bind (compileParameters_twin hc.mapper.document hi hs) fun _ _ _ => ?_
  refine accompanies_lift_bind (R := fun _ _ => True) ?_ fun _ _ _ => ?_
  · refine (hs.get "requestBody").given.bind fun request request' ⟨hrequest, _, htwin⟩ => ?_
    refine compileBody_twin hc.mapper htwin fun _ content here ⟨m, hm, hcontent⟩ => ?_
    exact h.contents content here (.body hrequest hm hcontent)
  refine accompanies_lift_bind (hs.get "responses").given fun node node' ⟨hnode, _, htwin⟩ => ?_
  refine (compileResponses_twin hc h hfinite hnode htwin hshown).bind ?_
  rintro responses _ rfl
  refine accompanies_lift_bind (hs.get "summary") fun summary summary' hsummary => ?_
  refine accompanies_lift_bind (hs.get "description") fun text text' htext => ?_
  refine accompanies_lift_bind (R := Eq) ?_ fun _ _ _ => ?_
  · exact (hs.get "deprecated").bind fun a a' ha => ha.truthy
  refine accompanies_lift_bind (R := List.Forall₂ (Node.EntryTwin free)) ?_
    fun tags tags' htags => ?_
  · exact (hs.get "tags").bind fun a a' ha => ha.entriesIfAny
  refine accompanies_lift_bind (follows_refl (forcedStatus responses)) ?_
  rintro forced _ rfl
  refine accompanies_lift (Record.Rereads.finish ?_ _)
  refine Record.Rereads.seq (R := fun _ _ => True) ?_ ((tags_twin htags).within _)
  refine Record.Rereads.seq (R := Eq) ?_
    (Record.rereads_of_eq (field_optional_restated ⟨_, htext.value⟩ _))
  refine Record.Rereads.seq (R := Eq) ?_
    (Record.rereads_of_eq (field_optional_restated ⟨_, hsummary.value⟩ _))
  refine (Record.rereads_of_eq (field_text_restated hname _)).map ?_
  rintro _ _ - _ _ - _ _ - _ _ -
  exact ⟨rfl, by rw [hc.includeErrors], rfl⟩

/-! ## The order of responses -/

/-- A status stands before another one: of two numbers the smaller one, a number before a text, of
two texts the one that comes first. -/
inductive StandsBefore (status status' : String) : Prop where
  | numbers {m n : Nat} (hstatus : statusKey status = .ok (.number m))
      (hstatus' : statusKey status' = .ok (.number n)) (h : m < n)
  | kinds {m : Nat} (hstatus : statusKey status = .ok (.number m))
      (hstatus' : statusKey status' = .ok (.text status'))
  | texts (hstatus : statusKey status = .ok (.text status))
      (hstatus' : statusKey status' = .ok (.text status')) (h : status < status')

theorem eq_of_statusKey {status text : String} (h : statusKey status = .ok (.text text)) :
    text = status := by
  unfold statusKey at h
  split at h
  · split at h <;> cases h
  · cases h
    rfl

theorem standsBefore_of_notAfter {status status' : String} {a b : StatusKey}
    (ha : statusKey status = .ok a) (hb : statusKey status' = .ok b) (h : a.notAfter b = true)
    (hne : a ≠ b) : StandsBefore status status' := by
  cases a with
  | number m =>
      cases b with
      | number n =>
          have hle : m ≤ n := by simpa [StatusKey.notAfter] using h
          exact .numbers ha hb (Nat.lt_of_le_of_ne hle fun heq => hne (heq ▸ rfl))
      | text s =>
          obtain rfl := eq_of_statusKey hb
          exact .kinds ha hb
  | text s =>
      obtain rfl := eq_of_statusKey ha
      cases b with
      | number n => cases h
      | text t =>
          obtain rfl := eq_of_statusKey hb
          have hle : s ≤ t := by simpa [StatusKey.notAfter] using h
          have hlt : s < t := String.not_le.mp fun hge => hne (String.le_antisymm hle hge ▸ rfl)
          exact .texts ha hb hlt

theorem statusKey_of_mem {entries : List (String × Node)} (h : rawResponses r entries = .ok raw) :
    ∀ x ∈ raw, statusKey x.status = .ok x.key := by
  intro x hx
  obtain ⟨found, -, h⟩ := bind_eq_ok.mp h
  obtain ⟨keyed, hkeyed, h⟩ := bind_eq_ok.mp h
  obtain rfl := pure_eq_ok.mp h
  obtain ⟨⟨status, response, schema?⟩, -, hx⟩ := mem_of_mapM hkeyed x (List.mem_mergeSort.mp hx)
  obtain ⟨key, hkey, hx⟩ := bind_eq_ok.mp hx
  obtain rfl := pure_eq_ok.mp hx
  exact hkey

theorem pairwise_of_rawResponses {entries : List (String × Node)}
    (h : rawResponses r entries = .ok raw) :
    raw.Pairwise fun a b => a.key.notAfter b.key = true := by
  obtain ⟨found, -, h⟩ := bind_eq_ok.mp h
  obtain ⟨keyed, -, h⟩ := bind_eq_ok.mp h
  obtain rfl := pure_eq_ok.mp h
  exact pairwise_inOrder keyed

variable {s t : EndpointState}

theorem status_of_compileResponse {operation : Json} {several : Bool} {x : RawResponse}
    {response : Response} (h : Yields (c.compileResponse operation several x) s response t) :
    response.status = x.status := by
  unfold compileResponse at h
  dsimp only at h
  split at h
  · exact (yields_responseRecord h).1
  · obtain ⟨inline, -, hrest⟩ := yields_lift_bind.mp h
    split at hrest
    · obtain ⟨base, -, hnamed⟩ := yields_lift_bind.mp hrest
      obtain ⟨name, u, -, hend⟩ := yields_bind.mp hnamed
      exact (yields_responseRecord hend).1
    · obtain ⟨type, -, hend⟩ := yields_lift_bind.mp hrest
      exact (yields_responseRecord hend).1

/-- The responses of an endpoint have the statuses that the operation says, in their order. -/
theorem FilledIn.statuses {method : Method} {path : String} {e : Endpoint}
    (h : FilledIn c s t method path source item e) :
    ∃ raw, c.rawOf source = .ok raw ∧ raw.Pairwise (fun a b => a.key.notAfter b.key = true) ∧
      List.Forall₂ (fun x response => statusKey response.status = .ok x.key) raw e.responses := by
  obtain ⟨id, name, shownName, -, -, -, node, hnode, hrun⟩ := h.named
  obtain ⟨raw, several, hraw, hall⟩ := yields_compileResponses hnode hrun
  obtain ⟨entries, -, hlisted⟩ := bind_eq_ok.mp ((rawOf_eq hnode).symm.trans hraw)
  obtain ⟨-, heach⟩ := yields_mapM (R := fun _ _ => True) (fun _ => trivial)
    (fun _ _ _ _ _ => trivial) (fun _ _ _ _ _ _ => trivial) hall
  have hmem := (List.forall₂_and_left (p := (· ∈ raw)) _ _).mpr ⟨fun _ hx => hx, heach⟩
  refine ⟨raw, hraw, pairwise_of_rawResponses hlisted, hmem.imp ?_⟩
  rintro x response ⟨hx, u, v, -, hrun, -⟩
  rw [status_of_compileResponse hrun]
  exact statusKey_of_mem hlisted x hx

/-- Statuses that are in order and have different places in it stand one before the other. -/
theorem pairwise_standsBefore {responses : List Response}
    (hsorted : raw.Pairwise fun a b => a.key.notAfter b.key = true)
    (hkeys : (raw.map (·.key)).Nodup)
    (h : List.Forall₂ (fun x response => statusKey response.status = .ok x.key) raw responses) :
    responses.Pairwise fun a b => StandsBefore a.status b.status := by
  induction h with
  | nil => exact .nil
  | @cons x response raw responses hfirst hrest ih =>
      obtain ⟨hbefore, hsorted⟩ := List.pairwise_cons.mp hsorted
      obtain ⟨hdiffers, hkeys⟩ := List.nodup_cons.mp hkeys
      refine .cons (fun later hlater => ?_) (ih hsorted hkeys)
      obtain ⟨y, hy, hkey⟩ := exists_left_of_forall₂ hrest later hlater
      exact standsBefore_of_notAfter hfirst hkey (hbefore y hy) fun heq =>
        hdiffers (List.mem_map.mpr ⟨y, hy, heq.symm⟩)

/-- What stands under a field is a step further down. -/
theorem trail_get {n m : Node} {key : String} (hplain : n.Plain) (h : n.get key = .ok m) :
    m.trail = .key key :: n.trail := by
  obtain ⟨here, hsettle, h⟩ := bind_eq_ok.mp h
  obtain rfl := Except.ok.inj ((Node.settle_of_plain hplain).symm.trans hsettle)
  split at h
  · obtain rfl := pure_eq_ok.mp h
    rfl
  · cases h

/-- Where an operation lists its responses. -/
def ResponsesAt (source : Node) (place : List Step) : Prop :=
  ∃ responses here, source.get "responses" = .ok responses ∧ responses.settle = .ok here ∧
    here.trail = place

/-- Without links no message has the responses for its contents. -/
theorem contents_of_plain (hr : c.mapper.resolver.document.linked = false) (hs : source.Plain) :
    ∀ content here, c.IsContent source content → content.settle = .ok here →
      ¬ ResponsesAt source here.trail := by
  rintro content here hcontent hhere ⟨responses, listed, hresponses, hlisted, hplace⟩
  have hplain : responses.Plain := closed_plain.get hs hresponses
  obtain rfl := Except.ok.inj ((Node.settle_of_plain hplain).symm.trans hlisted)
  rw [trail_get hs hresponses] at hplace
  have hother : ∀ {entry node : Node}, entry.Plain →
      c.mapper.resolver.objectAt entry = .ok (some node) → node.get "content" = .ok content →
      False := by
    intro entry node hentry hnode hget
    have hnode' : node.Plain := closed_plain.objectAt (r := c.mapper.resolver) hr hentry hnode
    have hsettle := Node.settle_of_plain (closed_plain.get hnode' hget)
    obtain rfl := Except.ok.inj (hsettle.symm.trans hhere)
    rw [trail_get hnode' hget] at hplace
    simp at hplace
  cases hcontent with
  | body hrequest hnode hget => exact hother (closed_plain.get hs hrequest) hnode hget
  | response hresponses' hentries hf hnode hget =>
      obtain rfl := Except.ok.inj (hresponses.symm.trans hresponses')
      exact hother (closed_plain.fieldsIfAny hplain hentries _ hf) hnode hget

/-- Without links the schemas of responses stand for finite values. -/
theorem finiteAnswers_of_plain (hr : c.mapper.resolver.document.linked = false)
    (hs : source.Plain) : c.FiniteAnswers source := by
  intro raw hraw x hx schema hschema
  obtain ⟨responses, hresponses, hraw⟩ := bind_eq_ok.mp hraw
  obtain ⟨entries, hentries, hraw⟩ := bind_eq_ok.mp hraw
  have hlisted := closed_plain.fieldsIfAny (closed_plain.get hs hresponses) hentries
  have hschemas := closed_plain.rawResponses (r := c.mapper.resolver) hr hlisted hraw
  exact Plain.readable (hschemas x hx schema hschema)

/-- In which order an operation lists its responses does not matter if their statuses have different
places in the order and no message has the responses for its contents: where they are listed in
another order the operation is compiled to the same responses and the same classes for them, if it
is compiled. And it is, if what has to be compared stands for finite values. The statuses stand in
order, for which a number is never compared with a text. -/
theorem compile_reordered {resolved written resolved' written' : Document}
    {includeErrors synthesize : Bool} {spec : Option String} {method : Method} {path : String}
    (hc : ofDocuments resolved written includeErrors synthesize spec = .ok c)
    (hsource : c.sourceOf method path operation = .ok (source, item))
    (hresolved : resolved.Reordered (ResponsesAt source) resolved')
    (hwritten : written.Reordered (ResponsesAt source) written')
    (hoperation : Twin (ResponsesAt source) operation operation')
    (hcontents : ∀ content here, c.IsContent source content → content.settle = .ok here →
      ¬ ResponsesAt source here.trail) :
    ∃ c', ofDocuments resolved' written' includeErrors synthesize spec = .ok c' ∧
      StateTwin (ResponsesAt source) c.start c'.start ∧
      (∀ a b : StatusKey, a.inOrder? b = some (a.notAfter b)) ∧
      ∀ s s' e t, StateTwin (ResponsesAt source) s s' →
        Yields (c.compile method path operation) s e t →
        (e.responses.map fun r => statusKey r.status).Nodup →
        (∀ e' t', Yields (c'.compile method path operation') s' e' t' →
          AnswersAlike e e' ∧ StateTwin (ResponsesAt source) t t') ∧
        (ReadableArena s → c.FiniteAnswers source →
          ∃ e' t', Yields (c'.compile method path operation') s' e' t') ∧
        e.responses.Pairwise fun a b => StandsBefore a.status b.status := by
  obtain ⟨c', hc', htwin, harena⟩ := ofDocuments_twin hresolved hwritten hc
  refine ⟨c', hc', ⟨harena, .nil⟩, StatusKey.inOrder?_eq, fun s s' e t hstate hrun hkeys => ?_⟩
  obtain ⟨found, shared, hfound, hfilled⟩ := yields_compile hrun
  obtain ⟨rfl, rfl⟩ := Prod.mk.inj (Except.ok.inj (hsource.symm.trans hfound))
  obtain ⟨raw, hraw, hsorted, hstatuses⟩ := hfilled.statuses
  have hnodup : (raw.map (·.key)).Nodup := by
    have hsame : e.responses.map (fun r => statusKey r.status) =
        (raw.map (·.key)).map Except.ok := by
      rw [List.map_map, ← List.forall₂_eq_eq_eq, List.forall₂_map_left_iff,
        List.forall₂_map_right_iff]
      exact hstatuses.flip
    exact List.Nodup.of_map _ (hsame ▸ hkeys)
  have horderly : Orderly (ResponsesAt source) c source := by
    refine ⟨fun raw' hraw' => ?_, hcontents⟩
    obtain rfl := Except.ok.inj (hraw.symm.trans hraw')
    exact hnodup
  have halike : Accompanies (ReadableArena s ∧ c.FiniteAnswers source) (ResponsesAt source)
      AnswersAlike (c.compile method path operation) (c'.compile method path operation') :=
    compile_twin htwin hoperation hsource horderly And.right
  obtain ⟨hgoes, hsame⟩ := halike s s' e t ⟨hstate, And.left⟩ hrun
  refine ⟨fun e' t' hrun' => ?_, fun harena hfinite => hgoes ⟨harena, hfinite⟩,
    pairwise_standsBefore hsorted hnodup hstatuses⟩
  exact (hsame e' t' hrun').imp_right fun hgo => hgo.toStateTwin

/-- A message with a schema for its JSON. -/
def inJson (schema : Json) : Json :=
  .obj [("content", .obj [("application/json", .obj [("schema", schema)])])]

/-- A path with one operation. -/
def readBy (name : String) (responses : Fields) : Json :=
  .obj [("get", .obj [("operationId", .str name), ("responses", .obj responses)])]

/-- Notes are listed; what is answered is listed as given. -/
def notes (responses : Fields) : Json := .obj [
  ("paths", .obj [("/notes", readBy "listNotes" responses)]),
  ("components", .obj [("schemas", .obj [])])]

/-- The answers of `notes`, two of which are objects in place. -/
def notesAnswers : Fields := [
  ("default", inJson (.obj [("properties", .obj [("problem", .obj [])])])),
  ("404", .obj [("description", .str "no notes")]),
  ("200", inJson (.obj [("properties", .obj [("note", .obj [])])]))]

/-- Where `notes` lists its answers. -/
def notesSteps : List Step := [.key "paths", .key "/notes", .key "get", .key "responses"]

/-- The operation of `notes` in the reading with the given tag. -/
def notesGet (tag : Nat) (responses : Fields) : Node :=
  let document : Document := ⟨tag, notes responses, tag = 1⟩
  let trail := [.key "get", .key "/notes", .key "paths"]
  ⟨document, trail, (document.valueAt? trail).getD .null⟩

/-- The statuses that `notes` answers, with their types. -/
def notesTypes : List (String × String) :=
  [("200", "ListNotes200ResponseDto"), ("404", "void"), ("default", "ListNotesdefaultResponseDto")]

theorem notes_compiled : ∃ c item e t, ofRoot (notes notesAnswers) = .ok c ∧
    c.sourceOf .get "/notes" (notesGet 1 notesAnswers) = .ok (notesGet 0 notesAnswers, item) ∧
    Yields (c.compile .get "/notes" (notesGet 1 notesAnswers)) c.start e t ∧
    e.responses.map (fun r : Response => (r.status, r.typeExpression)) = notesTypes := by
  have hrun : (do
      let c ← ofRoot (notes notesAnswers)
      let source ← c.sourceOf .get "/notes" (notesGet 1 notesAnswers)
      let e : Endpoint ← ((c.compile .get "/notes" (notesGet 1 notesAnswers)).run.run c.start).1
      pure (source.1, e.responses.map fun r : Response => (r.status, r.typeExpression))).toOption =
      some (notesGet 0 notesAnswers, notesTypes) := by
    simp only [compile, compileResponses, rawResponses, mergeSort_inOrder]
    decide +kernel
  obtain ⟨c, hc, h⟩ := bind_eq_ok.mp (eq_ok_of_toOption hrun)
  obtain ⟨⟨_, item⟩, hsource, h⟩ := bind_eq_ok.mp h
  obtain ⟨e, he, h⟩ := bind_eq_ok.mp h
  obtain ⟨rfl, hresponses⟩ := Prod.mk.inj (pure_eq_ok.mp h)
  exact ⟨c, item, e, _, hc, hsource, Prod.ext he rfl, hresponses⟩

/-- In which order `notes` lists its answers does not matter. -/
theorem notes_reordered : ∃ c c' item e e' t t',
    ofRoot (notes notesAnswers) = .ok c ∧ ofRoot (notes notesAnswers.reverse) = .ok c' ∧
    c.sourceOf .get "/notes" (notesGet 1 notesAnswers) = .ok (notesGet 0 notesAnswers, item) ∧
    Yields (c.compile .get "/notes" (notesGet 1 notesAnswers)) c.start e t ∧
    Yields (c'.compile .get "/notes" (notesGet 1 notesAnswers.reverse)) c'.start e' t' ∧
    e.responses.map (fun r : Response => (r.status, r.typeExpression)) = notesTypes ∧
    AnswersAlike e e' ∧ StateTwin (ResponsesAt (notesGet 0 notesAnswers)) t t' ∧
    e.responses.Pairwise fun a b => StandsBefore a.status b.status := by
  obtain ⟨c, item, e, t, hc, hsource, hyields, htypes⟩ := notes_compiled
  obtain ⟨named, hmade⟩ := ofDocuments_eq_ok hc
  have hr : c.mapper.resolver.document.linked = false := by
    rw [(Mapper.ofDocument_eq_ok hmade.mapper).2.1]
  have hplace : ResponsesAt (notesGet 0 notesAnswers) notesSteps.reverse := ⟨_, _, rfl, rfl, rfl⟩
  have hroot : Json.Reordered (ResponsesAt (notesGet 0 notesAnswers)) [] (notes notesAnswers)
      (notes notesAnswers.reverse) :=
    Json.reordered_reorder notesSteps hplace (by decide) rfl
      (List.reverse_perm notesAnswers)
  have hdocument : ∀ tag linked,
      Document.Reordered (ResponsesAt (notesGet 0 notesAnswers)) ⟨tag, notes notesAnswers, linked⟩
        ⟨tag, notes notesAnswers.reverse, linked⟩ := fun _ _ => ⟨rfl, rfl, hroot⟩
  have hoperation : Twin (ResponsesAt (notesGet 0 notesAnswers)) (notesGet 1 notesAnswers)
      (notesGet 1 notesAnswers.reverse) :=
    ⟨hdocument _ _, rfl, Json.reordered_reorder [.key "responses"] hplace
      (by decide) rfl (List.reverse_perm notesAnswers)⟩
  obtain ⟨c', hc', hstart, -, hall⟩ := compile_reordered hc hsource (hdocument 1 true)
    (hdocument 0 false) hoperation (contents_of_plain hr rfl)
  have hkeys : (e.responses.map fun r => statusKey r.status).Nodup := by
    have hmap : e.responses.map (fun r => statusKey r.status) =
        notesTypes.map fun p => statusKey p.1 := by rw [← htypes, List.map_map]; rfl
    rw [hmap]
    with_unfolding_all decide
  obtain ⟨hsame, hgoes, hbefore⟩ := hall _ _ e _ hstart hyields hkeys
  obtain ⟨e', t', hyields'⟩ := hgoes (hmade.readable_start rfl) (finiteAnswers_of_plain hr rfl)
  obtain ⟨halike, htwin⟩ := hsame e' t' hyields'
  exact ⟨c, c', item, e, e', t, t', hc, hc', hsource, hyields, hyields', htypes, halike, htwin,
    hbefore⟩

/-- A document whose paths stand elsewhere, so that operations are read with their links. -/
def pathsElsewhere (paths : Fields) : Json := .obj [
  ("paths", .obj [("$ref", .str "#/x-paths")]),
  ("x-paths", .obj paths),
  ("components", .obj [("schemas", .obj [])])]

/-- Notes are listed; one answer has the answers for its contents. -/
def echo (responses : Fields) : Json := pathsElsewhere [("/notes", readBy "listNotes" responses)]

/-- The answers of `echo`. -/
def echoAnswers : Fields := [
  ("2b-json", .obj [("schema", .obj [("type", .str "number")])]),
  ("2a-json", .obj [("content", .obj [("$ref", .str "#/x-paths/~1notes/get/responses")]),
    ("schema", .obj [("type", .str "string")])])]

/-- A tune has the answers to songs for its schema, and so has what a song leads to. -/
def canon (responses : Fields) : Json := pathsElsewhere [
  ("/tunes", readBy "play" [
    ("200", inJson (.obj [("$ref", .str "#/x-paths/~1songs/get/responses")]))]),
  ("/songs", readBy "play" responses)]

/-- The answers to songs in `canon`. -/
def canonAnswers : Fields := [
  ("properties", .obj []),
  ("200", inJson (.obj [
    ("200", inJson (.obj [("$ref", .str "#/x-paths/~1songs/get/responses")])),
    ("properties", .obj [("description", .obj [])])]))]

/-- What the operations of a document answer, and the types of their methods. -/
def answersOf (root : Json) : Except Fault (List (List (String × String) × String)) := do
  let c ← ofRoot root
  let endpoints ← (c.compileAll.run.run c.start).1
  return endpoints.map fun (e : Endpoint) =>
    (e.responses.map fun r => (r.status, r.typeExpression), e.returnType)

/-- The order of the answers matters in `echo`, where one of them has them for its contents, and in
`canon`, where comparing two schemas comes to an end in one order only. -/
theorem contents_ordered :
    (Json.Reordered (· = [.key "responses", .key "get", .key "/notes", .key "x-paths"]) []
      (echo echoAnswers) (echo echoAnswers.reverse) ∧
    (echoAnswers.map fun f => statusKey f.1).Nodup ∧
    answersOf (echo echoAnswers) =
      .ok [([("2a-json", "number"), ("2b-json", "void")], "number")] ∧
    answersOf (echo echoAnswers.reverse) =
      .ok [([("2a-json", "string"), ("2b-json", "void")], "string")]) ∧
    Json.Reordered (· = [.key "responses", .key "get", .key "/songs", .key "x-paths"]) []
      (canon canonAnswers) (canon canonAnswers.reverse) ∧
    (canonAnswers.map fun f => statusKey f.1).Nodup ∧
    answersOf (canon canonAnswers) =
      .ok [([("200", "PlayResponseDto")], "PlayResponseDto"),
        ([("200", "PlayResponse2Dto"), ("properties", "void")], "PlayResponse2Dto")] ∧
    answersOf (canon canonAnswers.reverse) = .error .endless := by
  have hecho : Json.Reordered
      (· = [.key "responses", .key "get", .key "/notes", .key "x-paths"]) [] (echo echoAnswers)
      (echo echoAnswers.reverse) :=
    Json.reordered_reorder [.key "x-paths", .key "/notes", .key "get", .key "responses"] rfl
      (by decide) rfl (List.reverse_perm echoAnswers)
  have hcanon : Json.Reordered
      (· = [.key "responses", .key "get", .key "/songs", .key "x-paths"]) [] (canon canonAnswers)
      (canon canonAnswers.reverse) :=
    Json.reordered_reorder [.key "x-paths", .key "/songs", .key "get", .key "responses"] rfl
      (by decide) rfl (List.reverse_perm canonAnswers)
  have hends : ∀ {answers : Except Fault (List (List (String × String) × String))},
      ¬ Concludes answers → answers = .error .endless := not_not.mp
  refine ⟨⟨hecho, by decide, eq_ok_of_toOption ?_, eq_ok_of_toOption ?_⟩, hcanon,
    by decide, eq_ok_of_toOption ?_, hends ?_⟩
  -- the kernel cannot evaluate sorting by merging
  all_goals
    simp only [answersOf, compileAll, compileItem, compile, compileResponses, rawResponses,
      mergeSort_inOrder]
    decide +kernel

end EndpointCompiler

end ApiScaffold
