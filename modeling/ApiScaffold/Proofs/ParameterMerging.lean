import ApiScaffold.Proofs.Arguments
import ApiScaffold.Proofs.Equality

set_option autoImplicit false

/-! # Parameters of a path and of an operation

A path and an operation both list parameters. Listed one after the other, the entries that lead to a
parameter with a name each have a key, the name and the place. An endpoint has one parameter for
each key, at the place of the first entry of that key and filled in from the last one
(`compile_parameters`), so what an operation says goes before what its path says. -/

namespace ApiScaffold

namespace EndpointCompiler

variable {c : EndpointCompiler} {s t : EndpointState} {a b k : Json × Json}

/-! ## Keys -/

/-- Whether two keys are the same: the names are, and the places. -/
def sameKey (a b : Json × Json) : Bool := a.1.same b.1 && a.2.same b.2

/-- Names and places that are no lists and no objects. -/
def ScalarKey (k : Json × Json) : Prop := k.1.isHashable = true ∧ k.2.isHashable = true

theorem same_eq_sameScalar {v w : Json} (h : v.isHashable = true) : v.same w = v.sameScalar w := by
  cases v with
  | arr items => cases h
  | obj fields => cases h
  | _ => simp only [Json.same]

theorem sameKey_iff (ha : ScalarKey a) :
    sameKey a b = true ↔ a.1.sameScalar b.1 = true ∧ a.2.sameScalar b.2 = true := by
  rw [sameKey, Bool.and_eq_true, same_eq_sameScalar ha.1, same_eq_sameScalar ha.2]

theorem sameKey_symm (ha : ScalarKey a) (hb : ScalarKey b) (h : sameKey a b = true) :
    sameKey b a = true := by
  rw [sameKey_iff ha] at h
  exact (sameKey_iff hb).mpr ⟨Json.sameScalar_symm h.1, Json.sameScalar_symm h.2⟩

theorem sameKey_trans (ha : ScalarKey a) (hb : ScalarKey b) (h : sameKey a b = true)
    (h' : sameKey b k = true) : sameKey a k = true := by
  rw [sameKey_iff ha] at h ⊢
  rw [sameKey_iff hb] at h'
  exact ⟨Json.sameScalar_trans h.1 h'.1, Json.sameScalar_trans h.2 h'.2⟩

/-! ## Entries -/

/-- The parameter that an entry of a list leads to, under its name and its place; none when it leads
nowhere, to what is no object, or to a parameter without a name. -/
def keyed (c : EndpointCompiler) (entry : Node) :
    Except Fault (Option ((Json × Json) × Node)) := do
  match ← c.mapper.resolver.objectAt entry with
  | none => return none
  | some parameter =>
    let name ← (← parameter.get "name").opened
    if !name.truthy then return none
    let place ← (← parameter.get "in").opened
    if !name.isHashable || !place.isHashable then throw .unfit
    return some ((name, place), parameter)

/-- The parameters that a path or an operation lists, those that do not count left out. -/
def keyedParameters (c : EndpointCompiler) (owner : Node) :
    Except Fault (List ((Json × Json) × Node)) := do
  (← (← owner.get "parameters").entriesIfAny).filterMapM c.keyed

/-- Put a parameter under its key. -/
def putKeyed (merged : List ((Json × Json) × Node)) (entry : (Json × Json) × Node) :
    List ((Json × Json) × Node) :=
  putParameter entry.1 entry.2 merged

/-- An entry leads to a parameter that has a name and a place, of which the name counts. -/
structure KeyedAs (c : EndpointCompiler) (n : Node) (entry : (Json × Json) × Node) : Prop where
  parameter : c.mapper.resolver.objectAt n = .ok (some entry.2)
  name : ∃ called, entry.2.get "name" = .ok called ∧ called.opened = .ok entry.1.1
  place : ∃ placed, entry.2.get "in" = .ok placed ∧ placed.opened = .ok entry.1.2
  scalar : ScalarKey entry.1

theorem keyedAs_of_keyed {n : Node} {entry : (Json × Json) × Node}
    (h : c.keyed n = .ok (some entry)) : c.KeyedAs n entry := by
  obtain ⟨parameter?, hparameter, h⟩ := bind_eq_ok.mp h
  cases parameter? with
  | none => cases pure_eq_ok.mp h
  | some parameter =>
      obtain ⟨called, hcalled, h⟩ := bind_eq_ok.mp h
      obtain ⟨name, hname, h⟩ := bind_eq_ok.mp h
      split at h
      · cases pure_eq_ok.mp h
      · obtain ⟨placed, hplaced, h⟩ := bind_eq_ok.mp h
        obtain ⟨place, hplace, h⟩ := bind_eq_ok.mp h
        split at h
        · exact absurd h throw_ne_ok
        · next hscalar =>
            cases pure_eq_ok.mp h
            exact ⟨hparameter, ⟨called, hcalled, hname⟩, ⟨placed, hplaced, hplace⟩,
              by simpa [ScalarKey] using hscalar⟩

/-- Merging an entry is putting what it leads to under its key. -/
theorem mergeParameter_eq_ok {merged merged' : List ((Json × Json) × Node)} {n : Node}
    (h : c.mergeParameter merged n = .ok merged') :
    ∃ one?, c.keyed n = .ok one? ∧ merged' = (one?.map (putKeyed merged)).getD merged := by
  obtain ⟨parameter?, hparameter, h⟩ := bind_eq_ok.mp h
  unfold keyed
  cases parameter? with
  | none => exact ⟨none, bind_eq_ok.mpr ⟨none, hparameter, rfl⟩, (pure_eq_ok.mp h).symm⟩
  | some parameter =>
      obtain ⟨called, hcalled, h⟩ := bind_eq_ok.mp h
      obtain ⟨name, hname, h⟩ := bind_eq_ok.mp h
      split at h
      · next hempty =>
          refine ⟨none, ?_, (pure_eq_ok.mp h).symm⟩
          refine bind_eq_ok.mpr ⟨_, hparameter, bind_eq_ok.mpr ⟨called, hcalled, ?_⟩⟩
          exact bind_eq_ok.mpr ⟨name, hname, if_pos hempty⟩
      · next hnamed =>
          obtain ⟨placed, hplaced, h⟩ := bind_eq_ok.mp h
          obtain ⟨place, hplace, h⟩ := bind_eq_ok.mp h
          split at h
          · exact absurd h throw_ne_ok
          · next hscalar =>
              refine ⟨some ((name, place), parameter), ?_, (pure_eq_ok.mp h).symm⟩
              refine bind_eq_ok.mpr ⟨_, hparameter, bind_eq_ok.mpr ⟨called, hcalled, ?_⟩⟩
              refine bind_eq_ok.mpr ⟨name, hname, (if_neg hnamed).trans ?_⟩
              refine bind_eq_ok.mpr ⟨placed, hplaced, bind_eq_ok.mpr ⟨place, hplace, ?_⟩⟩
              exact if_neg hscalar

/-- Merging entry by entry is putting what each of them leads to under its key. -/
theorem merged_eq_ok {entries : List Node} {before after : List ((Json × Json) × Node)}
    (h : entries.foldlM c.mergeParameter before = .ok after) :
    ∃ found, entries.filterMapM c.keyed = .ok found ∧ after = found.foldl putKeyed before := by
  induction entries generalizing before with
  | nil => exact ⟨[], rfl, (pure_eq_ok.mp h).symm⟩
  | cons entry entries ih =>
      rw [List.foldlM_cons] at h
      obtain ⟨merged, hmerged, h⟩ := bind_eq_ok.mp h
      obtain ⟨found, hfound, rfl⟩ := ih h
      obtain ⟨one?, hentry, rfl⟩ := mergeParameter_eq_ok hmerged
      rw [List.filterMapM_cons]
      cases one? with
      | none => exact ⟨found, bind_eq_ok.mpr ⟨none, hentry, hfound⟩, rfl⟩
      | some first =>
          exact ⟨first :: found, bind_eq_ok.mpr ⟨some first, hentry,
            bind_eq_ok.mpr ⟨found, hfound, rfl⟩⟩, rfl⟩

/-! ## First and last -/

/-- The keys of entries, each where it comes first. -/
def firstKeys : List ((Json × Json) × Node) → List (Json × Json)
  | [] => []
  | entry :: rest => entry.1 :: (firstKeys rest).filter (!sameKey entry.1 ·)

/-- The parameter of the last entry of a key. -/
def lastOf (key : Json × Json) (entries : List ((Json × Json) × Node)) : Option Node :=
  (entries.reverse.find? fun entry => sameKey key entry.1).map (·.2)

variable {entries front back : List ((Json × Json) × Node)} {entry : (Json × Json) × Node}

theorem firstKeys_subset : ∀ key ∈ firstKeys entries, ∃ entry ∈ entries, entry.1 = key := by
  induction entries with
  | nil => exact fun key hkey => absurd hkey List.not_mem_nil
  | cons first rest ih =>
      intro key hkey
      rw [firstKeys] at hkey
      rcases List.mem_cons.mp hkey with rfl | hkey
      · exact ⟨first, List.mem_cons_self, rfl⟩
      · obtain ⟨entry, hentry, rfl⟩ := ih key (List.mem_of_mem_filter hkey)
        exact ⟨entry, List.mem_cons_of_mem _ hentry, rfl⟩

/-- Every entry has a key that comes first somewhere. -/
theorem exists_firstKey (hkeys : ∀ e ∈ entries, ScalarKey e.1) (hentry : entry ∈ entries) :
    ∃ key ∈ firstKeys entries, key = entry.1 ∨ sameKey key entry.1 = true := by
  induction entries with
  | nil => exact absurd hentry List.not_mem_nil
  | cons first rest ih =>
      obtain ⟨hfirst, hrest⟩ := List.forall_mem_cons.mp hkeys
      rcases List.mem_cons.mp hentry with rfl | hentry
      · exact ⟨entry.1, List.mem_cons_self, Or.inl rfl⟩
      · obtain ⟨key, hkey, hkeeps⟩ := ih hrest hentry
        cases hsame : sameKey first.1 key with
        | false =>
            have hkept : key ∈ (firstKeys rest).filter (!sameKey first.1 ·) :=
              List.mem_filter.mpr ⟨hkey, by simp [hsame]⟩
            exact ⟨key, List.mem_cons_of_mem _ hkept, hkeeps⟩
        | true =>
            refine ⟨first.1, List.mem_cons_self, Or.inr ?_⟩
            rcases hkeeps with rfl | hkeeps
            · exact hsame
            · obtain ⟨e, he, rfl⟩ := firstKeys_subset key hkey
              exact sameKey_trans hfirst (hrest e he) hsame hkeeps

/-- No key comes first twice. -/
theorem pairwise_firstKeys (entries : List ((Json × Json) × Node)) :
    (firstKeys entries).Pairwise fun a b => sameKey a b = false := by
  induction entries with
  | nil => exact .nil
  | cons first rest ih =>
      refine .cons (fun key hkey => ?_) (ih.filter _)
      simpa using (List.mem_filter.mp hkey).2

/-- With one more entry there is one more key, unless it was there. -/
theorem firstKeys_concat (hkeys : ∀ e ∈ entries, ScalarKey e.1) :
    firstKeys (entries ++ [entry]) =
      if (firstKeys entries).any (sameKey · entry.1) then firstKeys entries
      else firstKeys entries ++ [entry.1] := by
  induction entries with
  | nil => rfl
  | cons first rest ih =>
      obtain ⟨hfirst, hrest⟩ := List.forall_mem_cons.mp hkeys
      rw [List.cons_append, firstKeys, ih hrest, firstKeys, List.any_cons]
      by_cases hany : (firstKeys rest).any (sameKey · entry.1) = true
      · rw [if_pos hany, if_pos]
        obtain ⟨key, hkey, hsame⟩ := List.any_eq_true.mp hany
        obtain ⟨e, he, rfl⟩ := firstKeys_subset key hkey
        -- the key that it repeats is left out here only as a repetition of the first one
        by_cases hkept : sameKey first.1 e.1 = true
        · simp [sameKey_trans hfirst (hrest e he) hkept hsame]
        · refine Bool.or_eq_true_iff.mpr (Or.inr (List.any_eq_true.mpr ⟨e.1, ?_, hsame⟩))
          exact List.mem_filter.mpr ⟨hkey, by simpa using hkept⟩
      · rw [if_neg hany, List.filter_append]
        have hlater : ((firstKeys rest).filter (!sameKey first.1 ·)).any (sameKey · entry.1) =
            false := by
          rw [List.any_eq_false]
          intro key hkey hsame
          exact hany (List.any_eq_true.mpr ⟨key, List.mem_of_mem_filter hkey, hsame⟩)
        rw [hlater, Bool.or_false]
        by_cases hsame : sameKey first.1 entry.1 = true
        · simp [hsame]
        · simp [hsame]

theorem lastOf_append : lastOf k (front ++ back) = (lastOf k back).or (lastOf k front) := by
  rw [lastOf, List.reverse_append, List.find?_append, Option.map_or]
  rfl

theorem lastOf_concat :
    lastOf k (entries ++ [entry]) =
      if sameKey k entry.1 = true then some entry.2 else lastOf k entries := by
  rw [lastOf_append]
  unfold lastOf
  by_cases h : sameKey k entry.1 = true <;> simp [h]

theorem isSome_lastOf (h : ∃ entry ∈ entries, sameKey k entry.1 = true) :
    (lastOf k entries).isSome = true := by
  obtain ⟨entry, hentry, hsame⟩ := h
  rw [lastOf, Option.isSome_map, List.find?_isSome]
  exact ⟨entry, List.mem_reverse.mpr hentry, hsame⟩

/-! ## Putting parameters under their keys -/

section Putting

variable {merged : List ((Json × Json) × Node)} {keys : List (Json × Json)}

theorem putKeyed_cons (m : (Json × Json) × Node) :
    putKeyed (m :: merged) entry =
      if sameKey m.1 entry.1 = true then (m.1, entry.2) :: merged
      else m :: putKeyed merged entry := rfl

/-- Putting an entry changes what is under the one key that is the same, or adds its key behind the
others; under these is what was there. -/
theorem putKeyed_forall₂ {R R' : Json × Json → Node → Prop}
    (h : List.Forall₂ (fun key m => m.1 = key ∧ R key m.2) keys merged)
    (honce : keys.Pairwise fun a b => sameKey a entry.1 = true → sameKey b entry.1 = false)
    (hsame : ∀ key ∈ keys, sameKey key entry.1 = true → R' key entry.2)
    (hother : ∀ key ∈ keys, ∀ n, sameKey key entry.1 = false → R key n → R' key n)
    (hnew : R' entry.1 entry.2) :
    List.Forall₂ (fun key m => m.1 = key ∧ R' key m.2)
      (if keys.any (sameKey · entry.1) then keys else keys ++ [entry.1])
      (putKeyed merged entry) := by
  induction h with
  | nil => exact .cons ⟨rfl, hnew⟩ .nil
  | @cons key m keys merged hm hall ih =>
      obtain ⟨rfl, hR⟩ := hm
      obtain ⟨hfirst, hlater⟩ := List.pairwise_cons.mp honce
      obtain ⟨hsameFirst, hsame⟩ := List.forall_mem_cons.mp hsame
      obtain ⟨hotherFirst, hother⟩ := List.forall_mem_cons.mp hother
      rw [List.any_cons, putKeyed_cons]
      cases hhere : sameKey m.1 entry.1 with
      | true =>
          rw [if_pos (Bool.true_or _), if_pos rfl]
          refine .cons ⟨rfl, hsameFirst hhere⟩ ?_
          have heach := (List.forall₂_and_left (p := (· ∈ keys)) _ _).mpr ⟨fun _ => id, hall⟩
          refine heach.imp fun key m' hm' => ⟨hm'.2.1, ?_⟩
          exact hother key hm'.1 _ (hfirst key hm'.1 hhere) hm'.2.2
      | false =>
          have hrest := ih hlater hsame hother
          rw [Bool.false_or, if_neg Bool.false_ne_true]
          split
          · next hany =>
              rw [if_pos hany] at hrest
              exact .cons ⟨rfl, hotherFirst _ hhere hR⟩ hrest
          · next hany =>
              rw [if_neg hany] at hrest
              exact .cons ⟨rfl, hotherFirst _ hhere hR⟩ hrest

/-- What is under a key is the last entry of that key. A key with a number that is none is not even
the same as itself, so it has its own entry. -/
def Keeps (entries : List ((Json × Json) × Node)) (key : Json × Json) (n : Node) : Prop :=
  lastOf key entries = some n ∨ sameKey key key = false ∧ (key, n) ∈ entries

/-- Parameters that are put under their keys stand in the order in which the keys come first. -/
theorem keeps_foldl_putKeyed (hkeys : ∀ e ∈ entries, ScalarKey e.1) :
    List.Forall₂ (fun key m => m.1 = key ∧ Keeps entries key m.2) (firstKeys entries)
      (entries.foldl putKeyed []) := by
  induction entries using List.reverseRecOn with
  | nil => exact .nil
  | append_singleton entries entry ih =>
      obtain ⟨hentries, hentry⟩ := List.forall_mem_append.mp hkeys
      replace hentry : ScalarKey entry.1 := hentry entry List.mem_cons_self
      have hscalar : ∀ key ∈ firstKeys entries, ScalarKey key := by
        intro key hkey
        obtain ⟨e, he, rfl⟩ := firstKeys_subset key hkey
        exact hentries e he
      have hself : ∀ key ∈ firstKeys entries, sameKey key entry.1 = true → sameKey key key = true :=
        fun key hkey hsame => sameKey_trans (hscalar key hkey) hentry hsame
          (sameKey_symm (hscalar key hkey) hentry hsame)
      rw [List.foldl_append, firstKeys_concat hentries]
      refine putKeyed_forall₂ (ih hentries) ?_ ?_ ?_ ?_
      · refine (pairwise_firstKeys entries).imp_of_mem fun {a b} ha hb hne hsame => ?_
        refine Bool.eq_false_iff.mpr fun hsame' => ?_
        rw [sameKey_trans (hscalar a ha) hentry hsame
          (sameKey_symm (hscalar b hb) hentry hsame')] at hne
        cases hne
      · intro key hkey hsame
        exact Or.inl (by rw [lastOf_concat, if_pos hsame])
      · rintro key hkey n hdiffer (hlast | ⟨hnone, hmem⟩)
        · exact Or.inl (by rw [lastOf_concat, if_neg (by simp [hdiffer]), hlast])
        · exact Or.inr ⟨hnone, List.mem_append_left _ hmem⟩
      · cases hnone : sameKey entry.1 entry.1 with
        | true => exact Or.inl (by rw [lastOf_concat, if_pos hnone])
        | false => exact Or.inr ⟨hnone, by simp⟩

end Putting

/-! ## Parameters of an endpoint -/

/-- A value that counts as false is the same as itself. -/
theorem sameScalar_of_falsy {v : Json} (hscalar : v.isHashable = true) (h : v.truthy = false) :
    v.sameScalar v = true := by
  refine Json.sameScalar_self ?_ ?_ ?_
  · rintro items rfl
    cases hscalar
  · rintro fields rfl
    cases hscalar
  · cases v with
    | float x =>
        have hzero : x.isZero = true := by simpa [Json.truthy] using h
        exact Binary64.isInvalid_of_isFinite (Binary64.isZero_iff.mp hzero).1
    | arr items => cases hscalar
    | obj fields => cases hscalar
    | _ => rfl

/-- A parameter that is compiled has a text for a name, and for a place unless none counts. -/
theorem KeyedAs.same_self {n : Node} {entry : (Json × Json) × Node} {p : Parameter}
    (h : c.KeyedAs n entry) (hp : c.compileParameter entry.2 = .ok p) :
    entry.1.1 = .str p.wireName ∧ sameKey entry.1 entry.1 = true := by
  obtain ⟨called, placed, text, named, hcalled, hplaced, hkind, hwireName, -⟩ :=
    compileParameter_reads hp
  obtain ⟨called', hcalled', hname⟩ := h.name
  obtain ⟨placed', hplaced', hplace⟩ := h.place
  obtain rfl := Except.ok.inj (hcalled.symm.trans hcalled')
  obtain rfl := Except.ok.inj (hplaced.symm.trans hplaced')
  have hself : ∀ {n : Node} {text : String}, n.value = .str text → n.opened = .ok (.str text) := by
    intro n text hvalue
    rw [Node.opened, Node.settle_of_noLink (by rw [hvalue]; rfl)]
    exact congrArg Except.ok hvalue
  have hnamed : entry.1.1 = .str p.wireName := Except.ok.inj (hname.symm.trans (hself hwireName))
  refine ⟨hnamed, (sameKey_iff h.scalar).mpr ⟨?_, ?_⟩⟩
  · rw [hnamed]
    simp [Json.sameScalar]
  · cases htruthy : entry.1.2.truthy with
    | false => exact sameScalar_of_falsy h.scalar.2 htruthy
    | true =>
        obtain ⟨value, hvalue, hpair⟩ := bind_eq_ok.mp hkind
        obtain rfl := Except.ok.inj (hplace.symm.trans hvalue)
        have hgiven := pure_eq_ok.mp hpair
        rw [if_pos htruthy] at hgiven
        have htext := hself (Prod.mk.inj hgiven).1
        rw [Except.ok.inj (hplace.symm.trans htext)]
        simp [Json.sameScalar]

/-- What an endpoint has for a key: the parameter compiled from the last entry of the key. -/
structure MadeFrom (c : EndpointCompiler) (entries : List ((Json × Json) × Node))
    (key : Json × Json) (p : Parameter) : Prop where
  last : ∃ n, lastOf key entries = some n ∧ c.compileParameter n = .ok p
  name : key.1 = .str p.wireName

theorem madeFrom_of_keeps {key : Json × Json} {n : Node} {p : Parameter}
    (hfound : ∀ e ∈ entries, ∃ m, c.KeyedAs m e) (hkey : ScalarKey key)
    (h : Keeps entries key n) (hp : c.compileParameter n = .ok p) :
    MadeFrom c entries key p ∧ sameKey key key = true := by
  rcases h with hlast | ⟨hnone, hmem⟩
  · obtain ⟨e, he, rfl⟩ := Option.map_eq_some_iff.mp hlast
    have hsame : sameKey key e.1 = true :=
      List.find?_some (p := fun entry : (Json × Json) × Node => sameKey key entry.1) he
    obtain ⟨m, hkeyed⟩ := hfound e (List.mem_reverse.mp (List.mem_of_find?_eq_some he))
    obtain ⟨hname, -⟩ := hkeyed.same_self hp
    refine ⟨⟨⟨_, hlast, hp⟩, ?_⟩,
      sameKey_trans hkey hkeyed.scalar hsame (sameKey_symm hkey hkeyed.scalar hsame)⟩
    have hnames := Json.sameScalar_symm ((sameKey_iff hkey).mp hsame).1
    rw [hname] at hnames
    rcases Json.sameScalar_cases hnames with
      ⟨hnull, -⟩ | ⟨name, hthis, hkey⟩ | ⟨_, hint⟩ | ⟨_, hfloat⟩
    · cases hnull
    · exact hkey.trans hthis.symm
    · cases hint
    · cases hfloat
  · obtain ⟨m, hkeyed⟩ := hfound _ hmem
    rw [(hkeyed.same_self hp).2] at hnone
    cases hnone

/-- Parameters are merged from the entries of a path and of an operation: there is one for each key,
in the order in which the keys come first, and it is compiled from the last entry of its key. -/
structure MergedFrom (c : EndpointCompiler) (shared own : List ((Json × Json) × Node))
    (parameters : List Parameter) : Prop where
  made : List.Forall₂ (MadeFrom c (shared ++ own)) (firstKeys (shared ++ own)) parameters
  /-- No key is left out. -/
  covers : ∀ entry ∈ shared ++ own, ∃ key ∈ firstKeys (shared ++ own), sameKey key entry.1 = true
  /-- No key is there twice. -/
  once : (firstKeys (shared ++ own)).Pairwise fun a b => sameKey a b = false
  /-- An entry of the operation goes before those of the path. -/
  overrides : ∀ key, (∃ entry ∈ own, sameKey key entry.1 = true) →
    (lastOf key own).isSome = true ∧ lastOf key (shared ++ own) = lastOf key own

/-- The parameters of an endpoint are merged from what its path and its operation list. -/
theorem compile_parameters {method : Method} {path : String} {operation : Node} {e : Endpoint}
    (h : Yields (c.compile method path operation) s e t) :
    ∃ source item shared own, c.sourceOf method path operation = .ok (source, item) ∧
      c.keyedParameters item = .ok shared ∧ c.keyedParameters source = .ok own ∧
      MergedFrom c shared own e.parameters := by
  obtain ⟨source, item, hsource, hfilled⟩ := yields_compile h
  obtain ⟨sharedNode, hsharedNode, h⟩ := bind_eq_ok.mp hfilled.parameters
  obtain ⟨sharedEntries, hsharedEntries, h⟩ := bind_eq_ok.mp h
  obtain ⟨ownNode, hownNode, h⟩ := bind_eq_ok.mp h
  obtain ⟨ownEntries, hownEntries, h⟩ := bind_eq_ok.mp h
  obtain ⟨merged, hmerged, hcompiled⟩ := bind_eq_ok.mp h
  rw [List.foldlM_append] at hmerged
  obtain ⟨before, hbefore, hafter⟩ := bind_eq_ok.mp hmerged
  obtain ⟨shared, hshared, rfl⟩ := merged_eq_ok hbefore
  obtain ⟨own, hown, rfl⟩ := merged_eq_ok hafter
  have hfound : ∀ e ∈ shared ++ own, ∃ n, c.KeyedAs n e := by
    intro e he
    rcases List.mem_append.mp he with he | he
    · obtain ⟨n, -, hn⟩ := mem_of_filterMapM hshared e he
      exact ⟨n, keyedAs_of_keyed hn⟩
    · obtain ⟨n, -, hn⟩ := mem_of_filterMapM hown e he
      exact ⟨n, keyedAs_of_keyed hn⟩
  have hkeys : ∀ e ∈ shared ++ own, ScalarKey e.1 := fun e he =>
    (hfound e he).elim fun _ hn => hn.scalar
  have hkeeps := keeps_foldl_putKeyed hkeys
  rw [List.foldl_append] at hkeeps
  have hmade : List.Forall₂ (fun key p => MadeFrom c (shared ++ own) key p ∧ sameKey key key = true)
      (firstKeys (shared ++ own)) e.parameters := by
    have heach := (List.forall₂_and_left (p := (· ∈ firstKeys (shared ++ own))) _ _).mpr
      ⟨fun _ => id, forall₂_mapM hkeeps hcompiled⟩
    refine heach.imp fun key p hp => ?_
    obtain ⟨hkey, m, ⟨rfl, hkeep⟩, hp⟩ := hp
    obtain ⟨entry, hentry, heq⟩ := firstKeys_subset _ hkey
    exact madeFrom_of_keeps hfound (heq ▸ hkeys entry hentry) hkeep hp
  refine ⟨source, item, shared, own, hsource,
    bind_eq_ok.mpr ⟨sharedNode, hsharedNode, bind_eq_ok.mpr ⟨_, hsharedEntries, hshared⟩⟩,
    bind_eq_ok.mpr ⟨ownNode, hownNode, bind_eq_ok.mpr ⟨_, hownEntries, hown⟩⟩,
    hmade.imp fun _ _ hp => hp.1, ?_, pairwise_firstKeys _, ?_⟩
  · intro entry hentry
    obtain ⟨key, hkey, rfl | hsame⟩ := exists_firstKey hkeys hentry
    · obtain ⟨p, -, hp⟩ := exists_left_of_forall₂ hmade.flip _ hkey
      exact ⟨_, hkey, hp.2⟩
    · exact ⟨key, hkey, hsame⟩
  · intro key hown
    have hsome := isSome_lastOf hown
    refine ⟨hsome, ?_⟩
    rw [lastOf_append]
    exact Option.or_of_isSome hsome

/-- Shelves are found by a number, which their path first calls a text, and page by page. Not all
that their path lists is a parameter. -/
def shelves : Json := .obj [
  ("paths", .obj [
    ("/shelves", .obj [
      ("parameters", .arr [parameterNamed "id" "query",
        .obj [("$ref", .str "#/components/parameters/Page")],
        .obj [("$ref", .str "#/components/parameters/Lost")],
        .str "none", .obj [("in", .str "query")],
        .obj [("name", .str "id"), ("in", .str "query"),
          ("schema", .obj [("type", .str "integer")])]]),
      ("get", .obj [("parameters", .arr [parameterNamed "page" "header",
        .obj [("name", .str "page"), ("in", .str "query"),
          ("schema", .obj [("type", .str "boolean")])],
        parameterNamed "sort" "query"])])])]),
  ("components", .obj [
    ("parameters", .obj [("Page", .obj [("name", .str "page"), ("in", .str "query"),
      ("schema", .obj [("type", .str "integer")])])]),
    ("schemas", .obj [])])]

/-- The parameters that the method of `shelves` takes, with their kinds and types. -/
def shelvesParameters : Except Fault (List (String × ParameterKind × String)) := do
  let c ← ofRoot shelves
  let e ← ((c.compile .get "/shelves" c.resolved.top).run.run {}).1
  return e.parameters.map fun p => (p.wireName, p.kind, p.typeExpression)

theorem shelves_parameters :
    ∃ c e t, ofRoot shelves = .ok c ∧
      Yields (c.compile .get "/shelves" c.resolved.top) {} e t ∧
      e.parameters.map (fun p => (p.wireName, p.kind, p.typeExpression)) =
        [("id", .query, "number"), ("page", .query, "boolean"), ("page", .header, "string"),
          ("sort", .query, "string")] ∧
      ∃ source item shared own,
        c.sourceOf .get "/shelves" c.resolved.top = .ok (source, item) ∧
        c.keyedParameters item = .ok shared ∧ c.keyedParameters source = .ok own ∧
        MergedFrom c shared own e.parameters := by
  have hrun : shelvesParameters.toOption =
      some [("id", .query, "number"), ("page", .query, "boolean"), ("page", .header, "string"),
        ("sort", .query, "string")] := by
    decide +kernel
  obtain ⟨c, hc, h⟩ := bind_eq_ok.mp (eq_ok_of_toOption hrun)
  obtain ⟨e, he, h⟩ := bind_eq_ok.mp h
  have hyields : Yields (c.compile .get "/shelves" c.resolved.top) {} e _ := Prod.ext he rfl
  exact ⟨c, e, _, hc, hyields, pure_eq_ok.mp h, compile_parameters hyields⟩

end EndpointCompiler

end ApiScaffold
