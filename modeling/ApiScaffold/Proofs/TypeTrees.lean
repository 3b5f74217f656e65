import ApiScaffold.Proofs.Printed
import ApiScaffold.Proofs.Typed
import ApiScaffold.Proofs.Words
import Mathlib.Data.List.SplitBy

set_option autoImplicit false

/-! # Types as they are read

The text of a type is read into a tree. It is cut into words and marks; the brackets of a list bind
tighter than the bars of a union, `Record<string, T>` is read as a whole, and round brackets hold a
type of their own (`TypeTree.read?`).

The text of a type is read as the type was meant (`TypeExpr.Tidy.read?_text`): a list has the whole
type of its items, also where that is a union, and a union has the members of its parts. -/

namespace ApiScaffold

/-! ## Words and marks -/

/-- A piece of the text of a type: a word, or a character that stands for itself. -/
inductive TypeToken where
  | word (text : String)
  | mark (c : Char)
deriving DecidableEq, Repr

namespace TypeToken

/-- Two characters of one word. -/
def joined (c d : Char) : Bool := isWordChar c && isWordChar d

/-- What a run of characters stands for. Blanks only keep words apart. -/
def ofRun : List Char → Option TypeToken
  | [] => none
  | c :: rest =>
    if isWordChar c then some (.word (String.ofList (c :: rest)))
    else if c = ' ' then none
    else some (.mark c)

/-- The words and marks of a text. -/
def ofText (text : String) : List TypeToken :=
  (text.toList.splitBy joined).filterMap ofRun

/-- Texts are read one after the other, unless a word goes on from one to the other. -/
theorem ofText_append {a b : String}
    (h : ∀ c ∈ a.toList.getLast?, ∀ d ∈ b.toList.head?, joined c d = false) :
    ofText (a ++ b) = ofText a ++ ofText b := by
  rw [ofText, String.toList_append, List.splitBy_append h, List.filterMap_append]
  rfl

theorem ofText_append_mark (a : String) {b : String}
    (h : ∀ d ∈ b.toList.head?, isWordChar d = false) :
    ofText (a ++ b) = ofText a ++ ofText b :=
  ofText_append fun c _ d hd => by rw [joined, h d hd, Bool.and_false]

theorem ofText_mark_append {a : String} (b : String)
    (h : ∀ c ∈ a.toList.getLast?, isWordChar c = false) :
    ofText (a ++ b) = ofText a ++ ofText b :=
  ofText_append fun c hc d _ => by rw [joined, h c hc, Bool.false_and]

theorem ofText_of_isWord {name : String} (h : IsWord name) (hne : name ≠ "") :
    ofText name = [.word name] := by
  have hlist : name.toList ≠ [] := by simpa using hne
  have hall : ∀ c ∈ name.toList, isWordChar c = true := h
  have hchain : name.toList.IsChain fun c d => joined c d := by
    refine List.Pairwise.isChain (List.pairwise_of_forall_mem_list fun c hc d hd => ?_)
    rw [joined, hall c hc, hall d hd]
    rfl
  rw [ofText, List.splitBy_of_isChain hlist hchain, List.filterMap_cons, List.filterMap_nil]
  obtain ⟨c, rest, hname⟩ := List.exists_cons_of_ne_nil hlist
  have hc : isWordChar c = true := hall c (by simp [hname])
  rw [hname, ofRun, if_pos hc, ← hname, String.ofList_toList]

end TypeToken

/-! ## Trees -/

/-- What the text of a type says. -/
inductive TypeTree where
  | named (name : String)
  | array (item : TypeTree)
  | record (value : TypeTree)
  | union (left right : TypeTree)
deriving DecidableEq, Repr

namespace TypeTree

/-- The members of a union, also of unions in it; any other type is its only member. -/
def members : TypeTree → List TypeTree
  | .union left right => left.members ++ right.members
  | t => [t]

/-- The union of some types. -/
def ofMembers : List TypeTree → TypeTree
  | [] => .named "any"
  | [t] => t
  | t :: u :: rest => .union t (ofMembers (u :: rest))

variable {T U : TypeTree} {Ts Us : List TypeTree}

theorem members_ne_nil : ∀ T : TypeTree, T.members ≠ []
  | .named _ | .array _ | .record _ => List.cons_ne_nil _ _
  | .union left _ => List.append_ne_nil_of_left_ne_nil left.members_ne_nil _

theorem members_of_mem : ∀ {T : TypeTree}, U ∈ T.members → U.members = [U]
  | .named _, h | .array _, h | .record _, h => List.mem_singleton.mp h ▸ rfl
  | .union _ _, h => (List.mem_append.mp h).elim members_of_mem members_of_mem

/-- The union of some members has these members. -/
theorem members_ofMembers (h : ∀ T ∈ Ts, T.members = [T]) (hne : Ts ≠ []) :
    (ofMembers Ts).members = Ts := by
  induction Ts with
  | nil => exact absurd rfl hne
  | cons T Ts ih =>
      cases Ts with
      | nil => exact h T (List.mem_singleton_self T)
      | cons U Us =>
          rw [ofMembers, members, h T List.mem_cons_self,
            ih (fun V hV => h V (List.mem_cons_of_mem _ hV)) (List.cons_ne_nil U Us)]
          rfl

/-! ## Reading -/

/-- The brackets of lists behind a type. -/
def readLists (T : TypeTree) : List TypeToken → TypeTree × List TypeToken
  | .mark '[' :: .mark ']' :: rest => readLists (.array T) rest
  | rest => (T, rest)

/-- A member of a union, with the brackets behind it; `read` reads the type inside others. -/
def readMember (read : List TypeToken → Option (TypeTree × List TypeToken)) :
    List TypeToken → Option (TypeTree × List TypeToken)
  | .word "Record" :: .mark '<' :: .word "string" :: .mark ',' :: rest =>
    match read rest with
    | some (value, .mark '>' :: rest) => some (readLists (.record value) rest)
    | _ => none
  | .mark '(' :: rest =>
    match read rest with
    | some (T, .mark ')' :: rest) => some (readLists T rest)
    | _ => none
  | .word name :: rest => some (readLists (.named name) rest)
  | _ => none

/-- A type, and what is left behind it; `fuel` bounds the depth and the number of members. -/
def readWithin : ℕ → List TypeToken → Option (TypeTree × List TypeToken)
  | 0, _ => none
  | fuel + 1, tokens =>
    match readMember (readWithin fuel) tokens with
    | some (T, .mark '|' :: rest) =>
      (readWithin fuel rest).map fun (U, rest) => (.union T U, rest)
    | other => other

/-- The type that a whole text says. -/
def read? (text : String) : Option TypeTree :=
  let tokens := TypeToken.ofText text
  match readWithin (tokens.length + 1) tokens with
  | some (T, []) => some T
  | _ => none

/-! ## What is read -/

variable {ts us : List TypeToken}

/-- Some words and marks are read as a member, whatever follows. -/
def ReadsMember (ts : List TypeToken) (T : TypeTree) : Prop :=
  ∀ fuel rest, ts.length ≤ fuel →
    readMember (readWithin fuel) (ts ++ rest) = some (readLists T rest)

/-- What can stand behind a type. -/
def Stops (rest : List TypeToken) : Prop :=
  ∀ c ∈ rest.head?, c = .mark ')' ∨ c = .mark '>'

/-- Some words and marks are read as a type. -/
def ReadsType (ts : List TypeToken) (T : TypeTree) : Prop :=
  ∀ fuel rest, ts.length < fuel → Stops rest → readWithin fuel (ts ++ rest) = some (T, rest)

/-- Members with bars between them. -/
inductive ReadsMembers : List TypeToken → List TypeTree → Prop where
  | one {ts : List TypeToken} {T : TypeTree} (h : ReadsMember ts T) : ReadsMembers ts [T]
  | cons {ts us : List TypeToken} {T : TypeTree} {Ts : List TypeTree} (h : ReadsMember ts T)
      (hrest : ReadsMembers us Ts) : ReadsMembers (ts ++ .mark '|' :: us) (T :: Ts)

theorem readsMember_word {name : String} (h : name ≠ "Record") :
    ReadsMember [.word name] (.named name) := by
  intro fuel rest _
  rw [List.singleton_append, readMember]
  exact fun _ _ hname => h hname

theorem ReadsMember.array (h : ReadsMember ts T) :
    ReadsMember (ts ++ [.mark '[', .mark ']']) (.array T) := by
  intro fuel rest hfuel
  rw [List.length_append] at hfuel
  rw [List.append_assoc, h fuel _ (Nat.le_of_add_right_le hfuel)]
  rfl

theorem stops_nil : Stops [] := nofun

theorem stops_mark {c : Char} (h : c ∈ [')', '>']) (rest : List TypeToken) :
    Stops (.mark c :: rest) := by
  intro d hd
  obtain rfl := Option.some.inj hd
  simpa using h

theorem readLists_of_stops {rest : List TypeToken} (h : Stops rest) :
    readLists T rest = (T, rest) := by
  match rest with
  | [] => rfl
  | c :: rest =>
      rcases h c rfl with rfl | rfl
      · rfl
      · rfl

/-- A type in round brackets is read as a member. -/
theorem ReadsType.inBrackets (h : ReadsType ts T) :
    ReadsMember (.mark '(' :: ts ++ [.mark ')']) T := by
  intro fuel rest hfuel
  simp only [List.length_append, List.length_cons] at hfuel
  rw [List.append_assoc, List.cons_append, List.singleton_append, readMember,
    h fuel _ (by omega) (stops_mark (by decide) rest)]
  rfl

theorem ReadsType.record (h : ReadsType ts T) :
    ReadsMember (.word "Record" :: .mark '<' :: .word "string" :: .mark ',' :: ts ++ [.mark '>'])
      (.record T) := by
  intro fuel rest hfuel
  simp only [List.length_append, List.length_cons] at hfuel
  simp only [List.append_assoc, List.cons_append, List.nil_append]
  rw [readMember, h fuel _ (by omega) (stops_mark (by decide) rest)]
  rfl

theorem ReadsMembers.append (h : ReadsMembers ts Ts) (h' : ReadsMembers us Us) :
    ReadsMembers (ts ++ .mark '|' :: us) (Ts ++ Us) := by
  induction h with
  | one h => exact .cons h h'
  | cons h _ ih =>
      rw [List.append_assoc, List.cons_append, List.cons_append]
      exact .cons h ih

/-- Members with bars between them are read as their union. -/
theorem ReadsMembers.readsType (h : ReadsMembers ts Ts) : ReadsType ts (ofMembers Ts) := by
  induction h with
  | one h =>
      intro fuel rest hfuel hstops
      obtain ⟨fuel, rfl⟩ := Nat.exists_eq_add_one_of_ne_zero (Nat.ne_zero_of_lt hfuel)
      rw [readWithin, h fuel rest (Nat.le_of_lt_succ hfuel), readLists_of_stops hstops]
      match rest with
      | [] => rfl
      | c :: rest =>
          rcases hstops c rfl with rfl | rfl
          · rfl
          · rfl
  | @cons ts us T Ts h hrest ih =>
      intro fuel rest hfuel hstops
      obtain ⟨fuel, rfl⟩ := Nat.exists_eq_add_one_of_ne_zero (Nat.ne_zero_of_lt hfuel)
      simp only [List.length_append, List.length_cons] at hfuel
      rw [List.append_assoc, List.cons_append, readWithin, h fuel _ (by omega)]
      change (readWithin fuel (us ++ rest)).map _ = _
      rw [ih fuel rest (by omega) hstops]
      cases hrest with
      | one _ | cons _ _ => rfl

/-! ## Texts -/

/-- A name of a type that cannot be taken for anything else. -/
structure IsTypeName (name : String) : Prop where
  word : IsWord name
  nonempty : name ≠ ""
  other : name ≠ "Record"

/-- A text does not end with a part of a bar. -/
def Finished (text : String) : Prop :=
  ∃ c ∈ text.toList.getLast?, c ≠ ' ' ∧ c ≠ '|'

theorem Finished.append {b : String} (h : Finished b) (a : String) : Finished (a ++ b) := by
  obtain ⟨c, hc, hends⟩ := h
  refine ⟨c, ?_, hends⟩
  rw [String.toList_append, List.getLast?_append, hc]
  rfl

/-- A bar behind such a text is found. -/
theorem Finished.holds_bar {a : String} (h : Finished a) (b : String) :
    Text.holds " | " (a ++ " | " ++ b) = true := by
  obtain ⟨c, hc, hends⟩ := h
  have hcut : Text.cut " | ".toList (a ++ " | " ++ b).toList =
      Text.cut bar a.toList ++ Text.cut bar b.toList := by
    rw [String.toList_append, String.toList_append]
    exact cut_bar (closing_append (a := []) hc hends) b.toList
  have hpos (text : List Char) : 0 < (Text.cut bar text).length :=
    List.length_pos_of_ne_nil Text.cutFrom_ne_nil
  rw [Text.holds, hcut, decide_eq_true_eq, List.length_append]
  exact Nat.add_le_add (hpos a.toList) (hpos b.toList)

/-- A text is read as a type also inside of others: with bars around it as members of a union, and
with brackets behind it as a member unless it looks like a union itself. -/
structure ReadsAs (text : String) (T : TypeTree) : Prop where
  members : ReadsMembers (TypeToken.ofText text) T.members
  union : ofMembers T.members = T
  member : Text.holds " | " text = false → ReadsMember (TypeToken.ofText text) T
  finished : Finished text

variable {text name : String}

theorem ReadsAs.readsType (h : ReadsAs text T) : ReadsType (TypeToken.ofText text) T :=
  h.union ▸ h.members.readsType

/-- The whole of a text is read as the type that it says. -/
theorem ReadsAs.read? (h : ReadsAs text T) : TypeTree.read? text = some T := by
  have hread := h.readsType _ [] (Nat.lt_succ_self _) stops_nil
  rw [List.append_nil] at hread
  rw [TypeTree.read?, hread]

theorem ReadsAs.ofMember (h : ReadsMember (TypeToken.ofText text) T) (hmembers : T.members = [T])
    (hfinished : Finished text) : ReadsAs text T where
  members := hmembers ▸ .one h
  union := by
    rw [hmembers]
    rfl
  member _ := h
  finished := hfinished

theorem readsAs_named (h : IsTypeName name) : ReadsAs name (.named name) := by
  have hne : name.toList ≠ [] := by simpa using h.nonempty
  refine .ofMember ?_ rfl ⟨_, List.getLast?_eq_some_getLast hne, ?_⟩
  · rw [TypeToken.ofText_of_isWord h.word h.nonempty]
    exact readsMember_word h.other
  · have hword := h.word _ (List.getLast_mem hne)
    constructor
    · intro heq
      rw [heq] at hword
      cases hword
    · intro heq
      rw [heq] at hword
      cases hword

theorem readsAs_brackets (h : ReadsMember (TypeToken.ofText text) T) :
    ReadsAs (text ++ "[]") (.array T) := by
  refine .ofMember ?_ rfl ?_
  · rw [TypeToken.ofText_append_mark _ (by simp [isWordChar])]
    exact h.array
  · exact Finished.append ⟨_, rfl, by decide⟩ _

theorem ReadsAs.list {item : TypeExpr} (h : ReadsAs item.text T) :
    ReadsAs (TypeExpr.list item).text (.array T) := by
  rw [TypeExpr.text_list]
  split
  · have htokens : TypeToken.ofText ("(" ++ item.text ++ ")") =
        TypeToken.mark '(' :: TypeToken.ofText item.text ++ [TypeToken.mark ')'] := by
      rw [TypeToken.ofText_append_mark _ (by simp [isWordChar]),
        TypeToken.ofText_mark_append _ (by simp [isWordChar])]
      rfl
    rw [show ")[]" = ")" ++ "[]" from rfl, ← String.append_assoc]
    exact readsAs_brackets (htokens ▸ h.readsType.inBrackets)
  · next hnot => exact readsAs_brackets (h.member (by simpa using hnot))

theorem ReadsAs.record {value : TypeExpr} (h : ReadsAs value.text T) :
    ReadsAs (TypeExpr.record value).text (.record T) := by
  rw [TypeExpr.text_record]
  refine .ofMember ?_ rfl ?_
  · have hfront : TypeToken.ofText "Record<string, " =
        [.word "Record", .mark '<', .word "string", .mark ','] := by
      decide
    rw [TypeToken.ofText_append_mark _ (by simp [isWordChar]),
      TypeToken.ofText_mark_append _ (by simp [isWordChar]), hfront]
    exact h.readsType.record
  · exact Finished.append ⟨_, rfl, by decide⟩ _

end TypeTree

namespace TypeExpr

open TypeTree

mutual

/-- What a type says. -/
def tree : TypeExpr → TypeTree
  | .named name => .named name
  | .list item => .array item.tree
  | .listOfClass name => .array (.named name)
  | .union members => .ofMembers (membersOf members)
  | .record value => .record value.tree

/-- The members of a union of some types. -/
def membersOf : List TypeExpr → List TypeTree
  | [] => []
  | t :: ts => t.tree.members ++ membersOf ts

end

/-- A type whose names cannot be taken for anything else, and whose unions have several members. -/
inductive Tidy : TypeExpr → Prop where
  | named {name : String} (h : IsTypeName name) : Tidy (.named name)
  | list {item : TypeExpr} (h : Tidy item) : Tidy (.list item)
  | listOfClass {name : String} (h : IsTypeName name) : Tidy (.listOfClass name)
  | union {members : List TypeExpr} (hlength : 2 ≤ members.length) (h : ∀ t ∈ members, Tidy t) :
      Tidy (.union members)
  | record {value : TypeExpr} (h : Tidy value) : Tidy (.record value)

variable {t u : TypeExpr} {types : List TypeExpr}

theorem mem_membersOf {T : TypeTree} : T ∈ membersOf types ↔ ∃ t ∈ types, T ∈ t.tree.members := by
  induction types with
  | nil => simp [membersOf]
  | cons t types ih => simp [membersOf, ih]

/-- The texts of types are read as their members when bars stand between them. -/
theorem readsMembers_texts (h : ∀ t ∈ types, ReadsAs t.text t.tree) (hne : types ≠ []) :
    ReadsMembers (TypeToken.ofText (" | ".intercalate (texts types))) (membersOf types) ∧
      Finished (" | ".intercalate (texts types)) := by
  induction types with
  | nil => exact absurd rfl hne
  | cons t types ih =>
      have hfirst := h t List.mem_cons_self
      cases types with
      | nil => simpa [texts, membersOf] using ⟨hfirst.members, hfirst.finished⟩
      | cons u types =>
          obtain ⟨hmembers, hfinished⟩ :=
            ih (fun v hv => h v (List.mem_cons_of_mem _ hv)) (List.cons_ne_nil u types)
          have hbar : TypeToken.ofText " | " = [.mark '|'] := by decide
          rw [texts, texts, String.intercalate_cons_cons, ← texts]
          refine ⟨?_, hfinished.append _⟩
          rw [TypeToken.ofText_mark_append _ (by simp [isWordChar]),
            TypeToken.ofText_append_mark _ (by simp [isWordChar]), hbar, List.append_assoc]
          exact hfirst.members.append hmembers

/-- A union has the members of its parts. -/
theorem members_union (hne : types ≠ []) : (union types).tree.members = membersOf types := by
  refine members_ofMembers (fun T hT => ?_) ?_
  · obtain ⟨t, -, hT⟩ := mem_membersOf.mp hT
    exact members_of_mem hT
  · obtain ⟨t, rest, rfl⟩ := List.exists_cons_of_ne_nil hne
    exact List.append_ne_nil_of_left_ne_nil t.tree.members_ne_nil _

theorem readsAs_union (h : ∀ t ∈ types, ReadsAs t.text t.tree) (hlength : 2 ≤ types.length) :
    ReadsAs (union types).text (union types).tree := by
  obtain ⟨t, u, rest, rfl⟩ : ∃ t u rest, types = t :: u :: rest := by
    match types, hlength with
    | t :: u :: rest, _ => exact ⟨t, u, rest, rfl⟩
  have hne : t :: u :: rest ≠ [] := List.cons_ne_nil t (u :: rest)
  have hmembers := members_union hne
  obtain ⟨hreads, hfinished⟩ := readsMembers_texts h hne
  refine ⟨hmembers ▸ hreads, by rw [hmembers, tree], fun hnot => ?_, hfinished⟩
  rw [text_union, texts, texts, String.intercalate_cons_cons,
    (h t List.mem_cons_self).finished.holds_bar] at hnot
  cases hnot

/-- A tidy type is read as it is meant. -/
theorem Tidy.readsAs (h : t.Tidy) : ReadsAs t.text t.tree := by
  induction h with
  | named h => exact readsAs_named h
  | list _ ih => exact ih.list
  | listOfClass h =>
      exact readsAs_brackets ((readsAs_named h).member (holds_bar_noBlank h.word.noBlank))
  | record _ ih => exact ih.record
  | union hlength _ ih => exact readsAs_union ih hlength

/-- The text of a type is read as the type was meant. -/
theorem Tidy.read?_text (h : t.Tidy) : read? t.text = some t.tree := h.readsAs.read?

example : read? "Record<string, (Cat | string[])[]> | null" =
    some (.union (.record (.array (.union (.named "Cat") (.array (.named "string")))))
      (.named "null")) := by
  decide +kernel

/-- Types that are written alike say the same. -/
theorem Tidy.tree_eq (ht : t.Tidy) (hu : u.Tidy) (h : t.text = u.text) : t.tree = u.tree :=
  Option.some.inj (ht.read?_text.symm.trans (h ▸ hu.read?_text))

end TypeExpr

end ApiScaffold
