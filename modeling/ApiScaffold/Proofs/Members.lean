import ApiScaffold.Endpoint.Signature
import ApiScaffold.Typing.TypeExpr

set_option autoImplicit false

/-! # The names in a type

A type is written with brackets around lists and bars between the members of a union. The names in
it are found by cutting at the bars and dropping the brackets, so a list has the names of its items
(`mem_unionMembers_listsOf`), and a union those of its members, unless one of them ends like the
beginning of a bar (`mem_unionMembers_intercalate`). -/

namespace ApiScaffold

open Text

/-! ## Bars -/

/-- What stands between the members of a union. -/
def bar : List Char := [' ', '|', ' ']

/-- A text does not end like the beginning of a bar. -/
def Closing (text : List Char) : Prop :=
  ∀ ch, text.getLast? = some ch → ch ≠ ' ' ∧ ch ≠ '|'

variable {a b s piece piece' : List Char} {c : Char}

theorem Closing.tail (h : Closing (c :: a)) : Closing a := by
  intro ch hch
  refine h ch ?_
  rw [List.getLast?_cons, hch]
  rfl

theorem closing_append {d : Char} (h : b.getLast? = some d) (hd : d ≠ ' ' ∧ d ≠ '|') :
    Closing (a ++ b) := by
  intro ch hch
  rw [List.getLast?_append, h] at hch
  exact Option.some.inj hch ▸ hd

/-- A bar does not begin in a text that is closed and end behind it. -/
theorem isPrefixOf_bar_closing (h : Closing (c :: a)) (b : List Char) :
    bar.isPrefixOf (c :: a ++ b) = bar.isPrefixOf (c :: a) := by
  -- only a text shorter than a bar needs what follows, and its last character is in the way
  match a with
  | [] =>
      have hlast := (h c rfl).1
      simp [bar, List.isPrefixOf, Ne.symm hlast]
  | [d] =>
      have hlast := (h d rfl).2
      simp [bar, List.isPrefixOf, Ne.symm hlast]
  | _ :: _ :: _ => simp [bar, List.isPrefixOf]

/-- A bar does not end with characters that it does not have. -/
theorem isPrefixOf_bar_append (h : ∀ ch ∈ s, ch ≠ ' ' ∧ ch ≠ '|') (a : List Char) :
    bar.isPrefixOf (a ++ s) = bar.isPrefixOf a := by
  cases s with
  | nil => rw [List.append_nil]
  | cons d s =>
      obtain ⟨hblank, hbar⟩ := h d List.mem_cons_self
      match a with
      | [] => simp [bar, List.isPrefixOf, Ne.symm hblank]
      | [_] => simp [bar, List.isPrefixOf, Ne.symm hbar]
      | [_, _] => simp [bar, List.isPrefixOf, Ne.symm hblank]
      | _ :: _ :: _ :: _ => simp [bar, List.isPrefixOf]

theorem length_of_bar (h : bar.isPrefixOf (c :: a) = true) : bar.length - 1 ≤ a.length := by
  have hlength := (List.isPrefixOf_iff_prefix.mp h).length_le
  rw [List.length_cons] at hlength
  omega

/-- Cutting goes on anew behind a bar, when the text in front of it is closed. -/
theorem cutFrom_bar {skip : Nat} (hskip : skip ≤ a.length) (h : Closing a) (b : List Char) :
    cutFrom bar skip (a ++ bar ++ b) piece = cutFrom bar skip a piece ++ cut bar b := by
  induction a generalizing skip piece with
  | nil =>
      obtain rfl := Nat.le_zero.mp hskip
      simp [cutFrom, bar, cut]
  | cons c a ih =>
      cases skip with
      | succ skip => exact ih (Nat.le_of_succ_le_succ hskip) h.tail
      | zero =>
          have hfront := isPrefixOf_bar_closing h (bar ++ b)
          rw [← List.append_assoc] at hfront
          rw [List.cons_append, List.cons_append, cutFrom, cutFrom]
          rw [List.cons_append, List.cons_append] at hfront
          rw [hfront]
          split
          · next hbar =>
              rw [ih (length_of_bar hbar) h.tail, List.cons_append]
          · exact ih (Nat.zero_le _) h.tail

theorem cut_bar (h : Closing a) (b : List Char) :
    cut bar (a ++ bar ++ b) = cut bar a ++ cut bar b :=
  cutFrom_bar (Nat.zero_le _) h b

/-! ## Brackets -/

/-- A text without brackets. -/
def bare (text : List Char) : List Char :=
  text.filter fun c => c != '(' && c != ')' && c != '[' && c != ']'

/-- The brackets. -/
def brackets : List Char := ['(', ')', '[', ']']

theorem bare_eq_nil (h : s ⊆ brackets) : bare s = [] := by
  refine List.filter_eq_nil_iff.mpr fun ch hch => ?_
  have hmem := h hch
  simp only [brackets, List.mem_cons, List.not_mem_nil, or_false] at hmem
  rcases hmem with rfl | rfl | rfl | rfl <;> decide

theorem ne_of_mem_brackets (h : s ⊆ brackets) : ∀ ch ∈ s, ch ≠ ' ' ∧ ch ≠ '|' := by
  intro ch hch
  have hmem := h hch
  simp only [brackets, List.mem_cons, List.not_mem_nil, or_false] at hmem
  rcases hmem with rfl | rfl | rfl | rfl <;> decide

theorem cutFrom_brackets (h : s ⊆ brackets) : cutFrom bar 0 s piece = [piece.reverse ++ s] := by
  induction s generalizing piece with
  | nil => simp [cutFrom]
  | cons ch s ih =>
      have hfront := isPrefixOf_bar_append (ne_of_mem_brackets h) []
      rw [List.nil_append] at hfront
      rw [cutFrom, hfront, if_neg (by decide),
        ih (List.Subset.trans (List.subset_cons_self ch s) h)]
      simp

/-- Brackets around a text do not change the bare pieces. -/
theorem bare_cutFrom {skip : Nat} (hskip : skip ≤ a.length) (hs : s ⊆ brackets)
    (hpiece : bare piece.reverse = bare piece'.reverse) :
    (cutFrom bar skip (a ++ s) piece).map bare = (cutFrom bar skip a piece').map bare := by
  induction a generalizing skip piece piece' with
  | nil =>
      obtain rfl := Nat.le_zero.mp hskip
      have hbare : bare (piece.reverse ++ s) = bare piece'.reverse := by
        rw [← hpiece]
        simp only [bare, List.filter_append]
        rw [show s.filter _ = [] from bare_eq_nil hs, List.append_nil]
      simp [cutFrom_brackets hs, cutFrom, hbare]
  | cons ch a ih =>
      cases skip with
      | succ skip => exact ih (Nat.le_of_succ_le_succ hskip) hpiece
      | zero =>
          have hfront := isPrefixOf_bar_append (ne_of_mem_brackets hs) (ch :: a)
          rw [List.cons_append] at hfront
          rw [List.cons_append, cutFrom, cutFrom, hfront]
          split
          · next hbar =>
              rw [List.map_cons, List.map_cons, hpiece, ih (length_of_bar hbar) rfl]
          · refine ih (Nat.zero_le _) ?_
            simp only [List.reverse_cons, bare, List.filter_append] at hpiece ⊢
            rw [hpiece]

/-! ## Members -/

/-- The names in a type come from its bare pieces. -/
theorem mem_unionMembers {text n : String} : n ∈ unionMembers text ↔
    n ≠ "" ∧ ∃ p ∈ (cut bar text.toList).map bare, n = String.ofList (trim isBlank p) := by
  have hnames : (pieces " | " text).map (fun piece => String.ofList (trim isBlank
      (piece.toList.filter fun c => c != '(' && c != ')' && c != '[' && c != ']'))) =
      ((cut bar text.toList).map bare).map fun p => String.ofList (trim isBlank p) := by
    rw [pieces, List.map_map, List.map_map]
    refine List.map_congr_left fun p _ => ?_
    rw [Function.comp_apply, Function.comp_apply, String.toList_ofList]
    rfl
  rw [unionMembers, mem_firsts, hnames, List.mem_filter, bne_iff_ne, List.mem_map, and_comm]
  exact and_congr_right fun _ => exists_congr fun p => and_congr_right fun _ => eq_comm

theorem unionMembers_empty : unionMembers "" = [] := by decide

/-- A union has the names of its members, when none of them ends like the beginning of a bar. -/
theorem mem_unionMembers_intercalate {types : List String} {n : String}
    (h : ∀ t ∈ types, Closing t.toList) :
    n ∈ unionMembers (" | ".intercalate types) ↔ ∃ t ∈ types, n ∈ unionMembers t := by
  induction types with
  | nil => simp [String.intercalate_nil, unionMembers_empty]
  | cons t types ih =>
      cases types with
      | nil => simp
      | cons u types =>
          have hcut : (t ++ " | " ++ " | ".intercalate (u :: types)).toList =
              t.toList ++ bar ++ (" | ".intercalate (u :: types)).toList := by
            rw [String.toList_append, String.toList_append]
            rfl
          have hrest := ih fun t ht => h t (List.mem_cons_of_mem _ ht)
          rw [mem_unionMembers] at hrest
          have hboth : (∃ t' ∈ t :: u :: types, n ∈ unionMembers t') ↔
              n ∈ unionMembers t ∨ ∃ t' ∈ u :: types, n ∈ unionMembers t' := by
            simp only [List.mem_cons, exists_eq_or_imp]
          rw [String.intercalate_cons_cons, mem_unionMembers, hcut,
            cut_bar (h t List.mem_cons_self), List.map_append, hboth, ← hrest, mem_unionMembers,
            ← and_or_left]
          simp only [List.mem_append, or_and_right, exists_or]

/-! ## Lists -/

/-- A type is that of a name, or of lists of it. -/
inductive ListsOf (name : String) : TypeExpr → Prop where
  | named : ListsOf name (.named name)
  | list {item : TypeExpr} (h : ListsOf name item) : ListsOf name (.list item)

/-- The text of a list is that of its items with brackets around it. -/
theorem toList_text_list (item : TypeExpr) : ∃ front back, front ⊆ brackets ∧
    back ⊆ brackets ∧ (TypeExpr.list item).text.toList = front ++ (item.text.toList ++ back) ∧
    back.getLast? = some ']' := by
  rw [TypeExpr.text_list]
  split
  · refine ⟨['('], [')', '[', ']'], by decide, by decide, ?_, rfl⟩
    rw [String.toList_append, String.toList_append, List.append_assoc]
    rfl
  · refine ⟨[], ['[', ']'], by decide, by decide, ?_, rfl⟩
    rw [String.toList_append]
    rfl

theorem ListsOf.closing {name : String} {type : TypeExpr} (h : ListsOf name type)
    (hname : Closing name.toList) : Closing type.text.toList := by
  cases h with
  | named => exact hname
  | @list item _ =>
      obtain ⟨front, back, -, -, htext, hlast⟩ := toList_text_list item
      rw [htext, ← List.append_assoc]
      exact closing_append hlast (by decide)

theorem cutFrom_front {front : List Char} (h : front ⊆ brackets) :
    cutFrom bar 0 (front ++ a) piece = cutFrom bar 0 a (front.reverse ++ piece) := by
  induction front generalizing piece with
  | nil => rfl
  | cons ch front ih =>
      have hblank := (ne_of_mem_brackets h ch List.mem_cons_self).1
      rw [List.cons_append, cutFrom, if_neg (by simp [bar, List.isPrefixOf, Ne.symm hblank]),
        ih (List.Subset.trans (List.subset_cons_self ch front) h)]
      simp

/-- Brackets around a text do not change its bare pieces. -/
theorem bare_cut {front back : List Char} (hfront : front ⊆ brackets) (hback : back ⊆ brackets) :
    (cut bar (front ++ (a ++ back))).map bare = (cut bar a).map bare := by
  rw [cut, cutFrom_front hfront]
  refine bare_cutFrom (Nat.zero_le _) hback ?_
  rw [List.append_nil, List.reverse_reverse, bare_eq_nil hfront]
  rfl

/-- A list has the names of its items. -/
theorem mem_unionMembers_listsOf {name n : String} {type : TypeExpr} (h : ListsOf name type) :
    n ∈ unionMembers type.text ↔ n ∈ unionMembers name := by
  induction h with
  | named => rfl
  | @list item _ ih =>
      obtain ⟨front, back, hfront, hback, htext, -⟩ := toList_text_list item
      rw [← ih, mem_unionMembers, mem_unionMembers, htext, bare_cut hfront hback]

end ApiScaffold
