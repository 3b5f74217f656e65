import ApiScaffold.Proofs.Words
import ApiScaffold.Proofs.WrittenSettings
import ApiScaffold.Toml.Reader

set_option autoImplicit false

/-! # Settings as they are read

Plain settings are read as they were written. The walk through a text goes over each line to the
beginning of the next one and changes nothing (`goes_line`), so the lines are those that were
written. Each line is divided at its equals sign, and what stands behind it is the value. -/

namespace ApiScaffold

/-! ## Lines and blanks -/

namespace Text

/-- Lines that are ended one by one are cut apart again, with nothing behind the last one. -/
theorem cut_lines {lines : List (List Char)} (h : ∀ line ∈ lines, '\n' ∉ line) :
    cut ['\n'] (lines.flatMap (· ++ ['\n'])) = lines ++ [[]] := by
  induction lines with
  | nil => rfl
  | cons line lines ih =>
      obtain ⟨hline, hlines⟩ := List.forall_mem_cons.mp h
      rw [List.flatMap_cons, List.append_assoc, List.singleton_append, cut_append hline, ih hlines]
      rfl

/-- A text that begins and ends with characters that are not blank. -/
structure Tight (text : List Char) : Prop where
  first : ∃ c ∈ text.head?, isBlank c = false
  last : ∃ c ∈ text.getLast?, isBlank c = false

theorem Tight.append {front back : List Char} (hfront : Tight front) (hback : Tight back)
    (middle : List Char) : Tight (front ++ middle ++ back) := by
  obtain ⟨a, ha, hblank⟩ := hfront.first
  obtain ⟨b, hb, hblank'⟩ := hback.last
  refine ⟨⟨a, ?_, hblank⟩, b, ?_, hblank'⟩
  · exact List.mem_head?_append_of_mem_head? (List.mem_head?_append_of_mem_head? ha)
  · exact List.mem_getLast?_append_of_mem_getLast? hb

/-- What is blank around a text is trimmed, and no more. -/
theorem Tight.trim {text whole : List Char} (h : Tight text) (front back : List Char)
    (hfront : front.all isBlank = true) (hback : back.all isBlank = true)
    (hwhole : whole = front ++ text ++ back) : trim isBlank whole = text := by
  rw [List.all_eq_true] at hfront hback
  obtain ⟨a, ha, hblank⟩ := h.first
  obtain ⟨b, hb, hblank'⟩ := h.last
  obtain ⟨more, rfl⟩ := List.head?_eq_some_iff.mp ha
  obtain ⟨begun, hbegun⟩ := List.getLast?_eq_some_iff.mp hb
  rw [hwhole, Text.trim, List.append_assoc, List.dropWhile_append_of_pos hfront, List.cons_append,
    List.dropWhile_cons_of_neg (by simp [hblank]), ← List.cons_append, hbegun, trimBack,
    List.reverse_append, List.dropWhile_append_of_pos fun c hc => hback c (List.mem_reverse.mp hc),
    List.reverse_append, List.reverse_singleton, List.singleton_append,
    List.dropWhile_cons_of_neg (by simp [hblank'])]
  simp

end Text

namespace Toml

/-! ## Characters of keys -/

theorem isKeyChar_cases {c : Char} (h : isKeyChar c = true) :
    48 ≤ c.toNat ∧ c.toNat ≤ 57 ∨ 65 ≤ c.toNat ∧ c.toNat ≤ 90 ∨ 97 ≤ c.toNat ∧ c.toNat ≤ 122 ∨
      c = '_' ∨ c = '-' := by
  rcases Bool.or_eq_true_iff.mp h with h | h
  · rcases Bool.or_eq_true_iff.mp h with h | h
    · have := isAlphanum_cases h
      tauto
    · have := of_decide_eq_true h
      tauto
  · have := of_decide_eq_true h
    tauto

theorem isBlank_keyChar {c : Char} (h : isKeyChar c = true) : Text.isBlank c = false := by
  rcases isKeyChar_cases h with h | h | h | rfl | rfl
  · simp [Text.isBlank]; omega
  · simp [Text.isBlank]; omega
  · simp [Text.isBlank]; omega
  · decide
  · decide

/-- No character of a key means anything else to the walk. -/
theorem keyChar_ne {c : Char} (h : isKeyChar c = true) :
    c ≠ '\n' ∧ c ≠ '\t' ∧ c ≠ ' ' ∧ c ≠ '=' ∧ c ≠ '.' ∧ c ≠ '#' ∧ c ≠ '"' ∧ c ≠ '\'' ∧ c ≠ '[' ∧
      c ≠ ']' ∧ c ≠ '\x7b' := by
  refine ⟨?_, ?_, ?_, ?_, ?_, ?_, ?_, ?_, ?_, ?_, ?_⟩
  all_goals
    rintro rfl
    cases h

theorem isWord_keyChar {c : Char} (h : isKeyChar c = true) : Text.isWord c = true ∨ c = '-' := by
  have hlatin : c.toNat < 128 := by
    rcases isKeyChar_cases h with h | h | h | rfl | rfl
    · omega
    · omega
    · omega
    · decide
    · decide
  simp only [isKeyChar, Bool.or_eq_true, decide_eq_true_eq] at h
  simp [Text.isWord, hlatin, h]

variable {fields : Fields} {f : String × Json}

theorem isKeyChar_of_plain (h : isPlainSetting f = true) :
    ∀ c ∈ f.1.toList, isKeyChar c = true := by
  obtain ⟨hkey, -⟩ := isPlainSetting_cases h
  rw [isBare, Bool.and_eq_true, List.all_eq_true] at hkey
  exact hkey.2

theorem key_ne_nil (h : isPlainSetting f = true) : f.1.toList ≠ [] := by
  obtain ⟨hkey, -⟩ := isPlainSetting_cases h
  rw [isBare, Bool.and_eq_true, bne_iff_ne] at hkey
  exact fun hnil => hkey.1 (String.toList_eq_nil_iff.mp hnil)

theorem notMem_key (h : isPlainSetting f = true) (c : Char) (hc : isKeyChar c = false) :
    c ∉ f.1.toList := by
  intro hmem
  cases hc.symm.trans (isKeyChar_of_plain h c hmem)

/-! ## The walk -/

namespace Scan

variable {s m n : Scan} {piece more : List Char} {c : Char}

/-- The walk goes over a piece of a text from one state to another, whatever follows. -/
def Goes (s : Scan) (piece : List Char) (n : Scan) : Prop :=
  ∀ rest, s.run (piece ++ rest) = n.run rest

theorem Goes.nil : s.Goes [] s := fun _ => rfl

theorem Goes.append (h : s.Goes piece m) (h' : m.Goes more n) : s.Goes (piece ++ more) n := by
  intro rest
  rw [List.append_assoc, h, h']

theorem Goes.cons (hstep : ∀ rest, s.step c rest = .ok m) (h : m.Goes piece n) :
    s.Goes (c :: piece) n := by
  intro rest
  rw [List.cons_append, run, hstep]
  exact h rest

/-- The walk at the beginning of a line. -/
def atLine (passed : List Char) : Scan := { passed }

/-- The walk in a key. -/
def inWord (passed : List Char) : Scan := { passed, key := .word, atStart := false }

/-- The walk in a value, with a quote that may be open. -/
def inValue (quote : Option Char) (passed : List Char) : Scan := { passed, quote, atStart := false }

/-- A piece whose characters do not change where the walk is. -/
theorem goes_of_steps {state : List Char → Scan}
    (h : ∀ c ∈ piece, ∀ passed rest, (state passed).step c rest = .ok (state (c :: passed)))
    (passed : List Char) : (state passed).Goes piece (state (piece.reverse ++ passed)) := by
  induction piece generalizing passed with
  | nil => exact .nil
  | cons c piece ih =>
      obtain ⟨hc, hpiece⟩ := List.forall_mem_cons.mp h
      refine .cons (hc passed) ?_
      simpa using ih hpiece (c :: passed)

variable (passed rest : List Char)

/-! ### Keys -/

theorem step_key_first (h : isKeyChar c = true) :
    (atLine passed).step c rest = .ok (inWord (c :: passed)) := by
  simp [step, atLine, begin?, keyChar_ne h, inWord, pass, bind, Except.bind, pure, Except.pure]

theorem step_key (h : isKeyChar c = true) :
    (inWord passed).step c rest = .ok (inWord (c :: passed)) := by
  simp [step, inWord, inKey, keyChar_ne h, isBlank_keyChar h, isWord_keyChar h, pass, bind,
    Except.bind, pure, Except.pure]

theorem goes_key {word : List Char} (h : ∀ c ∈ word, isKeyChar c = true) :
    (inWord passed).Goes word (inWord (word.reverse ++ passed)) :=
  goes_of_steps (fun c hc passed rest => step_key passed rest (h c hc)) passed

theorem goes_equals :
    (inWord passed).Goes [' ', '=', ' '] (inValue none (' ' :: '=' :: ' ' :: passed)) :=
  fun _ => rfl

/-! ### Values -/

theorem step_word (h : isKeyChar c = true) :
    (inValue none passed).step c rest = .ok (inValue none (c :: passed)) := by
  simp [step, inValue, begin?, keyChar_ne h, pass, bind, Except.bind, pure, Except.pure]

theorem goes_word {word : List Char} (h : ∀ c ∈ word, isKeyChar c = true) :
    (inValue none passed).Goes word (inValue none (word.reverse ++ passed)) :=
  goes_of_steps (fun c hc passed rest => step_word passed rest (h c hc)) passed

theorem step_open :
    (inValue none (' ' :: passed)).step '"' rest =
      .ok (inValue (some '"') ('"' :: ' ' :: passed)) :=
  rfl

theorem step_text (hquote : c ≠ '"') (hline : c ≠ '\n') :
    (inValue (some '"') passed).step c rest = .ok (inValue (some '"') (c :: passed)) := by
  -- a single quote means nothing in double ones
  rcases eq_or_ne c '\'' with rfl | hsingle
  · rfl
  · simp [step, inValue, begin?, hquote, hline, hsingle, atBracket, pass, bind, Except.bind, pure,
      Except.pure]

theorem step_close_empty :
    (inValue (some '"') ('"' :: ' ' :: passed)).step '"' rest =
      .ok (inValue none ('"' :: '"' :: ' ' :: passed)) :=
  rfl

theorem step_close (hquote : c ≠ '"') (hback : c ≠ '\\') :
    (inValue (some '"') (c :: passed)).step '"' rest = .ok (inValue none ('"' :: c :: passed)) := by
  simp [step, inValue, begin?, atQuote, rowOf, isEscaped, hquote, hback, pass, bind,
    Except.bind, pure, Except.pure]

theorem goes_quoted {text : List Char} (h : ∀ c ∈ text, c ≠ '"' ∧ c ≠ '\\' ∧ c ≠ '\n') :
    (inValue none (' ' :: passed)).Goes ('"' :: text ++ ['"'])
      (inValue none (('"' :: text ++ ['"']).reverse ++ ' ' :: passed)) := by
  have htext : (inValue (some '"') ('"' :: ' ' :: passed)).Goes text
      (inValue (some '"') (text.reverse ++ '"' :: ' ' :: passed)) :=
    goes_of_steps (fun c hc passed rest => step_text passed rest (h c hc).1 (h c hc).2.2) _
  refine .cons (step_open passed) (htext.append ?_)
  rcases List.eq_nil_or_concat text with rfl | ⟨front, c, rfl⟩
  · exact .cons (step_close_empty passed) .nil
  · obtain ⟨hquote, hback, -⟩ := h c (by simp)
    simpa using Goes.cons (fun rest => step_close _ rest hquote hback) .nil

/-! ### Lines -/

theorem step_break : (inValue none passed).step '\n' rest = .ok (atLine ('\n' :: passed)) :=
  rfl

/-- The walk goes over a plain setting to the beginning of the next line. -/
theorem goes_line (h : isPlainSetting f = true) :
    (atLine passed).Goes (plainLine f ++ ['\n'])
      (atLine ((plainLine f ++ ['\n']).reverse ++ passed)) := by
  obtain ⟨-, hvalue⟩ := isPlainSetting_cases h
  have hfront : (atLine passed).Goes (f.1.toList ++ [' ', '=', ' '])
      (inValue none (' ' :: '=' :: ' ' :: (f.1.toList.reverse ++ passed))) := by
    refine .append ?_ (goes_equals _)
    have hkey := isKeyChar_of_plain h
    obtain ⟨c, word, hword⟩ := List.exists_cons_of_ne_nil (key_ne_nil h)
    rw [hword] at hkey ⊢
    obtain ⟨hc, hrest⟩ := List.forall_mem_cons.mp hkey
    simpa using Goes.cons (fun rest => step_key_first passed rest hc) (goes_key _ hrest)
  have hback : ∀ passed, (inValue none (' ' :: passed)).Goes (plainValue f.2)
      (inValue none ((plainValue f.2).reverse ++ ' ' :: passed)) := by
    intro passed
    obtain ⟨s, hs, hplain⟩ | ⟨b, hb⟩ := hvalue
    · rw [hs]
      exact goes_quoted _ fun c hc => ne_of_plain hplain hc
    · rw [hb]
      cases b
      · exact goes_word _ (List.all_eq_true.mp (by decide))
      · exact goes_word _ (List.all_eq_true.mp (by decide))
  have hline := (hfront.append (hback _)).append (.cons (step_break _) .nil)
  simpa [plainLine] using hline

theorem goes_lines (h : ∀ f ∈ fields, isPlainSetting f = true) :
    (atLine passed).Goes (fields.flatMap fun f => plainLine f ++ ['\n'])
      (atLine ((fields.flatMap fun f => plainLine f ++ ['\n']).reverse ++ passed)) := by
  induction fields generalizing passed with
  | nil => exact .nil
  | cons f fields ih =>
      obtain ⟨hf, hfields⟩ := List.forall_mem_cons.mp h
      have hall := (goes_line passed hf).append (ih _ hfields)
      rwa [← List.append_assoc, ← List.reverse_append] at hall

end Scan

/-! ## Lines -/

theorem newline_notMem_plainLine (h : isPlainSetting f = true) : '\n' ∉ plainLine f := by
  obtain ⟨-, hvalue⟩ := isPlainSetting_cases h
  have hback : '\n' ∉ plainValue f.2 := by
    obtain ⟨s, hs, hplain⟩ | ⟨b, hb⟩ := hvalue
    · have hno : '\n' ∉ s.toList := fun hc => (ne_of_plain hplain hc).2.2 rfl
      simp [hs, plainValue, hno]
    · rw [hb]
      cases b <;> decide
  simp [plainLine, notMem_key h '\n' (by decide), hback]

/-- The lines of plain settings are those that were written, and the empty one behind them. -/
theorem lines_of_plain (h : ∀ f ∈ fields, isPlainSetting f = true) :
    lines (fields.flatMap fun f => plainLine f ++ ['\n']) = .ok (fields.map plainLine ++ [[]]) := by
  have hcut := Text.cut_lines (List.forall_mem_map.mpr fun f hf =>
    newline_notMem_plainLine (h f hf))
  have hrun := Scan.goes_lines (fields.flatMap fun f => plainLine f ++ ['\n']).reverse h []
  rw [List.flatMap_map] at hcut
  rw [List.append_nil] at hrun
  refine bind_eq_ok.mpr ⟨_, hrun, ?_⟩
  rw [← hcut]
  generalize (fields.flatMap fun f => plainLine f ++ ['\n']) = text
  show Except.ok (Text.cut ['\n'] ((text.reverse ++ text.reverse).reverse.drop text.length)) = _
  simp

/-! ## Keys -/

/-- The key stands in the first piece of a line between its quotes, and so does the sign behind
it. -/
theorem piecesByQuotes_plainLine (h : isPlainSetting f = true) :
    ∃ back more, piecesByQuotes (plainLine f) = (f.1.toList ++ ' ' :: '=' :: back) :: more := by
  obtain ⟨-, ⟨s, hs, hplain⟩ | ⟨b, hb⟩⟩ := isPlainSetting_cases h
  · have hsingle : '\'' ∉ f.1.toList ++ [' ', '=', ' '] := by
      simp [notMem_key h '\'' (by decide)]
    have hdouble : '"' ∉ f.1.toList ++ [' ', '=', ' '] := by
      simp [notMem_key h '"' (by decide)]
    have htext : '"' ∉ s.toList := fun hc => (ne_of_plain hplain hc).1 rfl
    have hline : plainLine f = (f.1.toList ++ [' ', '=', ' ']) ++ '"' :: (s.toList ++ ['"']) := by
      simp [plainLine, hs, plainValue]
    have hcut : Text.cut ['"'] (plainLine f) = [f.1.toList ++ [' ', '=', ' '], s.toList, []] := by
      rw [hline, Text.cut_append hdouble, Text.cut_append htext]
      rfl
    refine ⟨[' '], [s.toList, []], ?_⟩
    simp only [piecesByQuotes, hcut]
    rw [if_neg (by simpa using hsingle)]
    simp [Text.cut_of_notMem hsingle]
  · have hvalue : '"' ∉ plainValue f.2 ∧ '\'' ∉ plainValue f.2 := by
      rw [hb]
      cases b <;> decide
    have hsingle : '\'' ∉ plainLine f := by
      simp [plainLine, notMem_key h '\'' (by decide), hvalue.2]
    have hdouble : '"' ∉ plainLine f := by
      simp [plainLine, notMem_key h '"' (by decide), hvalue.1]
    refine ⟨' ' :: plainValue f.2, [], ?_⟩
    simp only [piecesByQuotes, Text.cut_of_notMem hdouble, Text.cut_of_notMem hsingle]
    rfl

theorem hiddenCount_eq_zero {front back : List Char} {more : List (List Char)} (h : '=' ∉ front) :
    hiddenCount ['='] false ((front ++ '=' :: back) :: more) = 0 := by
  obtain ⟨piece, others, hcut⟩ := List.exists_cons_of_ne_nil
    (Text.cutFrom_ne_nil : Text.cutFrom ['='] 0 back [] ≠ [])
  rw [hiddenCount, Text.cut_append h, Text.cut, hcut]
  rfl

theorem divisions_append {front : List Char} (h : '=' ∉ front) (rest : List Char) :
    ∃ more, divisions (front ++ '=' :: rest) = (front, rest) :: more := by
  induction front with
  | nil => exact ⟨_, rfl⟩
  | cons c front ih =>
      rw [List.mem_cons, not_or] at h
      obtain ⟨more, hmore⟩ := ih h.2
      exact ⟨_, by rw [List.cons_append, divisions, hmore, if_neg (Ne.symm h.1)]; rfl⟩

/-- A plain setting is divided at the sign behind its key. -/
theorem divide_plainLine (h : isPlainSetting f = true) :
    divide (plainLine f) = .ok ((f.1.toList ++ [' '], ' ' :: plainValue f.2),
      isStrict (' ' :: plainValue f.2)) := by
  have hkey : '=' ∉ f.1.toList ++ [' '] := by
    simp [notMem_key h '=' (by decide)]
  have hline : plainLine f = (f.1.toList ++ [' ']) ++ '=' :: ' ' :: plainValue f.2 := by
    simp [plainLine]
  obtain ⟨more, hmore⟩ := divisions_append hkey (' ' :: plainValue f.2)
  have hcount : hiddenCount ['='] false (piecesByQuotes (plainLine f)) = 0 := by
    obtain ⟨back, pieces, hpieces⟩ := piecesByQuotes_plainLine h
    have hpiece : f.1.toList ++ ' ' :: '=' :: back = (f.1.toList ++ [' ']) ++ '=' :: back := by
      simp
    rw [hpieces, hpiece, hiddenCount_eq_zero hkey]
  unfold divide
  rw [hcount, hline, hmore]
  have hlast := List.getLast?_eq_some_getLast
    (List.cons_ne_nil (f.1.toList ++ [' '], ' ' :: plainValue f.2) more)
  refine bind_eq_ok.mpr ⟨_, by rw [hlast]; rfl, ?_⟩
  -- what stands behind the sign begins with a blank, so it is taken for a value
  show chooseDivision (f.1.toList ++ [' '], ' ' :: plainValue f.2) _ _ = _
  unfold chooseDivision
  exact if_pos rfl

theorem namesOf_key (h : isPlainSetting f = true) : namesOf f.1.toList = .ok ([], f.1) := by
  obtain ⟨c, rest, hchars⟩ := List.exists_cons_of_ne_nil (key_ne_nil h)
  have hfirst := keyChar_ne (isKeyChar_of_plain h c (hchars ▸ List.mem_cons_self))
  unfold namesOf
  rw [if_neg (by simpa using notMem_key h '.' (by decide)), hchars]
  refine bind_eq_ok.mpr ⟨c, rfl, ?_⟩
  rw [if_neg (by simp [hfirst]), ← hchars, String.ofList_toList]
  rfl

theorem tight_key (h : isPlainSetting f = true) : Text.Tight f.1.toList := by
  have hne := key_ne_nil h
  have hblank : ∀ c ∈ f.1.toList, Text.isBlank c = false := fun c hc =>
    isBlank_keyChar (isKeyChar_of_plain h c hc)
  exact ⟨⟨_, List.head_mem_head? hne, hblank _ (List.head_mem hne)⟩,
    _, List.getLast_mem_getLast? hne, hblank _ (List.getLast_mem hne)⟩

theorem tight_plainValue (h : isPlainSetting f = true) : Text.Tight (plainValue f.2) := by
  obtain ⟨-, ⟨s, hs, -⟩ | ⟨b, hb⟩⟩ := isPlainSetting_cases h
  · rw [hs]
    exact ⟨⟨'"', rfl, by decide⟩, '"', List.getLast?_concat, by decide⟩
  · rw [hb]
    cases b
    · exact ⟨⟨'f', rfl, by decide⟩, 'e', rfl, by decide⟩
    · exact ⟨⟨'t', rfl, by decide⟩, 'e', rfl, by decide⟩

theorem tight_plainLine (h : isPlainSetting f = true) : Text.Tight (plainLine f) := by
  have hline : plainLine f = f.1.toList ++ [' ', '=', ' '] ++ plainValue f.2 := by
    simp [plainLine]
  rw [hline]
  exact (tight_key h).append (tight_plainValue h) _

/-- A plain setting is read off its line. -/
theorem ofLine_plainLine (h : isPlainSetting f = true) :
    ∃ strict, Assignment.ofLine (plainLine f) =
      .ok { tables := [], name := f.1, text := plainValue f.2, strict } := by
  have hname : Text.trim Text.isBlank (f.1.toList ++ [' ']) = f.1.toList :=
    (tight_key h).trim [] [' '] rfl (by decide) rfl
  have htext : Text.trim Text.isBlank (' ' :: plainValue f.2) = plainValue f.2 :=
    (tight_plainValue h).trim [' '] [] (by decide) rfl (by simp)
  refine ⟨isStrict (' ' :: plainValue f.2), bind_eq_ok.mpr ⟨_, divide_plainLine h, ?_⟩⟩
  dsimp only
  rw [hname, namesOf_key h, htext]
  rfl

/-! ## Values -/

theorem leavesOpen_plainValue (h : isPlainSetting f = true) :
    leavesOpen (plainValue f.2) = .ok false := by
  obtain ⟨-, ⟨s, hs, hplain⟩ | ⟨b, hb⟩⟩ := isPlainSetting_cases h
  · rw [hs, plainValue]
    cases hchars : s.toList with
    | nil => rfl
    | cons c rest =>
        have hquote : c ≠ '"' := (ne_of_plain hplain (hchars ▸ List.mem_cons_self)).1
        simp [leavesOpen, requireChar, hquote, bind, Except.bind, pure, Except.pure]
  · rw [hb]
    cases b <;> rfl

theorem unescape_of_notMem {text : List Char} (h : '\\' ∉ text) : unescape text = .ok text := by
  induction text with
  | nil => rfl
  | cons c rest ih =>
      rw [List.mem_cons, not_or] at h
      rw [unescape, ih h.2]
      · rfl
      · rintro d more rfl
        exact absurd rfl h.1

theorem isClosedOnce_quoted {text : List Char} (hquote : '"' ∉ text) (hback : '\\' ∉ text) :
    isClosedOnce '"' ('"' :: text ++ ['"']) = true := by
  have hcut : Text.cut ['"'] (text ++ ['"']) = [text, []] := by
    rw [Text.cut_append hquote]
    rfl
  rw [isClosedOnce, List.cons_append, List.drop_one, List.tail_cons, hcut]
  cases text with
  | nil => rfl
  | cons c rest =>
      have hescaped : endsEscaped (c :: rest) = false := by
        have hnone : (c :: rest).reverse.takeWhile (· = '\\') = [] := by
          refine List.takeWhile_eq_nil_iff.mpr fun hlength => ?_
          have hmem := List.mem_reverse.mp (List.getElem_mem hlength)
          rw [decide_eq_true_eq]
          intro heq
          exact hback (heq ▸ hmem)
        rw [endsEscaped, hnone]
        rfl
      simp [Closing.next, hescaped]

theorem dropQuotes_quoted {text : List Char} (hquote : '"' ∉ text) :
    dropQuotes '"' ('"' :: text ++ ['"']) = text := by
  match text with
  | [] => rfl
  | [c] =>
      rw [List.mem_singleton] at hquote
      simp [dropQuotes, Ne.symm hquote]
  | c :: d :: rest =>
      rw [List.mem_cons, not_or] at hquote
      have hlast : (c :: d :: rest ++ ['"']).dropLast = c :: d :: rest := List.dropLast_concat
      simpa [dropQuotes, Ne.symm hquote.1] using hlast

theorem readQuoted_of_plain {s : String} (h : isPlain s = true) :
    readQuoted '"' ('"' :: s.toList ++ ['"']) = .ok s := by
  have hquote : '"' ∉ s.toList := fun hc => (ne_of_plain h hc).1 rfl
  have hno : '\\' ∉ s.toList := fun hc => (ne_of_plain h hc).2.1 rfl
  have hback : '\\' ∉ '"' :: s.toList ++ ['"'] := by simp [hno]
  have hcut : ∀ letters,
      Text.cut ('\\' :: letters) ('"' :: s.toList ++ ['"']) = ['"' :: s.toList ++ ['"']] :=
    fun letters => Text.cutFrom_of_first_notMem hback
  have hcodes : ∀ letter width,
      withCodes letter width ('"' :: s.toList ++ ['"']) = .ok ('"' :: s.toList ++ ['"']) := by
    intro letter width
    rw [withCodes, hcut]
    show Except.ok ('"' :: s.toList ++ ['"'] ++ []) = _
    rw [List.append_nil]
  rw [readQuoted, isClosedOnce_quoted hquote hno, hcut]
  show (withCodes 'u' 4 ('"' :: s.toList ++ ['"']) >>= fun text => withCodes 'U' 8 text >>=
    fun text => unescape text >>= fun text => pure (String.ofList (dropQuotes '"' text))) = .ok s
  refine bind_eq_ok.mpr ⟨_, hcodes 'u' 4, bind_eq_ok.mpr ⟨_, hcodes 'U' 8,
    bind_eq_ok.mpr ⟨_, unescape_of_notMem hback, ?_⟩⟩⟩
  rw [dropQuotes_quoted hquote, String.ofList_toList]
  rfl

theorem readItem_plainValue (h : isPlainSetting f = true) (fuel : Nat) (strict : Bool) :
    ∃ kind, readItem (fuel + 1) strict (plainValue f.2) = .ok ⟨kind, f.2⟩ := by
  obtain ⟨-, ⟨s, hs, hplain⟩ | ⟨b, hb⟩⟩ := isPlainSetting_cases h
  · refine ⟨.text, ?_⟩
    rw [hs, plainValue, readItem]
    refine bind_eq_ok.mpr ⟨'"', rfl, ?_⟩
    rw [if_neg (by simp), if_neg (by simp), if_pos (by decide), readQuoted_of_plain hplain]
    rfl
  · refine ⟨.truth, ?_⟩
    rw [hb]
    cases b <;> rfl

/-! ## Tables -/

theorem readSetting_plainLine (h : isPlainSetting f = true) (hnew : fields.lookup f.1 = none)
    (fuel : Nat) : readSetting (fuel + 2) (plainLine f) (.obj fields) =
      .ok (.obj (fields ++ [f]), none) := by
  obtain ⟨strict, hline⟩ := ofLine_plainLine h
  obtain ⟨kind, hitem⟩ := readItem_plainValue h fuel strict
  rw [readSetting]
  refine bind_eq_ok.mpr ⟨_, hline, ?_⟩
  rw [within]
  refine bind_eq_ok.mpr ⟨_, leavesOpen_plainValue h, bind_eq_ok.mpr ⟨_, hitem, ?_⟩⟩
  rw [setOnce, hnew]
  rfl

/-- The line of a plain setting adds it to a table that has none of its name. -/
theorem add_plainLine (h : isPlainSetting f = true) (hnew : fields.lookup f.1 = none) :
    ({ root := .obj fields } : Settings).add (plainLine f) =
      .ok { root := .obj (fields ++ [f]) } := by
  have htrim : Text.trim Text.isBlank (plainLine f) = plainLine f :=
    (tight_plainLine h).trim [] [] rfl rfl (by simp)
  have hequals : '=' ∈ plainLine f := by simp [plainLine]
  have hread := readSetting_plainLine h hnew (3 * (plainLine f).length + 2)
  obtain ⟨c, rest, hkey⟩ := List.exists_cons_of_ne_nil (key_ne_nil h)
  have hchars : plainLine f = c :: (rest ++ ' ' :: '=' :: ' ' :: plainValue f.2) := by
    rw [plainLine, hkey, List.cons_append]
  have hfirst := keyChar_ne (isKeyChar_of_plain h c (hkey ▸ List.mem_cons_self))
  rw [Settings.add]
  dsimp only
  rw [htrim]
  split
  · next heq => cases hchars.symm.trans heq
  · next heq => exact absurd (List.cons.inj (hchars.symm.trans heq)).1 (by simp [hfirst])
  · next heq => exact absurd (List.cons.inj (hchars.symm.trans heq)).1 (by simp [hfirst])
  · next heq => exact absurd (List.cons.inj (hchars.symm.trans heq)).1 (by simp [hfirst])
  · rw [if_neg (by simp [hequals])]
    exact bind_eq_ok.mpr ⟨_, bind_eq_ok.mpr ⟨_, hread, rfl⟩, rfl⟩

/-- Reading the text that some settings are written as gives these settings. -/
def Undoes (fields : Fields) : Prop :=
  ∀ text, write fields = .ok text → read text = .ok fields

/-- Plain settings with different keys are read as they were written. -/
theorem undoes_of_plain (h : ∀ f ∈ fields, isPlainSetting f = true)
    (hkeys : (fields.map (·.1)).Nodup) : Undoes fields := by
  intro text hwrite
  rw [write_of_plain h] at hwrite
  obtain rfl := Except.ok.inj hwrite
  -- the lines that are left are added to the settings of those in front of them
  have hadd : ∀ before after : Fields, before ++ after = fields →
      (after.map plainLine ++ [[]]).foldlM Settings.add { root := .obj before } =
        .ok { root := .obj fields } := by
    intro before after
    induction after generalizing before with
    | nil =>
        intro heq
        rw [List.append_nil] at heq
        subst heq
        rfl
    | cons f after ih =>
        intro heq
        have hf : f ∈ fields := heq ▸ (by simp)
        have hnew : before.lookup f.1 = none := by
          rw [List.lookup_eq_none_iff]
          intro g hg
          rw [← heq, List.map_append, List.map_cons] at hkeys
          have hne := (List.nodup_append.mp hkeys).2.2 g.1 (List.mem_map_of_mem hg) f.1
            List.mem_cons_self
          simpa using hne.symm
        rw [List.map_cons, List.cons_append, List.foldlM_cons]
        exact bind_eq_ok.mpr
          ⟨_, add_plainLine (h f hf) hnew, ih (before ++ [f]) (by simpa using heq)⟩
  rw [read, String.toList_ofList]
  exact bind_eq_ok.mpr ⟨_, lines_of_plain h, bind_eq_ok.mpr ⟨_, hadd [] fields rfl, rfl⟩⟩

end Toml

end ApiScaffold
