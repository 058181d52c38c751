import FormalLang.Proofs.Automaton.Reading

/-!
# Reading what has been written

The text of an automaton has three lines with headers and then one line for each transition, and each line is read back as
it was written. A symbol that the format cannot express makes its line say nothing; if the symbol is itself a line end, that holds
for what stands before it.

* `AutomatonText.toList_automatonText`: the text of an automaton as lines.
* `AutomatonText.read_automatonText`: what is read from the text of an automaton.
* `AutomatonText.read_automatonText_eq_error`: symbols that cannot be expressed are refused.
-/

namespace FormalLang

variable {a : Symbol} {cs : List Char}

/-! ## Lines -/

theorem isLineEnd_of_mem_transitionText (ha : ∀ c ∈ a.toList, Text.isLineEnd c = false) (p q : Nat) :
    ∀ c ∈ (transitionText (p, a, q)).toList, Text.isLineEnd c = false := by
  rw [transitionText]
  split
  · simp only [String.toList_append, List.forall_mem_append]
    exact ⟨⟨Text.isLineEnd_of_mem_toString p, Text.isLineEnd_eq_false_of_all (by decide)⟩, Text.isLineEnd_of_mem_toString q⟩
  · simp only [String.toList_append, List.forall_mem_append]
    exact ⟨⟨⟨Text.isLineEnd_of_mem_toString p, Text.isLineEnd_eq_false_of_all (by decide)⟩, ha⟩,
      ⟨Text.isLineEnd_eq_false_of_all (by decide), Text.isLineEnd_of_mem_toString q⟩⟩

theorem Line.IsWritable.isLineEnd (h : Line.IsWritable a) : ∀ c ∈ a.toList, Text.isLineEnd c = false := by
  rcases h with rfl | ⟨c, hc, rfl⟩
  · exact Text.isLineEnd_eq_false_of_all (by decide)
  · rw [String.toList_singleton]
    exact List.forall_mem_singleton.mpr (Text.isLineEnd_eq_false_of_isAlphanum hc)

/-- The first line of what begins with a transition on another character says nothing. -/
theorem exists_lines_of_not_isWritable {c : Char} (hc : c.isAlphanum = false) (hne : c ≠ 'ε') (p q : Nat) (cs : List Char) :
    ∃ l ls, Text.lines ((transitionText (p, String.singleton c, q)).toList ++ '\n' :: cs) = l :: ls ∧
      Line.ofChars? l = none := by
  by_cases hend : Text.isLineEnd c = true
  · -- The character ends the line, which is cut before it.
    have hcut : ∀ x ∈ (toString p).toList ++ (" --".toList ++ [' ', '\'']), Text.isLineEnd x = false := by
      rw [List.forall_mem_append]
      exact ⟨Text.isLineEnd_of_mem_toString p, Text.isLineEnd_eq_false_of_all (by decide)⟩
    rw [Line.toList_transitionText hne, List.append_assoc]
    obtain ⟨ls, hls⟩ := Text.lines_append_lineEnd hcut hend
      ('\'' :: ' ' :: ("--> ".toList ++ (toString q).toList) ++ '\n' :: cs)
    exact ⟨_, ls, hls, Line.ofChars?_cut p⟩
  · have hline : ∀ x ∈ (String.singleton c).toList, Text.isLineEnd x = false := by
      rw [String.toList_singleton]
      exact List.forall_mem_singleton.mpr (Bool.eq_false_iff.mpr hend)
    obtain ⟨ls, hls⟩ := Text.lines_append_lineEnd (isLineEnd_of_mem_transitionText hline p q) (c := '\n') (by decide) cs
    exact ⟨_, ls, hls, Line.ofChars?_transition_eq_none hc hne p q⟩

namespace AutomatonText

variable {count start : Nat} {accept : OrderedSet Nat} {ts : List (Nat × Symbol × Nat)} {d : Draft}

/-- The line of a header. -/
def headerLine (h : Header) (value : List Char) : List Char := h.name.toList ++ ':' :: ' ' :: value

/-- The written value of each header. -/
def headerValue (count start : Nat) (accept : OrderedSet Nat) : Header → List Char
  | .startState => (toString start).toList
  | .endStates => (Text.listing (accept.toList.map toString)).toList
  | .numStates => (toString count).toList

/-- The lines of the headers. -/
def headerLines (count start : Nat) (accept : OrderedSet Nat) : List (List Char) :=
  [Header.startState, .endStates, .numStates].map fun h => headerLine h (headerValue count start accept h)

/-- The text of an automaton is its lines, each ended by a line feed. -/
theorem toList_automatonText (count start : Nat) (accept : OrderedSet Nat) (ts : List (Nat × Symbol × Nat)) :
    (automatonText count start accept ts).toList =
      (headerLines count start accept ++ ts.map fun t => (transitionText t).toList).flatMap (· ++ ['\n']) := by
  rw [automatonText, Text.toList_intercalate_lines (by simp), List.map_append, List.map_map]
  simp only [List.map_cons, String.toList_append]
  rfl

theorem isLineEnd_of_mem_headerValue (h : Header) : ∀ c ∈ headerValue count start accept h, Text.isLineEnd c = false := by
  cases h with
  | startState => exact Text.isLineEnd_of_mem_toString start
  | endStates => exact isLineEnd_of_mem_listing accept.toList
  | numStates => exact Text.isLineEnd_of_mem_toString count

theorem trim_headerValue (h : Header) : Text.trim (headerValue count start accept h) = headerValue count start accept h := by
  cases h with
  | startState => exact Text.trim_toString start
  | endStates => exact trim_listing accept.toList
  | numStates => exact Text.trim_toString count

theorem isLineEnd_of_mem_headerLines : ∀ l ∈ headerLines count start accept, ∀ c ∈ l, Text.isLineEnd c = false := by
  intro l hl
  obtain ⟨h, -, rfl⟩ := List.mem_map.mp hl
  rw [headerLine, List.forall_mem_append, List.forall_mem_cons, List.forall_mem_cons]
  refine ⟨?_, by decide, by decide, isLineEnd_of_mem_headerValue h⟩
  cases h
  all_goals exact Text.isLineEnd_eq_false_of_all (by decide)

/-- The lines of a text that begins with the headers and some transitions. -/
theorem lines_written (hts : ∀ t ∈ ts, Line.IsWritable t.2.1) (cs : List Char) :
    Text.lines ((headerLines count start accept ++ ts.map fun t => (transitionText t).toList).flatMap (· ++ ['\n']) ++ cs) =
      (headerLines count start accept ++ ts.map fun t => (transitionText t).toList) ++ Text.lines cs := by
  refine Text.lines_flatMap_append (List.forall_mem_append.mpr ⟨isLineEnd_of_mem_headerLines, fun l hl => ?_⟩) cs
  obtain ⟨t, ht, rfl⟩ := List.mem_map.mp hl
  exact isLineEnd_of_mem_transitionText (hts t ht).isLineEnd t.1 t.2.2

/-! ## The draft -/

/-- The lines of some transitions, the first one behind `k` other lines. -/
def numbered (k : Nat) (ts : List (Nat × Symbol × Nat)) : List TransitionLine :=
  (ts.zipIdx k).map fun ((p, a, q), i) => ⟨i + 1, p, a, q⟩

theorem addLine_headerLine {h : Header} (hnew : d.headers.contains h = false) (k : Nat) :
    d.addLine k (headerLine h (headerValue count start accept h)) =
      .ok { d with headers := d.headers.insert h (k, headerValue count start accept h) } := by
  rw [Draft.addLine, headerLine, Line.ofChars?_header, trim_headerValue]
  dsimp only
  rw [hnew]
  rfl

theorem addLine_transitionText {p q : Nat} (ha : Line.IsWritable a) (hp : p < 10 ^ Text.maxDigits)
    (hq : q < 10 ^ Text.maxDigits) (d : Draft) (k : Nat) : d.addLine k (transitionText (p, a, q)).toList =
      .ok { d with transitions := d.transitions ++ [⟨k, p, a, q⟩] } := by
  rw [Draft.addLine, Line.ofChars?_transition ha]
  dsimp only
  rw [readNumber, readNumber, Text.readNumeral_toString hp, Text.readNumeral_toString hq]
  rfl

/-- The draft of the headers. -/
def headerDraft (count start : Nat) (accept : OrderedSet Nat) : Draft :=
  { headers := (((∅ : Table Header (Nat × List Char)).insert .startState (1, headerValue count start accept .startState)).insert
      .endStates (2, headerValue count start accept .endStates)).insert .numStates (3, headerValue count start accept .numStates) }

theorem ofLines_headerLines : Draft.ofLines (headerLines count start accept) = .ok (headerDraft count start accept) := by
  refine bind_eq_ok_iff.mpr ⟨_, addLine_headerLine rfl 1, ?_⟩
  refine bind_eq_ok_iff.mpr ⟨_, addLine_headerLine rfl 2, ?_⟩
  exact bind_eq_ok_iff.mpr ⟨_, addLine_headerLine rfl 3, rfl⟩

theorem ofLines_append (ls ms : List (List Char)) : Draft.ofLines (ls ++ ms) =
    Draft.ofLines ls >>= (ms.zipIdx ls.length).foldlM fun d (cs, i) => d.addLine (i + 1) cs := by
  rw [Draft.ofLines, List.zipIdx_append, List.foldlM_append, Nat.zero_add]
  rfl

/-- The lines of transitions add the transitions. -/
theorem foldlM_addLine_transitionText
    (hts : ∀ t ∈ ts, t.1 < 10 ^ Text.maxDigits ∧ Line.IsWritable t.2.1 ∧ t.2.2 < 10 ^ Text.maxDigits) (k : Nat) (d : Draft) :
    ((ts.map fun t => (transitionText t).toList).zipIdx k).foldlM (fun d (cs, i) => d.addLine (i + 1) cs) d =
      .ok { d with transitions := d.transitions ++ numbered k ts } := by
  induction ts generalizing k d with
  | nil =>
    show Except.ok d = .ok { d with transitions := d.transitions ++ [] }
    rw [List.append_nil]
  | cons t ts ih =>
    obtain ⟨⟨hp, ha, hq⟩, hts⟩ := List.forall_mem_cons.mp hts
    rw [List.map_cons, List.zipIdx_cons, List.foldlM_cons]
    refine bind_eq_ok_iff.mpr ⟨_, addLine_transitionText ha hp hq d (k + 1), ?_⟩
    rw [ih hts]
    simp [numbered]

/-- The lines of an automaton say its headers and its transitions. -/
theorem ofLines_written
    (hts : ∀ t ∈ ts, t.1 < 10 ^ Text.maxDigits ∧ Line.IsWritable t.2.1 ∧ t.2.2 < 10 ^ Text.maxDigits) :
    Draft.ofLines (headerLines count start accept ++ ts.map fun t => (transitionText t).toList) =
      .ok { headerDraft count start accept with transitions := numbered 3 ts } := by
  rw [ofLines_append, ofLines_headerLines]
  exact foldlM_addLine_transitionText hts 3 (headerDraft count start accept)

/-- A line that says nothing is the fault of a text if the lines before it are in order. -/
theorem ofLines_eq_error {ls : List (List Char)} {l : List Char} (hls : Draft.ofLines ls = .ok d)
    (hl : Line.ofChars? l = none) (ms : List (List Char)) :
    Draft.ofLines (ls ++ l :: ms) = .error (.format (.malformedLine (Text.trim l)) (some (ls.length + 1))) := by
  rw [ofLines_append, hls, List.zipIdx_cons]
  show (d.addLine (ls.length + 1) l >>= _) = _
  rw [Draft.addLine, hl]
  rfl

/-! ## Values -/

theorem readState_toString {n : Nat} (h : n < 10 ^ Text.maxDigits) (k : Nat) : readState k (toString n).toList = .ok n := by
  have hlike : (toString n).toList.all Text.isDigitLike = true :=
    List.all_eq_true.mpr fun c hc => Text.isDigitLike_of_isDecimalDigit (Text.isDecimalDigit_of_mem_toString hc)
  have hne : (toString n).toList.isEmpty = false := List.isEmpty_eq_false_iff.mpr (Text.toList_toString_ne_nil n)
  rw [readState, hlike, hne, readNumber, Text.readNumeral_toString h]
  rfl

theorem readStates_listing {qs : List Nat} (h : ∀ q ∈ qs, q < 10 ^ Text.maxDigits) (k : Nat) :
    readStates k (Text.listing (qs.map toString)).toList = .ok qs := by
  rw [readStates, stateList?_listing]
  refine mapM_eq_ok_iff.mpr ?_
  cases qs with
  | nil => exact .nil
  | cons q qs =>
    obtain ⟨hq, hqs⟩ := List.forall_mem_cons.mp h
    refine .cons ?_ (List.forall₂_map_left_iff.mpr (List.forall₂_same.mpr fun p hp => ?_))
    · rw [readNumber, Text.readNumeral_toString hq]
      rfl
    · rw [readNumber, Text.readNumeral_space_toString (hqs p hp)]
      rfl

/-! ## Texts -/

theorem map_numbered (k : Nat) (ts : List (Nat × Symbol × Nat)) :
    (numbered k ts).map (fun e => (e.source, e.symbol, e.target)) = ts := by
  rw [numbered, List.map_map]
  exact List.zipIdx_map_fst k ts

theorem mem_of_mem_numbered {k : Nat} {e : TransitionLine} (h : e ∈ numbered k ts) : (e.source, e.symbol, e.target) ∈ ts := by
  rw [← map_numbered k ts]
  exact List.mem_map.mpr ⟨e, h, rfl⟩

/-- The tables of an automaton whose symbols can be expressed are read back from its text. -/
theorem read_automatonText (hcount : count < 10 ^ Text.maxDigits) (hstart : start < count) (haccept : ∀ q ∈ accept, q < count)
    (hts : ∀ t ∈ ts, t.1 < count ∧ Line.IsWritable t.2.1 ∧ t.2.2 < count) :
    read (automatonText count start accept ts) = .ok ⟨count, start, accept.toList, numbered 3 ts⟩ := by
  have hlines : Text.lines (automatonText count start accept ts).toList =
      headerLines count start accept ++ ts.map fun t => (transitionText t).toList := by
    have hlines := @lines_written count start accept ts (fun t ht => (hts t ht).2.1) []
    rwa [List.append_nil, Text.lines_nil, List.append_nil, ← toList_automatonText] at hlines
  have hdraft : Draft.ofLines (Text.lines (automatonText count start accept ts).toList) =
      .ok { headerDraft count start accept with transitions := numbered 3 ts } := by
    rw [hlines]
    refine ofLines_written fun t ht => ?_
    obtain ⟨hp, ha, hq⟩ := hts t ht
    exact ⟨hp.trans hcount, ha, hq.trans hcount⟩
  refine bind_eq_ok_iff.mpr ⟨_, hdraft, ?_⟩
  refine bind_eq_ok_iff.mpr ⟨(1, headerValue count start accept .startState), rfl, ?_⟩
  refine bind_eq_ok_iff.mpr ⟨(2, headerValue count start accept .endStates), rfl, ?_⟩
  refine bind_eq_ok_iff.mpr ⟨(3, headerValue count start accept .numStates), rfl, ?_⟩
  refine bind_eq_ok_iff.mpr ⟨count, readState_toString hcount 3, ?_⟩
  refine bind_eq_ok_iff.mpr ⟨start, readState_toString (hstart.trans hcount) 1, ?_⟩
  refine bind_eq_ok_iff.mpr ⟨accept.toList, readStates_listing (fun q hq => (haccept q hq).trans hcount) 2, ?_⟩
  refine bind_eq_ok_iff.mpr ⟨(), checkRange_eq_ok_iff.mpr hstart, ?_⟩
  refine bind_eq_ok_iff.mpr ⟨(), forM_eq_ok_iff.mpr fun q hq => checkRange_eq_ok_iff.mpr (haccept q hq), ?_⟩
  refine bind_eq_ok_iff.mpr ⟨(), forM_eq_ok_iff.mpr fun e he => ?_, rfl⟩
  obtain ⟨hp, -, hq⟩ := hts _ (mem_of_mem_numbered he)
  exact bind_eq_ok_iff.mpr ⟨(), checkRange_eq_ok_iff.mpr hp, checkRange_eq_ok_iff.mpr hq⟩

theorem read_eq_error {text : String} {e : LoadError} (h : Draft.ofLines (Text.lines text.toList) = .error e) :
    read text = .error e := by
  rw [read, h]
  rfl

/-- A symbol of one character that cannot be expressed is neither ε nor an ASCII letter or digit. -/
theorem exists_of_not_isWritable (hsymbol : a = epsilon ∨ ∃ c, a = String.singleton c) (h : ¬ Line.IsWritable a) :
    ∃ c : Char, a = String.singleton c ∧ c.isAlphanum = false ∧ c ≠ 'ε' := by
  obtain ⟨hε, halphanum⟩ := not_or.mp h
  obtain ⟨c, rfl⟩ := hsymbol.resolve_left hε
  refine ⟨c, rfl, Bool.eq_false_iff.mpr fun hc => halphanum ⟨c, hc, rfl⟩, ?_⟩
  rintro rfl
  exact hε rfl

/-- Transitions can be cut at the first one whose symbol cannot be expressed. -/
theorem exists_first_not_isWritable (h : ∃ t ∈ ts, ¬ Line.IsWritable t.2.1) :
    ∃ before t behind, ts = before ++ t :: behind ∧ (∀ t ∈ before, Line.IsWritable t.2.1) ∧ ¬ Line.IsWritable t.2.1 := by
  induction ts with
  | nil =>
    obtain ⟨t, ht, -⟩ := h
    contradiction
  | cons t ts ih =>
    by_cases htw : Line.IsWritable t.2.1
    · obtain ⟨u, hu, hbad⟩ := h
      have hu : u ∈ ts := (List.mem_cons.mp hu).resolve_left fun heq => hbad (heq ▸ htw)
      obtain ⟨before, v, behind, rfl, hbefore, hv⟩ := ih ⟨u, hu, hbad⟩
      exact ⟨t :: before, v, behind, rfl, List.forall_mem_cons.mpr ⟨htw, hbefore⟩, hv⟩
    · exact ⟨[], t, ts, rfl, fun _ h => absurd h List.not_mem_nil, htw⟩

/-- The lines of a text are those of its headers and first transitions, and then those of what follows. -/
theorem lines_cut {before behind : List (Nat × Symbol × Nat)} {t : Nat × Symbol × Nat} {ls : List (List Char)}
    (hbefore : ∀ t ∈ before, Line.IsWritable t.2.1)
    (hls : Text.lines ((transitionText t).toList ++ '\n' ::
      (behind.map fun t => (transitionText t).toList).flatMap (· ++ ['\n'])) = ls) : Text.lines (automatonText count start accept (before ++ t :: behind)).toList =
      (headerLines count start accept ++ before.map fun t => (transitionText t).toList) ++ ls := by
  rw [toList_automatonText, List.map_append, ← List.append_assoc, List.flatMap_append, lines_written hbefore, List.map_cons,
    List.flatMap_cons, List.append_assoc (transitionText t).toList, List.singleton_append, hls]

/-- The text of an automaton with a symbol of one character that cannot be expressed is refused. -/
theorem read_automatonText_eq_error (hts : ∀ t ∈ ts, t.1 < 10 ^ Text.maxDigits ∧ t.2.2 < 10 ^ Text.maxDigits)
    (hsymbol : ∀ t ∈ ts, t.2.1 = epsilon ∨ ∃ c, t.2.1 = String.singleton c) (hnot : ∃ t ∈ ts, ¬ Line.IsWritable t.2.1) :
    ∃ l k, read (automatonText count start accept ts) = .error (.format (.malformedLine l) (some k)) := by
  obtain ⟨before, ⟨p, a, q⟩, behind, rfl, hbefore, hbad⟩ := exists_first_not_isWritable hnot
  obtain ⟨c, rfl, hc, hne⟩ := exists_of_not_isWritable (hsymbol (p, a, q) (by simp)) hbad
  obtain ⟨l, ls, hls, hl⟩ := exists_lines_of_not_isWritable hc hne p q
    ((behind.map fun t => (transitionText t).toList).flatMap (· ++ ['\n']))
  have hdraft : Draft.ofLines (headerLines count start accept ++ before.map fun t => (transitionText t).toList) = _ :=
    ofLines_written fun t ht => by
      obtain ⟨hp, hq⟩ := hts t (List.mem_append_left _ ht)
      exact ⟨hp, hbefore t ht, hq⟩
  exact ⟨Text.trim l, _, read_eq_error (lines_cut hbefore hls ▸ ofLines_eq_error hdraft hl ls)⟩

end AutomatonText

end FormalLang
