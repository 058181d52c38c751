import FormalLang.Proofs.Automaton.Loading
import FormalLang.Proofs.Dfa.AsNfa

/-!
# One text, two automata

Both automata of a text come from its transitions in the order of their lines. A line that the deterministic automaton
refuses is silent or gives a second target for a state and a symbol. As long as none is refused, each line does the same to
the rows of both automata, if the one target of a symbol is taken for the set of it. A line that is given twice changes neither.

* `AutomatonText.mem_transitions_iff`: the transitions of a text are those that stand in its lines.
* `AutomatonText.isDeterministic_of_ok`, `exists_refused_of_error`: when the transitions can be entered.
* `AutomatonText.link_of_addDeterministic`, `linkAll_of_foldlM`: the rows of both automata after one line and after all.
* `load_agree`: the two automata of a text.
-/

namespace FormalLang

/-! ## The lines of a text -/

/-- The line says the transition, with the numbers that it writes. -/
def TransitionLine.IsSaidBy (e : TransitionLine) (cs : List Char) : Prop :=
  ∃ source target, Line.ofChars? cs = some (.transition source e.symbol target) ∧
    AutomatonText.readNumber source = .ok e.source ∧ AutomatonText.readNumber target = .ok e.target

/-- The line of the text with the number of the transition says the transition. Lines are numbered from one. -/
def TransitionLine.StandsIn (e : TransitionLine) (text : String) : Prop :=
  ∃ i cs, (Text.lines text.toList)[i]? = some cs ∧ e.line = i + 1 ∧ e.IsSaidBy cs

namespace AutomatonText

variable {text : String} {t : AutomatonText} {cs : List Char} {k : Nat} {d d' : Draft} {e : TransitionLine}

/-- A line adds the transition that it says. -/
theorem mem_transitions_addLine (h : d.addLine k cs = .ok d') :
    e ∈ d'.transitions ↔ e ∈ d.transitions ∨ e.line = k ∧ e.IsSaidBy cs := by
  have hother : ∀ l, Line.ofChars? cs = some l → (∀ s a t, l ≠ .transition s a t) → ¬ e.IsSaidBy cs := by
    rintro l hl hne ⟨s, t, hs, -⟩
    exact hne s _ t (Option.some.inj (hl.symm.trans hs))
  unfold Draft.addLine at h
  split at h
  · contradiction
  · next hl =>
    have hne : ∀ s a t, Line.blank ≠ .transition s a t := by rintro _ _ _ ⟨⟩
    obtain rfl := Except.ok.inj h
    exact (or_iff_left fun he => hother _ hl hne he.2).symm
  · next header value hl =>
    split at h
    · contradiction
    · have hne : ∀ s a t, Line.header header value ≠ .transition s a t := by rintro _ _ _ ⟨⟩
      obtain rfl := Except.ok.inj h
      exact (or_iff_left fun he => hother _ hl hne he.2).symm
  · next s a t hl =>
    obtain ⟨p, hp, h⟩ := bind_eq_ok_iff.mp h
    obtain ⟨q, hq, h⟩ := bind_eq_ok_iff.mp h
    obtain rfl := Except.ok.inj h
    rw [List.mem_append, List.mem_singleton]
    refine or_congr_right ⟨?_, ?_⟩
    · rintro rfl
      exact ⟨rfl, s, t, hl, hp, hq⟩
    · rintro ⟨hk, s', t', hl', hp', hq'⟩
      obtain ⟨rfl, rfl, rfl⟩ := Line.transition.inj (Option.some.inj (hl.symm.trans hl'))
      obtain rfl := Except.ok.inj (hp.symm.trans hp')
      obtain rfl := Except.ok.inj (hq.symm.trans hq')
      subst hk
      rfl

theorem mem_transitions_foldlM {ls : List (List Char × Nat)}
    (h : ls.foldlM (fun d (cs, i) => d.addLine (i + 1) cs) d = .ok d') :
    e ∈ d'.transitions ↔ e ∈ d.transitions ∨ ∃ l ∈ ls, e.line = l.2 + 1 ∧ e.IsSaidBy l.1 := by
  induction ls generalizing d with
  | nil =>
    obtain rfl := Except.ok.inj h
    simp
  | cons l ls ih =>
    rw [List.foldlM_cons] at h
    obtain ⟨mid, hmid, h⟩ := bind_eq_ok_iff.mp h
    rw [ih h, mem_transitions_addLine hmid, List.exists_mem_cons_iff, or_assoc]

/-- The transitions of a text are those that stand in its lines. -/
theorem mem_transitions_iff (h : read text = .ok t) : e ∈ t.transitions ↔ e.StandsIn text := by
  obtain ⟨d, hd, ht, -⟩ := exists_draft_of_read h
  rw [← ht, mem_transitions_foldlM hd]
  simp only [List.not_mem_nil, false_or, Prod.exists, List.mem_zipIdx_iff_getElem?]
  exact ⟨fun ⟨cs, i, hi, h⟩ => ⟨i, cs, hi, h⟩, fun ⟨i, cs, hi, h⟩ => ⟨cs, i, hi, h⟩⟩

/-! ## Refused lines -/

/-- No transition of the text is silent, and those with one source and one symbol have one target. -/
structure IsDeterministic (text : String) : Prop where
  symbol_ne : ∀ e : TransitionLine, e.StandsIn text → e.symbol ≠ epsilon
  target_eq : ∀ e f : TransitionLine, e.StandsIn text → f.StandsIn text → e.source = f.source → e.symbol = f.symbol →
    e.target = f.target

/-- The fault that the line is refused with: its transition is silent, or that of another line has a different target. -/
def Refused (text : String) (line : Nat) (fault : FormatError) : Prop :=
  ∃ e : TransitionLine, e.StandsIn text ∧ e.line = line ∧
    (e.symbol = epsilon ∧ fault = .silentTransition ∨
      ∃ f : TransitionLine, f.StandsIn text ∧ f.source = e.source ∧ f.symbol = e.symbol ∧ f.target ≠ e.target ∧
        fault = .conflictingTransitions e.source e.symbol)

theorem IsDeterministic.not_refused (h : IsDeterministic text) (line : Nat) (fault : FormatError) :
    ¬ Refused text line fault := by
  rintro ⟨e, he, -, ⟨hsilent, -⟩ | ⟨f, hf, hsource, hsymbol, hne, -⟩⟩
  · exact h.symbol_ne e he hsilent
  · exact hne (h.target_eq f e hf he hsource hsymbol)

variable {rows rows' : List (Table Symbol Nat)} {ts : List TransitionLine} {fault : LoadError}

theorem symbol_ne_of_addDeterministic (h : addDeterministic rows e = .ok rows') : e.symbol ≠ epsilon := by
  intro he
  rw [addDeterministic, if_pos he] at h
  contradiction

theorem addDeterministic_eq_error (h : addDeterministic rows e = .error fault) :
    e.symbol = epsilon ∧ fault = .format .silentTransition e.line ∨
      ∃ q, target? rows e.source e.symbol = some q ∧ q ≠ e.target ∧
        fault = .format (.conflictingTransitions e.source e.symbol) e.line := by
  unfold addDeterministic at h
  split at h
  · next hsilent => exact .inl ⟨hsilent, (Except.error.inj h).symm⟩
  · split at h
    · contradiction
    · next q hq =>
      split at h
      · contradiction
      · next hne => exact .inr ⟨q, hq, hne, (Except.error.inj h).symm⟩

/-- A text whose transitions can be entered is deterministic. -/
theorem isDeterministic_of_ok (h : read text = .ok t)
    (hrows : t.transitions.foldlM addDeterministic (List.replicate t.count ∅) = .ok rows) : IsDeterministic text := by
  have htarget := ((inRange_of_read h).hasRows hrows).target_iff
  refine ⟨fun e he => ?_, fun e f he hf hsource hsymbol => ?_⟩
  · obtain ⟨_, _, hstep⟩ := exists_of_foldlM_eq_ok hrows ((mem_transitions_iff h).mpr he)
    exact symbol_ne_of_addDeterministic hstep
  · have he := (htarget _ _ _).mpr ⟨e, (mem_transitions_iff h).mpr he, rfl, rfl, rfl⟩
    have hf := (htarget _ _ _).mpr ⟨f, (mem_transitions_iff h).mpr hf, hsource.symm, hsymbol.symm, rfl⟩
    exact Option.some.inj (he.symm.trans hf)

/-- If the transitions of a text cannot be entered, a line is refused. -/
theorem exists_refused_of_error (h : read text = .ok t)
    (hrows : t.transitions.foldlM addDeterministic (List.replicate t.count ∅) = .error fault) :
    ∃ line f, fault = .format f (some line) ∧ Refused text line f := by
  obtain ⟨before, e, after, mid, hsplit, hmid, he⟩ := exists_of_foldlM_eq_error hrows
  have hstands : ∀ f ∈ before ++ e :: after, f.StandsIn text := fun f hf => (mem_transitions_iff h).mp (hsplit ▸ hf)
  have hmem : e.StandsIn text := hstands e (List.mem_append_right _ (.head _))
  rcases addDeterministic_eq_error he with ⟨hsilent, rfl⟩ | ⟨q, hq, hne, rfl⟩
  · exact ⟨e.line, _, rfl, e, hmem, rfl, .inl ⟨hsilent, rfl⟩⟩
  · -- The target that is there comes from a line in front of this one.
    have hsources : ∀ f ∈ before, f.source < (List.replicate t.count (∅ : Table Symbol Nat)).length := fun f hf =>
      (inRange_of_read h).source_lt_length f (hsplit ▸ List.mem_append_left _ hf)
    rcases ((foldlM_addDeterministic hsources hmid).2 _ _ _).mp hq with hq | ⟨f, hf, hsource, hsymbol, rfl⟩
    · rw [target?_replicate] at hq
      contradiction
    · exact ⟨e.line, _, rfl, e, hmem, rfl, .inr ⟨f, hstands f (List.mem_append_left _ hf), hsource, hsymbol, hne, rfl⟩⟩

/-! ## Rows -/

theorem map_singletonRow_modify {p : Nat} {g : Table Symbol (OrderedSet Nat) → Table Symbol (OrderedSet Nat)}
    {h : Table Symbol Nat → Table Symbol Nat} (hgh : ∀ row, rows[p]? = some row → g (singletonRow row) = singletonRow (h row)) :
    (rows.map singletonRow).modify p g = (rows.modify p h).map singletonRow := by
  refine List.ext_getElem? fun i => ?_
  rw [List.getElem?_modify, List.getElem?_map, List.getElem?_map, List.getElem?_modify]
  by_cases hi : p = i
  · subst hi
    cases hrow : rows[p]? with
    | none => rfl
    | some row => simp [hgh row hrow]
  · simp [hi]

/-- A line that is accepted does the same to both automata. -/
theorem link_of_addDeterministic (n : Nfa) (h : addDeterministic rows e = .ok rows') :
    ({ n with rows := rows.map singletonRow } : Nfa).link e.source e.symbol e.target =
      { n with rows := rows'.map singletonRow } := by
  have hlink : ({ n with rows := rows.map singletonRow } : Nfa).link e.source e.symbol e.target =
      { n with rows := (rows.map singletonRow).modify e.source (Nfa.addTarget · (e.symbol, e.target)) } := rfl
  rw [hlink]
  have hrow : ∀ row, rows[e.source]? = some row → rows.getD e.source ∅ = row := fun row hrow => by
    rw [List.getD_eq_getElem?_getD, hrow, Option.getD_some]
  unfold addDeterministic at h
  rw [if_neg (symbol_ne_of_addDeterministic h)] at h
  split at h
  · next hnone =>
    obtain rfl := Except.ok.inj h
    rw [map_singletonRow_modify fun row hr => addTarget_singletonRow_of_none (hrow row hr ▸ hnone) e.target]
  · next q hq =>
    split at h
    · next hqe =>
      obtain rfl := Except.ok.inj h
      subst hqe
      rw [map_singletonRow_modify (h := id) fun row hr => addTarget_singletonRow_of_some (hrow row hr ▸ hq), List.modify_id]
    · contradiction

/-- Lines that are accepted do the same to both automata. -/
theorem linkAll_of_foldlM (n : Nfa) (h : ts.foldlM addDeterministic rows = .ok rows') :
    ({ n with rows := rows.map singletonRow } : Nfa).linkAll (ts.map fun e => (e.source, e.symbol, e.target)) =
      { n with rows := rows'.map singletonRow } := by
  induction ts generalizing rows with
  | nil =>
    obtain rfl := Except.ok.inj h
    rfl
  | cons e ts ih =>
    rw [List.foldlM_cons] at h
    obtain ⟨mid, hmid, h⟩ := bind_eq_ok_iff.mp h
    rw [← ih h, ← link_of_addDeterministic n hmid]
    rfl

theorem rows_of_tables {d : Dfa} {flags : BuildFlags} (h : Dfa.ofTables (t.tables rows) flags = .ok d) : d.rows = rows := by
  have hid : ∀ row : Table Symbol Nat, (row.mapValues fun _ => Int.ofNat).mapValues (fun _ q => q.toNat) = row := by
    rintro ⟨es, hes⟩
    simp [Table.mapValues, Function.comp_def]
  rw [DfaTables.rows_of_ofTables h, tables, List.map_map]
  exact (List.map_congr_left fun row _ => hid row).trans (List.map_id rows)

/-- The two automata of a text have the same transitions. -/
theorem IsDfa.nfa_eq_toNfa {d : Dfa} (hd : t.IsDfa d)
    (hrows : t.transitions.foldlM addDeterministic (List.replicate t.count ∅) = .ok d.rows) (flags : BuildFlags) :
    t.nfa flags = d.toNfa flags := by
  have hempty : List.replicate t.count ∅ = (List.replicate t.count ∅).map singletonRow := by
    rw [List.map_replicate]
    rfl
  have haccept : OrderedSet.ofList t.accept = d.accept := OrderedSet.ext fun q => by rw [OrderedSet.mem_ofList, hd.accept_iff]
  rw [nfa, Nfa.bare, hempty, haccept, ← hd.start_eq]
  exact linkAll_of_foldlM { start := d.start, accept := d.accept, flags } hrows

theorem IsDfa.isLoud {d : Dfa} (hd : t.IsDfa d) (hne : ∀ e ∈ t.transitions, e.symbol ≠ epsilon) : d.IsLoud := by
  refine fun p => Option.eq_none_iff_forall_ne_some.mpr fun q hq => ?_
  obtain ⟨e, he, -, hsilent, -⟩ := (hd.target_iff p epsilon q).mp hq
  exact hne e he hsilent

theorem IsDfa.alphabet_toNfa {d : Dfa} (hd : t.IsDfa d) (hne : ∀ e ∈ t.transitions, e.symbol ≠ epsilon) (flags : BuildFlags) :
    (d.toNfa flags).alphabet = d.alphabet := by
  refine OrderedSet.ext fun a => ?_
  rw [Dfa.mem_alphabet_toNfa, hd.mem_alphabet_iff]
  simp only [hd.target_iff]
  constructor
  · rintro ⟨⟨p, q, e, he, -, ha, -⟩, -⟩
    exact ⟨e, he, ha⟩
  · rintro ⟨e, he, rfl⟩
    exact ⟨⟨e.source, e.target, e, he, rfl, rfl, rfl⟩, hne e he⟩

end AutomatonText

/-! ## Both automata -/

theorem Nfa.load_of_read {text : String} {t : AutomatonText} (h : AutomatonText.read text = .ok t) (flags : BuildFlags) :
    Nfa.load text flags = .ok (t.nfa flags) := by
  refine bind_eq_ok_iff.mpr ⟨t, h, mapError_eq_ok_iff.mpr ?_⟩
  exact (AutomatonText.inRange_of_read h).ofTables_nfa flags

/-- A text that can be read has the deterministic automaton of the rows that its lines give, or the fault of a line. -/
theorem Dfa.load_of_read {text : String} {t : AutomatonText} (h : AutomatonText.read text = .ok t) (flags : BuildFlags) :
    (∃ d, Dfa.load text flags = .ok d ∧ t.IsDfa d ∧
        t.transitions.foldlM AutomatonText.addDeterministic (List.replicate t.count ∅) = .ok d.rows) ∨
      ∃ fault, Dfa.load text flags = .error fault ∧
        t.transitions.foldlM AutomatonText.addDeterministic (List.replicate t.count ∅) = .error fault := by
  cases hrows : t.transitions.foldlM AutomatonText.addDeterministic (List.replicate t.count ∅) with
  | ok rows =>
    have hr := AutomatonText.inRange_of_read h
    obtain ⟨d, hd, hdfa⟩ := hr.exists_dfa (hr.hasRows hrows) flags
    refine .inl ⟨d, ?_, hdfa, congrArg Except.ok (AutomatonText.rows_of_tables hd).symm⟩
    exact bind_eq_ok_iff.mpr ⟨t, h, bind_eq_ok_iff.mpr ⟨rows, hrows, mapError_eq_ok_iff.mpr hd⟩⟩
  | error fault =>
    refine .inr ⟨fault, ?_, rfl⟩
    rw [Dfa.load, h]
    show (t.transitions.foldlM AutomatonText.addDeterministic (List.replicate t.count ∅) >>= _) = _
    rw [hrows]
    rfl

/-- A text that can be read has a nondeterministic automaton. It has a deterministic one exactly if no transition in its lines is
silent and no two have one source and symbol and different targets; otherwise such a line is reported. The two automata
have the same states, and the same transitions if each target is taken for the set of it, and accept the same texts. -/
theorem load_agree {text : String} {t : AutomatonText} (h : AutomatonText.read text = .ok t) (flags flags' : BuildFlags) :
    ∃ n, Nfa.load text flags = .ok n ∧
      ((∃ d, Dfa.load text flags' = .ok d) ↔ AutomatonText.IsDeterministic text) ∧
      (¬ AutomatonText.IsDeterministic text →
        ∃ line fault, Dfa.load text flags' = .error (.format fault (some line)) ∧ AutomatonText.Refused text line fault) ∧
      ∀ d, Dfa.load text flags' = .ok d → n.count = d.count ∧ n.start = d.start ∧ n.accept = d.accept ∧
        n.alphabet = d.alphabet ∧ n.rows = d.rows.map (fun row => row.mapValues fun _ q => OrderedSet.singleton q) ∧
        (∀ p a, n.targets p a = (d.target? p a).elim ∅ OrderedSet.singleton) ∧
        ∀ input, n.accepts input = .ok (d.accepts input) := by
  refine ⟨t.nfa flags, Nfa.load_of_read h flags, ?_⟩
  rcases Dfa.load_of_read h flags' with ⟨d, hload, hd, hrows⟩ | ⟨fault, hload, hrows⟩
  · have hdet := AutomatonText.isDeterministic_of_ok h hrows
    have hne : ∀ e ∈ t.transitions, e.symbol ≠ epsilon := fun e he =>
      hdet.symbol_ne e ((AutomatonText.mem_transitions_iff h).mp he)
    refine ⟨iff_of_true ⟨d, hload⟩ hdet, fun hnot => absurd hdet hnot, fun d' hd' => ?_⟩
    obtain rfl := Except.ok.inj (hload.symm.trans hd')
    rw [hd.nfa_eq_toNfa hrows flags]
    exact ⟨d.count_toNfa flags, rfl, rfl, hd.alphabet_toNfa hne flags, rfl, d.targets_toNfa flags,
      fun input => (hd.isLoud hne).acceptsWord_toNfa flags (symbols input)⟩
  · obtain ⟨line, f, rfl, hrefused⟩ := AutomatonText.exists_refused_of_error h hrows
    have hnone : ∀ d, Dfa.load text flags' ≠ .ok d := fun d hd => nomatch hload.symm.trans hd
    refine ⟨iff_of_false (fun ⟨d, hd⟩ => hnone d hd) fun hdet => hdet.not_refused line f hrefused, fun _ => ?_, fun d hd => ?_⟩
    · exact ⟨line, f, hload, hrefused⟩
    · exact absurd hd (hnone d)

/-- A text that gives one line twice, and one in which a line gives a second target. -/
theorem load_agree_repeated : ∃ text text' t t' n d line fault,
    text = "start_state: 0\nend_states: [1]\nnum_states: 2\n0 -- 'a' --> 1\n0 -- 'a' --> 1\n1 -- 'b' --> 0\n" ∧
    text' = "start_state: 0\nend_states: [1]\nnum_states: 2\n0 -- 'a' --> 1\n0 -- 'a' --> 0\n" ∧
    AutomatonText.read text = .ok t ∧ Nfa.load text = .ok n ∧ Dfa.load text = .ok d ∧ AutomatonText.IsDeterministic text ∧
    n.targets 0 "a" = .singleton 1 ∧ n.accepts "aba" = .ok true ∧ n.accepts "aε" = .ok false ∧
    AutomatonText.read text' = .ok t' ∧ ¬ AutomatonText.IsDeterministic text' ∧
    Dfa.load text' = .error (.format fault (some line)) ∧ AutomatonText.Refused text' line fault ∧ line = 5 := by
  obtain ⟨text, htext⟩ : ∃ text, text =
    "start_state: 0\nend_states: [1]\nnum_states: 2\n0 -- 'a' --> 1\n0 -- 'a' --> 1\n1 -- 'b' --> 0\n" := ⟨_, rfl⟩
  obtain ⟨text', htext'⟩ : ∃ text', text' =
    "start_state: 0\nend_states: [1]\nnum_states: 2\n0 -- 'a' --> 1\n0 -- 'a' --> 0\n" := ⟨_, rfl⟩
  obtain ⟨t, ht⟩ : ∃ t, AutomatonText.read text = .ok t := by
    subst htext
    exact ⟨_, rfl⟩
  obtain ⟨t', ht'⟩ : ∃ t, AutomatonText.read text' = .ok t := by
    subst htext'
    exact ⟨_, rfl⟩
  obtain ⟨d, hd, htarget, haba, hε⟩ : ∃ d, Dfa.load text = .ok d ∧ d.target? 0 "a" = some 1 ∧ d.accepts "aba" = true ∧
      d.accepts "aε" = false := by
    subst htext
    exact ⟨_, rfl, by decide, by decide, by decide⟩
  have hload : Dfa.load text' = .error (.format (.conflictingTransitions 0 "a") (some 5)) := by
    subst htext'
    decide
  obtain ⟨n, hn, hdet, -, hsame⟩ := load_agree ht {} {}
  obtain ⟨-, -, -, -, -, htargets, haccepts⟩ := hsame d hd
  obtain ⟨n', -, hdet', hrefused, -⟩ := load_agree ht' {} {}
  have hnot : ¬ AutomatonText.IsDeterministic text' := by
    intro h
    obtain ⟨d', hd'⟩ := hdet'.mpr h
    exact nomatch hload.symm.trans hd'
  obtain ⟨line, fault, hfault, hline⟩ := hrefused hnot
  obtain ⟨rfl, ⟨⟩⟩ := LoadError.format.inj (Except.error.inj (hload.symm.trans hfault))
  refine ⟨text, text', t, t', n, d, 5, _, htext, htext', ht, hn, hd, hdet.mp ⟨d, hd⟩, ?_, ?_, ?_, ht', hnot, hload, hline, rfl⟩
  · rw [htargets, htarget]
    rfl
  · rw [haccepts, haba]
  · rw [haccepts, hε]

end FormalLang
