import FormalLang.Proofs.Automaton.Reading
import FormalLang.Proofs.Dfa.Tables
import FormalLang.Proofs.Nfa.Rebuilding

/-!
# Loading automata

The states of a text that has been read are in range, so the automaton of its tables is accepted. The transitions of a
deterministic automaton are entered one after the other, and a second target for a state and a symbol is refused.

* `AutomatonText.foldlM_addDeterministic`: the transitions after some lines.
* `AutomatonText.InRange.ofTables_nfa`, `InRange.exists_dfa`: the automata of tables whose states are in range.
* `load_error`: loading fails with a fault of the format, or of a number that the text contains.
-/

namespace FormalLang

/-- The line gives the transition. -/
def TransitionLine.Gives (e : TransitionLine) (p : Nat) (a : Symbol) (q : Nat) : Prop :=
  e.source = p ∧ e.symbol = a ∧ e.target = q

namespace AutomatonText

variable {t : AutomatonText} {rows rows' : List (Table Symbol Nat)} {e : TransitionLine} {ts : List TransitionLine}

/-! ## Rows of transitions -/

/-- The state that a symbol leads to from a state with the given rows. -/
def target? (rows : List (Table Symbol Nat)) (p : Nat) (a : Symbol) : Option Nat := (rows.getD p ∅).get? a

theorem target?_modify (he : e.source < rows.length) (p : Nat) (a : Symbol) :
    target? (rows.modify e.source (·.insert e.symbol e.target)) p a =
      if e.source = p ∧ e.symbol = a then some e.target else target? rows p a := by
  unfold target?
  rw [List.getD_eq_getElem?_getD, List.getElem?_modify, List.getD_eq_getElem?_getD]
  by_cases hp : e.source = p
  · subst hp
    rw [List.getElem?_eq_getElem he]
    simp [Table.get?_insert, eq_comm]
  · simp [hp]

theorem target?_replicate (k p : Nat) (a : Symbol) : target? (List.replicate k ∅) p a = none := by
  rw [target?, List.getD_eq_getElem?_getD, List.getElem?_replicate]
  split <;> rfl

/-- A line that is accepted adds its transition. -/
theorem addDeterministic_eq_ok (he : e.source < rows.length) (h : addDeterministic rows e = .ok rows') :
    rows'.length = rows.length ∧ ∀ p a q, target? rows' p a = some q ↔ target? rows p a = some q ∨ e.Gives p a q := by
  unfold addDeterministic at h
  split at h
  · contradiction
  · split at h
    · next hnone =>
      obtain rfl := Except.ok.inj h
      refine ⟨List.length_modify .., fun p a q => ?_⟩
      rw [target?_modify he]
      split
      · next hpa =>
        obtain ⟨rfl, rfl⟩ := hpa
        have hnone : target? rows e.source e.symbol = none := hnone
        simp [hnone, TransitionLine.Gives]
      · next hpa =>
        constructor
        · exact .inl
        · rintro (hq | ⟨hp, ha, -⟩)
          · exact hq
          · exact absurd ⟨hp, ha⟩ hpa
    · next r hr =>
      split at h
      · next hrt =>
        subst hrt
        obtain rfl := Except.ok.inj h
        refine ⟨rfl, fun p a q => ⟨.inl, ?_⟩⟩
        rintro (hq | ⟨rfl, rfl, rfl⟩)
        · exact hq
        · exact hr
      · contradiction

theorem exists_addDeterministic (hne : e.symbol ≠ epsilon)
    (hagree : ∀ q, target? rows e.source e.symbol = some q → q = e.target) :
    ∃ rows', addDeterministic rows e = .ok rows' := by
  unfold addDeterministic
  rw [if_neg hne]
  split
  · exact ⟨_, rfl⟩
  · next q hq => exact ⟨rows, if_pos (hagree q hq)⟩

theorem faults_addDeterministic (cs : List Char) (rows : List (Table Symbol Nat)) (e : TransitionLine) :
    Faults (LoadError.IsOf cs) (addDeterministic rows e) := by
  unfold addDeterministic
  split
  · exact .error trivial
  · split
    · exact .ok _
    · split
      · exact .ok rows
      · exact .error trivial

/-- Lines that are accepted add their transitions. -/
theorem foldlM_addDeterministic (hts : ∀ e ∈ ts, e.source < rows.length)
    (h : ts.foldlM addDeterministic rows = .ok rows') : rows'.length = rows.length ∧
      ∀ p a q, target? rows' p a = some q ↔ target? rows p a = some q ∨ ∃ e ∈ ts, e.Gives p a q := by
  induction ts generalizing rows with
  | nil =>
    obtain rfl := Except.ok.inj h
    simp
  | cons e ts ih =>
    obtain ⟨he, hts⟩ := List.forall_mem_cons.mp hts
    rw [List.foldlM_cons] at h
    obtain ⟨mid, hmid, h⟩ := bind_eq_ok_iff.mp h
    obtain ⟨hlen, htarget⟩ := addDeterministic_eq_ok he hmid
    obtain ⟨hlen', htarget'⟩ := ih (hlen ▸ hts) h
    refine ⟨hlen'.trans hlen, fun p a q => ?_⟩
    rw [htarget', htarget, or_assoc, List.exists_mem_cons_iff]

/-- Lines with the transitions of a function are accepted. -/
theorem exists_foldlM_addDeterministic {f : Nat → Symbol → Option Nat} (hts : ∀ e ∈ ts, e.source < rows.length)
    (hrows : ∀ p a q, target? rows p a = some q → f p a = some q)
    (hf : ∀ e ∈ ts, e.symbol ≠ epsilon ∧ f e.source e.symbol = some e.target) :
    ∃ rows', ts.foldlM addDeterministic rows = .ok rows' := by
  induction ts generalizing rows with
  | nil => exact ⟨rows, rfl⟩
  | cons e ts ih =>
    obtain ⟨he, hts⟩ := List.forall_mem_cons.mp hts
    obtain ⟨⟨hne, hfe⟩, hf⟩ := List.forall_mem_cons.mp hf
    obtain ⟨mid, hmid⟩ := exists_addDeterministic hne fun q hq => Option.some.inj ((hrows _ _ _ hq).symm.trans hfe)
    obtain ⟨hlen, htarget⟩ := addDeterministic_eq_ok he hmid
    have hmidrows : ∀ p a q, target? mid p a = some q → f p a = some q := by
      intro p a q hq
      rcases (htarget p a q).mp hq with hq | ⟨rfl, rfl, rfl⟩
      · exact hrows p a q hq
      · exact hfe
    obtain ⟨rows', hrows'⟩ := ih (hlen ▸ hts) hmidrows hf
    exact ⟨rows', by rw [List.foldlM_cons]; exact bind_eq_ok_iff.mpr ⟨mid, hmid, hrows'⟩⟩

/-- The rows have the transitions of a text and no others. -/
structure HasRows (t : AutomatonText) (rows : List (Table Symbol Nat)) : Prop where
  length_eq : rows.length = t.count
  target_iff : ∀ p a q, target? rows p a = some q ↔ ∃ e ∈ t.transitions, e.Gives p a q

theorem InRange.source_lt_length (hr : t.InRange) :
    ∀ e ∈ t.transitions, e.source < (List.replicate t.count (∅ : Table Symbol Nat)).length := by
  rw [List.length_replicate]
  exact hr.source_lt

theorem InRange.hasRows (hr : t.InRange)
    (h : t.transitions.foldlM addDeterministic (List.replicate t.count ∅) = .ok rows) : t.HasRows rows := by
  obtain ⟨hlen, htarget⟩ := foldlM_addDeterministic hr.source_lt_length h
  refine ⟨hlen.trans List.length_replicate, fun p a q => ?_⟩
  rw [htarget, target?_replicate]
  exact or_iff_right (Option.some_ne_none q).symm

/-- A text with the transitions of a function is accepted. -/
theorem InRange.exists_hasRows (hr : t.InRange) {f : Nat → Symbol → Option Nat}
    (hf : ∀ e ∈ t.transitions, e.symbol ≠ epsilon ∧ f e.source e.symbol = some e.target) :
    ∃ rows, t.transitions.foldlM addDeterministic (List.replicate t.count ∅) = .ok rows ∧ t.HasRows rows := by
  have hbare : ∀ p a q, target? (List.replicate t.count ∅) p a = some q → f p a = some q := by
    intro p a q hq
    rw [target?_replicate] at hq
    exact absurd hq.symm (Option.some_ne_none q)
  obtain ⟨rows, hrows⟩ := exists_foldlM_addDeterministic hr.source_lt_length hbare hf
  exact ⟨rows, hrows, hr.hasRows hrows⟩

/-! ## Automata of texts -/

/-- The tables of a text, with the given rows. -/
def tables (t : AutomatonText) (rows : List (Table Symbol Nat)) : DfaTables where
  count := t.count
  start := t.start
  accept := t.accept.map Int.ofNat
  rows := rows.map fun row => row.mapValues fun _ => Int.ofNat

theorem exists_of_mem_tables {row : Table Symbol Int} {x : Symbol × Int} (hrow : row ∈ (t.tables rows).rows)
    (hx : x ∈ row.entries) : ∃ p q, target? rows p x.1 = some q ∧ x.2 = (q : Int) := by
  obtain ⟨r, hr, rfl⟩ := List.mem_map.mp hrow
  obtain ⟨p, hp⟩ := List.mem_iff_getElem?.mp hr
  obtain ⟨⟨a, q⟩, hq, rfl⟩ := List.mem_map.mp hx
  refine ⟨p, q, ?_, rfl⟩
  rw [target?, List.getD_eq_getElem?_getD, hp]
  exact Table.mem_entries_iff.mp hq

theorem mem_symbols_tables {a : Symbol} : a ∈ (t.tables rows).symbols ↔ ∃ p q, target? rows p a = some q := by
  rw [DfaTables.symbols, OrderedSet.mem_ofList]
  constructor
  · intro h
    obtain ⟨row, hrow, hkey⟩ := List.mem_flatMap.mp h
    obtain ⟨x, hx, rfl⟩ := List.mem_map.mp hkey
    obtain ⟨p, q, hq, -⟩ := exists_of_mem_tables hrow hx
    exact ⟨p, q, hq⟩
  · rintro ⟨p, q, hq⟩
    rw [target?, List.getD_eq_getElem?_getD] at hq
    cases hp : rows[p]? with
    | none =>
      rw [hp] at hq
      contradiction
    | some row =>
      rw [hp] at hq
      refine List.mem_flatMap.mpr ⟨_, List.mem_map.mpr ⟨row, List.mem_of_getElem? hp, rfl⟩, ?_⟩
      rw [← Table.get?_isSome_iff, Table.get?_mapValues, show row.get? a = some q from hq]
      rfl

theorem faults_tables_eq_nil (hr : t.InRange) (h : t.HasRows rows) : (t.tables rows).faults = [] := by
  have hlen : (t.tables rows).rows.length = t.count := (List.length_map _).trans h.length_eq
  have hstate : ∀ q < t.count, (t.tables rows).HasState (q : Int) := fun q hq => by
    rw [DfaTables.HasState, hlen]
    omega
  refine DfaTables.faults_eq_nil_iff.mpr ⟨?_, hstate _ hr.start_lt, fun q hq => ?_, fun row hrow x hx => ?_⟩
  · rw [hlen]
    rfl
  · obtain ⟨p, hp, rfl⟩ := List.mem_map.mp hq
    exact hstate p (hr.accept_lt p hp)
  · obtain ⟨p, q, hq, hxq⟩ := exists_of_mem_tables hrow hx
    obtain ⟨e, he, -, -, rfl⟩ := (h.target_iff p x.1 q).mp hq
    rw [hxq]
    exact ⟨mem_symbols_tables.mpr ⟨p, _, hq⟩, hstate _ (hr.target_lt e he)⟩

/-- The automaton has the tables of the text, and the symbols of its transitions. -/
structure IsDfa (t : AutomatonText) (d : Dfa) : Prop where
  count_eq : d.count = t.count
  start_eq : d.start = t.start
  accept_iff : ∀ q, q ∈ d.accept ↔ q ∈ t.accept
  target_iff : ∀ p a q, d.target? p a = some q ↔ ∃ e ∈ t.transitions, e.Gives p a q
  mem_alphabet_iff : ∀ a, a ∈ d.alphabet ↔ ∃ e ∈ t.transitions, e.symbol = a

/-- The tables of a text are accepted if their rows have the transitions of the text. -/
theorem InRange.exists_dfa (hr : t.InRange) (h : t.HasRows rows) (flags : BuildFlags) :
    ∃ d, Dfa.ofTables (t.tables rows) flags = .ok d ∧ t.IsDfa d := by
  obtain ⟨d, hd, hrep, -⟩ := DfaTables.exists_ofTables flags none (faults_tables_eq_nil hr h)
  have htarget : ∀ p a, d.target? p a = target? rows p a := fun p a => by
    rw [hrep.target_eq, target?, List.getD_eq_getElem?_getD, List.getD_eq_getElem?_getD, tables, List.getElem?_map]
    cases rows[p]? with
    | none => rfl
    | some row =>
      show ((row.mapValues fun _ => Int.ofNat).get? a).map Int.toNat = row.get? a
      rw [Table.get?_mapValues, Option.map_map]
      exact congrFun Option.map_id _
  refine ⟨d, hd, ?_, Int.natCast_inj.mp hrep.start_eq, fun q => ?_, fun p a q => ?_, fun a => ?_⟩
  · exact hrep.count_eq.trans ((List.length_map _).trans h.length_eq)
  · rw [hrep.accept_iff]
    constructor
    · intro hq
      obtain ⟨p, hp, hpq⟩ := List.mem_map.mp hq
      exact Int.natCast_inj.mp hpq ▸ hp
    · exact fun hq => List.mem_map.mpr ⟨q, hq, rfl⟩
  · rw [htarget, h.target_iff]
  · rw [hrep.alphabet_eq, mem_symbols_tables]
    constructor
    · rintro ⟨p, q, hq⟩
      obtain ⟨e, he, -, rfl, -⟩ := (h.target_iff p a q).mp hq
      exact ⟨e, he, rfl⟩
    · rintro ⟨e, he, rfl⟩
      exact ⟨_, _, (h.target_iff _ _ _).mpr ⟨e, he, rfl, rfl, rfl⟩⟩

/-- The automaton with the parts of a text, its transitions entered one after the other. -/
def nfa (t : AutomatonText) (flags : BuildFlags) : Nfa :=
  (Nfa.bare t.count t.start (.ofList t.accept) flags).linkAll (t.transitions.map fun e => (e.source, e.symbol, e.target))

/-- The tables of a text are accepted. -/
theorem InRange.ofTables_nfa (hr : t.InRange) (flags : BuildFlags) : Nfa.ofTables t.count t.start
    (t.accept.map Int.ofNat) (t.transitions.map fun e => ((e.source : Int), e.symbol, (e.target : Int))) flags =
      .ok (t.nfa flags) := by
  have hends : ∀ x ∈ t.transitions.map fun e => (e.source, e.symbol, e.target), x.1 < t.count ∧ x.2.2 < t.count := by
    intro x hx
    obtain ⟨e, he, rfl⟩ := List.mem_map.mp hx
    exact ⟨hr.source_lt e he, hr.target_lt e he⟩
  have h := Nfa.ofTables_natCast hr.start_lt hr.accept_lt hends flags
  rwa [List.map_map] at h

end AutomatonText

/-! ## Faults -/

theorem faults_load_nfa (text : String) (flags : BuildFlags) : Faults (LoadError.IsOf text.toList) (Nfa.load text flags) := by
  unfold Nfa.load
  refine (AutomatonText.faults_read text).bind fun t ht => ?_
  dsimp only
  rw [(AutomatonText.inRange_of_read ht).ofTables_nfa flags]
  exact .ok _

theorem faults_load_dfa (text : String) (flags : BuildFlags) : Faults (LoadError.IsOf text.toList) (Dfa.load text flags) := by
  unfold Dfa.load
  refine (AutomatonText.faults_read text).bind fun t ht => ?_
  have hr := AutomatonText.inRange_of_read ht
  refine (Faults.foldlM (fun rows e _ => AutomatonText.faults_addDeterministic _ rows e) _).bind fun rows hrows => ?_
  obtain ⟨d, hd, -⟩ := hr.exists_dfa (hr.hasRows hrows) flags
  show Faults _ ((Dfa.ofTables (t.tables rows) flags).mapError LoadError.usage)
  rw [hd]
  exact .ok d

theorem LoadError.isOf_iff {cs : List Char} {e : LoadError} :
    e.IsOf cs ↔ (∃ fault line, e = .format fault line) ∨ ∃ fault, e = .numeral fault ∧ fault.OccursIn cs := by
  cases e with
  | format fault line => exact ⟨fun _ => .inl ⟨fault, line, rfl⟩, fun _ => trivial⟩
  | numeral fault =>
    constructor
    · exact fun h => .inr ⟨fault, rfl, h⟩
    · rintro (⟨_, _, h⟩ | ⟨f, h, hf⟩)
      · contradiction
      · exact LoadError.numeral.inj h ▸ hf
  | usage fault =>
    constructor
    · exact False.elim
    · rintro (⟨_, _, h⟩ | ⟨_, h, -⟩)
      · contradiction
      · contradiction

/-- Loading a text gives an automaton, or fails with a fault of the format, or fails because of a number: the text has more digits
in a row than a number may have, or a digit that is not decimal or a unit separator where a number is read. -/
theorem load_error (text : String) (flags : BuildFlags) (e : LoadError)
    (h : Nfa.load text flags = .error e ∨ Dfa.load text flags = .error e) :
    (∃ fault line, e = .format fault line) ∨ ∃ fault, e = .numeral fault ∧ fault.OccursIn text.toList := by
  refine LoadError.isOf_iff.mp ?_
  rcases h with h | h
  · exact faults_load_nfa text flags e h
  · exact faults_load_dfa text flags e h

/-- A unit separator is a blank of a list of states, and no white space of a number. -/
theorem load_error_separator : Nfa.load "start_state: 0\nend_states: [0,\x1f0]\nnum_states: 1\n" =
      .error (.numeral (.malformed ['\x1f', '0'])) ∧
    (Text.NumeralFault.malformed ['\x1f', '0']).OccursIn "start_state: 0\nend_states: [0,\x1f0]\nnum_states: 1\n".toList := by
  have hload : Nfa.load "start_state: 0\nend_states: [0,\x1f0]\nnum_states: 1\n" =
      .error (.numeral (.malformed ['\x1f', '0'])) := by decide
  refine ⟨hload, ?_⟩
  rcases load_error _ _ _ (.inl hload) with ⟨_, _, h⟩ | ⟨f, h, hf⟩
  · contradiction
  · exact LoadError.numeral.inj h ▸ hf

/-- A superscript is taken for a digit where a header gives a number, and is no decimal digit. -/
theorem load_superscript : ∃ text e, Nfa.load text = .error e ∧ Dfa.load text = .error e ∧
    e = .numeral (.malformed ['²']) ∧ ∀ fault line, e ≠ .format fault line := by
  refine ⟨"start_state: ²\nend_states: []\nnum_states: 1\n", _, ?_, ?_, rfl, fun _ _ h => ?_⟩
  · decide
  · decide
  · contradiction

end FormalLang
