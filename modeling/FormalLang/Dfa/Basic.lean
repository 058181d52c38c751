import FormalLang.Automaton.Basic
import FormalLang.Automaton.Flags

/-!
# Deterministic automata

An automaton has one row of transitions per state. A row lists its symbols in the order in which they were first
entered, each with one target. A row need not have a transition on every symbol; where it has none, the
automaton rejects.

A `Dfa` is made from tables that have passed a check: one row per state, all states in range and all symbols in the
alphabet.

* `Dfa.ofTables`: the check, with the first fault in the order number of rows, start, accepting states, transitions.
* `Dfa.acceptsWord`: the run of the automaton on a word.
* `Dfa.mem_transitions`: the list of the transitions holds those of the tables.
-/

namespace FormalLang

/-- The parts of a deterministic automaton before they are checked. -/
structure DfaTables where
  /-- The number of states. -/
  count : Int
  /-- The state to start in. -/
  start : Int
  /-- The accepting states. -/
  accept : List Int
  /-- The transitions of each state. -/
  rows : List (Table Symbol Int)
  /-- The symbols; if absent, those of the transitions. -/
  alphabet : Option (List Symbol) := none

/-- A deterministic automaton. -/
structure Dfa where
  /-- The transitions of each state. -/
  rows : List (Table Symbol Nat)
  /-- The state to start in. -/
  start : Nat
  /-- The accepting states. -/
  accept : OrderedSet Nat
  /-- The symbols that may have transitions. -/
  alphabet : OrderedSet Symbol
  /-- How the automaton was built. -/
  flags : BuildFlags := {}
  /-- For each state, the states of another automaton that it stands for. -/
  sources : Option (List (OrderedSet Nat)) := none
  start_lt : start < rows.length
  accept_lt : ∀ q ∈ accept, q < rows.length
  symbol_mem : ∀ row ∈ rows, ∀ e ∈ row.entries, e.1 ∈ alphabet
  target_lt : ∀ row ∈ rows, ∀ e ∈ row.entries, e.2 < rows.length
  deriving DecidableEq

namespace DfaTables

/-- The symbols of the automaton. -/
def symbols (t : DfaTables) : OrderedSet Symbol :=
  OrderedSet.ofList (t.alphabet.getD (t.rows.flatMap Table.keys))

/-- The fault of a state, if it is out of range. -/
def stateFaults (t : DfaTables) (q : Int) : List UsageError :=
  if 0 ≤ q ∧ q < t.rows.length then [] else [.invalidState q t.rows.length]

/-- The fault of a symbol, if it is not in the alphabet. -/
def symbolFaults (t : DfaTables) (a : Symbol) : List UsageError :=
  if a ∈ t.symbols then [] else [.invalidSymbol a t.symbols.toList]

/-- The fault of the number of rows. -/
def countFaults (t : DfaTables) : List UsageError :=
  if t.count = t.rows.length then [] else [.tableCount t.count t.rows.length]

/-- The faults of the tables, in the order in which they are looked for. -/
def faults (t : DfaTables) : List UsageError :=
  t.countFaults ++ t.stateFaults t.start ++ t.accept.flatMap t.stateFaults ++
    t.rows.flatMap fun row => row.entries.flatMap fun e => t.symbolFaults e.1 ++ t.stateFaults e.2

theorem stateFaults_eq_nil {t : DfaTables} {q : Int} (h : t.stateFaults q = []) :
    0 ≤ q ∧ q < t.rows.length := by
  unfold stateFaults at h
  split at h
  · assumption
  · simp at h

theorem symbolFaults_eq_nil {t : DfaTables} {a : Symbol} (h : t.symbolFaults a = []) : a ∈ t.symbols := by
  unfold symbolFaults at h
  split at h
  · assumption
  · simp at h

/-- The automaton of tables without faults. -/
def toDfa (t : DfaTables) (flags : BuildFlags) (sources : Option (List (OrderedSet Nat)))
    (h : t.faults = []) : Dfa where
  rows := t.rows.map fun row => row.mapValues fun _ q => q.toNat
  start := t.start.toNat
  accept := OrderedSet.ofList (t.accept.map Int.toNat)
  alphabet := t.symbols
  flags
  sources
  start_lt := by
    simp only [faults, List.append_eq_nil_iff] at h
    have := stateFaults_eq_nil h.1.1.2
    rw [List.length_map]
    omega
  accept_lt := by
    simp only [faults, List.append_eq_nil_iff, List.flatMap_eq_nil_iff] at h
    intro q hq
    obtain ⟨p, hp, rfl⟩ := List.mem_map.mp (OrderedSet.mem_ofList.mp hq)
    have := stateFaults_eq_nil (h.1.2 p hp)
    rw [List.length_map]
    omega
  symbol_mem := by
    simp only [faults, List.append_eq_nil_iff, List.flatMap_eq_nil_iff] at h
    intro row hrow e he
    obtain ⟨r, hr, rfl⟩ := List.mem_map.mp hrow
    obtain ⟨d, hd, rfl⟩ := List.mem_map.mp he
    exact symbolFaults_eq_nil (h.2 r hr d hd).1
  target_lt := by
    simp only [faults, List.append_eq_nil_iff, List.flatMap_eq_nil_iff] at h
    intro row hrow e he
    obtain ⟨r, hr, rfl⟩ := List.mem_map.mp hrow
    obtain ⟨d, hd, rfl⟩ := List.mem_map.mp he
    have := stateFaults_eq_nil (h.2 r hr d hd).2
    rw [List.length_map]
    show d.2.toNat < _
    omega

end DfaTables

namespace Dfa

/-- The automaton of the given tables, or their first fault. -/
def ofTables (t : DfaTables) (flags : BuildFlags := {})
    (sources : Option (List (OrderedSet Nat)) := none) : Except UsageError Dfa :=
  if h : t.faults = [] then .ok (t.toDfa flags sources h) else .error (t.faults.head h)

/-- The number of states. -/
def count (d : Dfa) : Nat := d.rows.length

/-- The transitions of a state. -/
def row (d : Dfa) (q : Nat) : Table Symbol Nat := d.rows.getD q ∅

/-- The state that a symbol leads to from a state. -/
def target? (d : Dfa) (q : Nat) (a : Symbol) : Option Nat := (d.row q).get? a

/-- The symbols with a transition from a state, ascending, and where they lead. -/
def moves (d : Dfa) (p : Nat) : List (Symbol × Nat) :=
  (OrderedSet.ofList (d.row p).keys).toList.filterMap fun a => (d.target? p a).map fun q => (a, q)

/-- All transitions: sources ascending, symbols ascending. -/
def transitions (d : Dfa) : List (Nat × Symbol × Nat) :=
  (List.range d.count).flatMap fun p => (d.moves p).map fun (a, q) => (p, a, q)

/-- The number of transitions. -/
def transitionCount (d : Dfa) : Nat := (d.rows.flatMap Table.entries).length

/-- The state of the given number. -/
def checkState (d : Dfa) (q : Int) : Except UsageError Nat := FormalLang.checkState d.count q

/-- A symbol, if it is in the alphabet. -/
def checkSymbol (d : Dfa) (a : Symbol) : Except UsageError Symbol :=
  if a ∈ d.alphabet then .ok a else .error (.invalidSymbol a d.alphabet.toList)

/-- The state that a symbol leads to from the state of the given number. The state is checked first. -/
def move (d : Dfa) (q : Int) (a : Symbol) : Except UsageError (Option Nat) := do
  return d.target? (← d.checkState q) (← d.checkSymbol a)

/-- Is this the number of an accepting state? -/
def isFinal (d : Dfa) (q : Int) : Bool := d.accept.toList.any fun p => p = q

/-- Has every state a transition on every symbol? -/
def isComplete (d : Dfa) : Bool := d.rows.all fun row => row.size = d.alphabet.size

/-- The state after a word, read from the state `q`. -/
def run? (d : Dfa) (q : Nat) (w : List Symbol) : Option Nat := w.foldlM d.target? q

/-- Does reading the word from the state `q` end in an accepting state? -/
def acceptsFrom (d : Dfa) (q : Nat) (w : List Symbol) : Bool := (d.run? q w).any (· ∈ d.accept)

/-- Does reading the word end in an accepting state? -/
def acceptsWord (d : Dfa) (w : List Symbol) : Bool := d.acceptsFrom d.start w

/-- Does reading the text, one character at a time, end in an accepting state? -/
def accepts (d : Dfa) (text : String) : Bool := d.acceptsWord (FormalLang.symbols text)

/-- The targets of a state, in the order of the first symbol that leads to each, with all its symbols, ascending. -/
def fans (d : Dfa) (p : Nat) : Table Nat (List Symbol) :=
  (d.moves p).foldl (fun t (a, q) => t.alter q fun l => l.getD [] ++ [a]) ∅

/-- One node per state, and one edge per pair of states with a transition, labelled with its symbols. -/
def diagram (d : Dfa) : Diagram :=
  (List.range d.count).foldl
    (fun g p => (d.fans p).entries.foldl
      (fun g (q, l) => (g.addEdge p q (String.intercalate "," l)).2) g)
    (stateDiagram d.count d.start d.accept)

/-- The automaton in words. -/
def description (d : Dfa) : String :=
  let row := fun (r : Table Symbol Nat) =>
    Text.mapListing (r.entries.map fun (a, q) => (Text.quoted a, toString q))
  s!"DFA(num_states={d.count}, symbols={symbolListing d.alphabet.toList}, start_state={d.start}, " ++
    s!"transitions={Text.listing (d.rows.map row)}, accept_states={stateListing d.accept})"

theorem mem_moves {d : Dfa} {p q : Nat} {a : Symbol} : (a, q) ∈ d.moves p ↔ d.target? p a = some q := by
  simp only [moves, List.mem_filterMap, ← OrderedSet.mem_def, OrderedSet.mem_ofList]
  constructor
  · rintro ⟨b, _, h⟩
    obtain ⟨r, hr, e⟩ := Option.map_eq_some_iff.mp h
    cases e
    exact hr
  · intro h
    refine ⟨a, Table.get?_isSome_iff.mp ?_, by simp [h]⟩
    simp [show (d.row p).get? a = some q from h]

theorem mem_transitions {d : Dfa} {p q : Nat} {a : Symbol} :
    (p, a, q) ∈ d.transitions ↔ d.target? p a = some q := by
  simp only [transitions, List.mem_flatMap, List.mem_range, List.mem_map, Prod.mk.injEq]
  constructor
  · rintro ⟨_, _, ⟨_, _⟩, h, rfl, rfl, rfl⟩
    exact mem_moves.mp h
  · intro h
    refine ⟨p, ?_, (a, q), mem_moves.mpr h, rfl, rfl, rfl⟩
    by_cases hp : p < d.count
    · exact hp
    · have : d.row p = ∅ := by simp [row, List.getD, List.getElem?_eq_none (Nat.le_of_not_lt hp)]
      rw [target?, this] at h
      exact nomatch h

end Dfa

end FormalLang
