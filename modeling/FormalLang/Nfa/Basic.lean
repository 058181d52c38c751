import FormalLang.Automaton.Basic
import FormalLang.Automaton.Flags

/-!
# Nondeterministic automata

An automaton has one row of transitions per state. A row lists its symbols in the order in which they were
first used, each with the set of states that it leads to. The symbol ε labels the steps that read nothing.

* `Nfa.addTransition`: both ends are checked, the source first, before anything changes.
* `Nfa.ofTables`: an automaton from its parts, checked in the order start, accepting states, transitions.
-/

namespace FormalLang

/-- A nondeterministic automaton with silent steps. -/
structure Nfa where
  /-- The transitions of each state. -/
  rows : List (Table Symbol (OrderedSet Nat)) := []
  /-- The state to start in. -/
  start : Nat := 0
  /-- The accepting states. -/
  accept : OrderedSet Nat := ∅
  /-- How the automaton is built. -/
  flags : BuildFlags := {}
  deriving DecidableEq, Inhabited

namespace Nfa

/-- The number of states. -/
def count (n : Nfa) : Nat := n.rows.length

/-- The transitions of a state. -/
def row (n : Nfa) (q : Nat) : Table Symbol (OrderedSet Nat) := n.rows.getD q ∅

/-- The states that a symbol leads to from a state. -/
def targets (n : Nfa) (q : Nat) (a : Symbol) : OrderedSet Nat := (n.row q).getD a ∅

/-- All transitions: sources ascending, the symbols of a row in their order, targets ascending. -/
def transitions (n : Nfa) : List (Nat × Symbol × Nat) :=
  n.rows.zipIdx.flatMap fun (row, p) =>
    row.entries.flatMap fun (a, qs) => qs.toList.map fun q => (p, a, q)

/-- The number of transitions. -/
def transitionCount (n : Nfa) : Nat := n.transitions.length

/-- The symbols other than ε that label a transition. -/
def alphabet (n : Nfa) : OrderedSet Symbol :=
  OrderedSet.ofList ((n.rows.flatMap Table.keys).filter (· ≠ epsilon))

/-- The state of the given number. -/
def checkState (n : Nfa) (q : Int) : Except UsageError Nat := FormalLang.checkState n.count q

/-- Add a state and answer its number. -/
def addState (n : Nfa) : Nat × Nfa := (n.count, { n with rows := n.rows ++ [∅] })

/-- Add a transition between states of the automaton. -/
def link (n : Nfa) (p : Nat) (a : Symbol) (q : Nat) : Nfa :=
  { n with rows := n.rows.modify p fun row => row.alter a fun qs => (qs.getD ∅).insert q }

/-- Add a transition between states of the given numbers. -/
def addTransition (n : Nfa) (p : Int) (a : Symbol) (q : Int) : Except UsageError Nfa := do
  return n.link (← n.checkState p) a (← n.checkState q)

/-- Add a step that reads nothing. -/
def addSilent (n : Nfa) (p q : Int) : Except UsageError Nfa := n.addTransition p epsilon q

/-- The automaton of the given parts; a negative number of states stands for none. -/
def ofTables (count : Int) (start : Int) (accept : List Int) (transitions : List (Int × Symbol × Int))
    (flags : BuildFlags := {}) : Except UsageError Nfa := do
  let n : Nfa := { rows := List.replicate count.toNat ∅, flags }
  let n := { n with start := ← n.checkState start }
  let n := { n with accept := OrderedSet.ofList (← accept.mapM n.checkState) }
  transitions.foldlM (fun n (p, a, q) => n.addTransition p a q) n

/-- The states that a symbol leads to from the state of the given number. -/
def transition (n : Nfa) (q : Int) (a : Symbol) : Except UsageError (OrderedSet Nat) := do
  return n.targets (← n.checkState q) a

/-- Is this the number of an accepting state? -/
def isFinal (n : Nfa) (q : Int) : Bool := n.accept.toList.any fun p => p = q

/-- Is one of these the number of an accepting state? -/
def containsFinal (n : Nfa) (qs : List Int) : Bool := qs.any n.isFinal

/-- Does the set hold an accepting state? -/
def meetsAccept (n : Nfa) (s : OrderedSet Nat) : Bool := s.toList.any (· ∈ n.accept)

/-- One node per state and one edge per transition. -/
def diagram (n : Nfa) : Diagram :=
  n.transitions.foldl (fun d (p, a, q) => (d.addEdge p q a).2) (stateDiagram n.count n.start n.accept)

/-- The automaton in words. -/
def description (n : Nfa) : String :=
  let row := fun (r : Table Symbol (OrderedSet Nat)) =>
    Text.mapListing (r.entries.map fun (a, qs) => (Text.quoted a, stateListing qs))
  s!"NFA(num_states={n.count}, symbols={symbolListing n.alphabet.toList}, start_state={n.start}, " ++
    s!"transitions={Text.listing (n.rows.map row)}, accept_states={stateListing n.accept})"

@[simp] theorem count_link (n : Nfa) (p : Nat) (a : Symbol) (q : Nat) : (n.link p a q).count = n.count := by
  simp [count, link]

@[simp] theorem count_addState (n : Nfa) : n.addState.2.count = n.count + 1 := by
  simp [count, addState]

end Nfa

end FormalLang
