import FormalLang.Dfa.Basic
import FormalLang.Nfa.Run

/-!
# The subset construction

The states of the deterministic automaton are the closed sets of states that a nondeterministic one may be in. They
are discovered depth first from the closed set before any symbol, along the symbols in ascending order, and
numbered as they are discovered. The set without elements, if it is reached, is a state like the others.

* `Nfa.subsets`: the sets in the order of their numbers.
* `Dfa.ofNfa`: the automaton on them.
-/

namespace FormalLang

/-- The closed sets that words lead to from the set `s`, in the order of discovery. There are at most as many as
there are sets of states. -/
def Nfa.subsets (n : Nfa) (s : OrderedSet Nat) : List (OrderedSet Nat) :=
  (search .depthFirst (fun s => n.alphabet.toList.map (n.step s)) (Nat.pow 2 n.count) [s]).found

namespace Dfa

/-- The tables of the automaton on the given closed sets, each numbered by its place. -/
def subsetTables (n : Nfa) (subsets : List (OrderedSet Nat)) : DfaTables where
  count := subsets.length
  start := 0
  accept := (List.range subsets.length).filterMap fun i =>
    if n.meetsAccept (subsets.getD i ∅) then some (i : Int) else none
  rows := subsets.map fun s =>
    Table.ofList (n.alphabet.toList.map fun a => (a, (subsets.idxOf (n.step s a) : Int)))
  alphabet := some n.alphabet.toList

/-- The deterministic automaton that follows all runs of a nondeterministic one at once. -/
def ofNfa (n : Nfa) (flags : BuildFlags := n.flags) : Except UsageError Dfa := do
  let subsets := n.subsets (← n.initial)
  ofTables (subsetTables n subsets) flags (some subsets)

end Dfa

end FormalLang
