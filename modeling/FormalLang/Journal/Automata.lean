import FormalLang.Dfa.Minimize
import FormalLang.Dfa.Subset
import FormalLang.Journal.Basic
import FormalLang.Nfa.Thompson

/-!
# Records of automaton constructions

* `Journal.ofBuild`: the size of an automaton to which an expression was added.
* `Journal.ofSubsets`: the states of a subset construction, each one only on demand.
* `Journal.ofMarking`: the number of pairs that each round marked.
* `Journal.ofMinimize`: the rounds of marking and the numbers of states.
-/

namespace FormalLang.Journal

/-- A record about automata. -/
private def automata (message : String) : Record := ⟨.automata, message⟩

/-- The size of the automaton `n` to which an expression was added. -/
def ofBuild (n : Nfa) : List Record :=
  [automata s!"thompson construction: {n.count} states, {n.transitionCount} transitions"]

/-- The subset construction that made `d` of `n`; the start is not among the states discovered on the way. -/
def ofSubsets (n : Nfa) (d : Dfa) : List Record :=
  let sets := d.sources.getD []
  let discovered := sets.zipIdx.tail.map fun (s, i) =>
    automata s!"new dfa state {i} = {Text.listing (s.toList.map toString)}"
  (if d.flags.debug then discovered else []) ++
    [automata s!"subset construction: {n.count} nfa states -> {d.count} dfa states"]

/-- The rounds of marking the pairs of states of `d`. -/
def ofMarking (d : Dfa) : List Record :=
  let m := d.marking
  (List.range m.rounds).map fun i =>
    automata s!"minimization round {i + 1}: {m.state.values.count (i + 1)} new marks"

/-- The minimization that made `m` of `d`. -/
def ofMinimize (d m : Dfa) : List Record :=
  ofMarking d ++ [automata s!"minimization: {d.count} states -> {m.count} states"]

end FormalLang.Journal
