import FormalLang.Dfa.Basic
import FormalLang.Nfa.Basic

/-!
# Writing automaton texts

The three headers, and then one line per transition in the order in which the automaton lists them.

* `Nfa.dump`, `Dfa.dump`: the text of an automaton.
-/

namespace FormalLang

/-- The line of a transition. -/
def transitionText : Nat × Symbol × Nat → String
  | (p, a, q) => if a = epsilon then s!"{p} ----> {q}" else s!"{p} -- '" ++ a ++ s!"' --> {q}"

/-- The text of an automaton. -/
def automatonText (count start : Nat) (accept : OrderedSet Nat) (transitions : List (Nat × Symbol × Nat)) :
    String :=
  let headers := [
    s!"start_state: {start}",
    "end_states: " ++ Text.listing (accept.toList.map toString),
    s!"num_states: {count}"]
  String.intercalate "\n" (headers ++ transitions.map transitionText) ++ "\n"

/-- The text of a nondeterministic automaton. -/
def Nfa.dump (n : Nfa) : String := automatonText n.count n.start n.accept n.transitions

/-- The text of a deterministic automaton. It does not show symbols without transitions. -/
def Dfa.dump (d : Dfa) : String := automatonText d.count d.start d.accept d.transitions

end FormalLang
