import FormalLang.Dfa.Basic
import FormalLang.Grammar.Basic

/-!
# Right-linear grammars

The grammar of a deterministic automaton has the states as nonterminals. A transition is a production that writes the
symbol before the target, and an accepting state may become ε. What a nonterminal derives is what the automaton
accepts from the state.
-/

namespace FormalLang

/-- The productions of a state: its transitions with ascending symbols, and then ε if it accepts. -/
def Dfa.stateProductions (d : Dfa) (q : Nat) : List Production :=
  let steps := (d.moves q).map fun (a, p) => (⟨q, [.terminal a, .nonterminal p]⟩ : Production)
  steps ++ if q ∈ d.accept then [⟨q, [.terminal epsilon]⟩] else []

/-- The grammar of an automaton. -/
def Grammar.ofDfa (d : Dfa) : Grammar where
  start := d.start
  productions := (List.range d.count).flatMap d.stateProductions

end FormalLang
