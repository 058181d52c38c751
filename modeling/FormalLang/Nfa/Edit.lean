import FormalLang.Nfa.Thompson

/-!
# Edits of nondeterministic automata

What can be done to an automaton one step at a time. A step that names no state is refused and changes nothing.

* `Nfa.edit`: the automaton after a list of edits.
-/

namespace FormalLang

/-- A change of an automaton. -/
inductive NfaEdit where
  | addState
  | addTransition (source : Int) (symbol : Symbol) (target : Int)
  | addSilent (source target : Int)
  | build (r : Regex)
  deriving DecidableEq, Repr

namespace Nfa

/-- The automaton after an edit; a refused edit leaves it as it is. -/
def apply (n : Nfa) : NfaEdit → Nfa
  | .addState => n.addState.2
  | .addTransition p a q => (n.addTransition p a q).toOption.getD n
  | .addSilent p q => (n.addSilent p q).toOption.getD n
  | .build r => n.build r

/-- The automaton after some edits. -/
def edit (n : Nfa) (edits : List NfaEdit) : Nfa := edits.foldl apply n

theorem edit_append (n : Nfa) (e f : List NfaEdit) : n.edit (e ++ f) = (n.edit e).edit f :=
  List.foldl_append

/-- Edits do not change how an automaton is built. -/
theorem flags_addRegex (r : Regex) (start : Option Nat) (n : Nfa) : (addRegex r start n).2.flags = n.flags := by
  induction r generalizing start n with
  | literal a => cases start <;> rfl
  | concat l r ihl ihr =>
    simp only [addRegex]
    split
    · simp only [link, ihr, ihl]
    · simp only [ihr, ihl]
  | alternation l r ihl ihr =>
    simp only [addRegex, link, ihr, ihl]
    cases start <;> rfl
  | star r ih =>
    simp only [addRegex, link, ih]
    cases start <;> rfl

end Nfa

end FormalLang
