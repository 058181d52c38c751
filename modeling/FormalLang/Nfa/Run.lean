import FormalLang.Nfa.Basic
import FormalLang.Search

/-!
# Runs of nondeterministic automata

An automaton reads a word by keeping the set of the states it may be in. The set is closed under silent steps
before the word and after each symbol.

* `Nfa.closure`: the states that silent steps lead to. Of several numbers that are no states the last is reported.
* `Nfa.move`: the states that one symbol leads to. Of several numbers that are no states the first is reported.
* `Nfa.accepts`: may the automaton be in an accepting state after the word?
-/

namespace FormalLang

namespace Nfa

/-- The states that silent steps lead to from given ones. Each is a given state or the target of a transition, which
bounds the search. -/
def silentReach (n : Nfa) (qs : List Nat) : OrderedSet Nat :=
  OrderedSet.ofList
    (search .depthFirst (fun q => (n.targets q epsilon).toList) (qs.length + n.transitionCount) qs).found

/-- The states that silent steps lead to from the states of the given numbers. -/
def closure (n : Nfa) (qs : List Int) : Except UsageError (OrderedSet Nat) := do
  return n.silentReach (← qs.reverse.mapM n.checkState)

/-- The states that a symbol leads to from given ones. -/
def moveAll (n : Nfa) (qs : List Nat) (a : Symbol) : OrderedSet Nat :=
  OrderedSet.unions (qs.map (n.targets · a))

/-- The states that a symbol leads to from the states of the given numbers. -/
def move (n : Nfa) (qs : List Int) (a : Symbol) : Except UsageError (OrderedSet Nat) := do
  return n.moveAll (← qs.mapM n.checkState) a

/-- The closed set after a symbol. -/
def step (n : Nfa) (s : OrderedSet Nat) (a : Symbol) : OrderedSet Nat :=
  n.silentReach (n.moveAll s.toList a).toList

/-- The closed set before any symbol. The start of an automaton without states is no state. -/
def initial (n : Nfa) : Except UsageError (OrderedSet Nat) := n.closure [n.start]

/-- Is there a way to read the word and end in an accepting state? -/
def acceptsWord (n : Nfa) (w : List Symbol) : Except UsageError Bool := do
  return n.meetsAccept (w.foldl n.step (← n.initial))

/-- Is there a way to read the text, one character at a time, and end in an accepting state? -/
def accepts (n : Nfa) (text : String) : Except UsageError Bool := n.acceptsWord (symbols text)

end Nfa

end FormalLang
