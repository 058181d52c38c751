import FormalLang.Dfa.Basic
import FormalLang.Rounds

/-!
# Distinguishable states

Two states are distinguishable if some word is accepted from exactly one of them. A missing transition leads to a dead
state, which is numbered after all others and exists only if a transition is missing.

Pairs are marked in rounds. Round zero marks the pairs of which exactly one state accepts. Every later round goes through
the pairs in order and marks those that some symbol leads to a marked pair, one marked earlier in the same
round included. The rounds end with one that marks nothing.

* `Dfa.marks`: the marked pairs with their rounds.
* `Dfa.equivalentPairs`: the pairs of states that stay unmarked.
-/

namespace FormalLang

namespace Dfa

/-- The number of states, the dead state included if a transition is missing. -/
def completedCount (d : Dfa) : Nat := if d.isComplete then d.count else d.count + 1

/-- The state that a symbol leads to; the dead state if there is no transition. -/
def completedTarget (d : Dfa) (q : Nat) (a : Symbol) : Nat := (d.target? q a).getD d.count

/-- The pairs of numbers below `n`, the smaller one first, in lexicographic order. -/
def pairsBelow (n : Nat) : List (Nat × Nat) :=
  (List.range n).flatMap fun q => ((List.range n).filter (q < ·)).map (q, ·)

/-- Two numbers, the smaller one first. -/
def orderedPair (p q : Nat) : Nat × Nat := (min p q, max p q)

/-- Does exactly one of the two states accept? -/
def differAtOnce (d : Dfa) (p q : Nat) : Bool := (p ∈ d.accept) != (q ∈ d.accept)

/-- The marks of round zero. -/
def firstMarks (d : Dfa) : Table (Nat × Nat) Nat :=
  Table.ofList (((pairsBelow d.completedCount).filter fun (p, q) => d.differAtOnce p q).map (·, 0))

/-- Does some symbol lead the two states to a marked pair? -/
def leadsToMark (d : Dfa) (marks : Table (Nat × Nat) Nat) (p q : Nat) : Bool :=
  d.alphabet.toList.any fun a => marks.contains (orderedPair (d.completedTarget p a) (d.completedTarget q a))

/-- The marks after a further round. -/
def markRound (d : Dfa) (round : Nat) (marks : Table (Nat × Nat) Nat) : Table (Nat × Nat) Nat :=
  (pairsBelow d.completedCount).foldl
    (fun marks (p, q) =>
      if !marks.contains (p, q) && d.leadsToMark marks p q then marks.insert (p, q) round else marks)
    marks

/-- The rounds of marking. Each but the last marks a pair. -/
def marking (d : Dfa) : Settled (Table (Nat × Nat) Nat) :=
  settle d.markRound ((pairsBelow d.completedCount).length + 1) d.firstMarks

/-- The distinguishable pairs of states, each with the round that marked it. -/
def marks (d : Dfa) : Table (Nat × Nat) Nat := d.marking.state

/-- The distinguishable pairs in lexicographic order, each with the round that marked it. -/
def markList (d : Dfa) : List (Nat × Nat × Nat) :=
  let marks := d.marks
  (pairsBelow d.completedCount).filterMap fun (p, q) => (marks.get? (p, q)).map fun i => (p, q, i)

/-- The pairs of states that no round marks, in lexicographic order. -/
def equivalentPairs (d : Dfa) : List (Nat × Nat) :=
  let marks := d.marks
  (pairsBelow d.count).filter (!marks.contains ·)

end Dfa

end FormalLang
