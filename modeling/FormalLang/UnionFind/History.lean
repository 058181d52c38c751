import FormalLang.UnionFind.Basic

/-!
# Histories of union-find

The partition that a sequence of operations describes, said without a forest: two items are in one class if the pairs
that were merged connect them.

* `UnionFind.run`: the forest after some operations.
* `UnionFind.Connected`: the partition that the merged pairs generate.
* `UnionFind.Connected.mono`: more pairs keep what is connected.
-/

namespace FormalLang

namespace UnionFind

variable {α : Type}

/-- An operation on a forest. -/
inductive Operation (α : Type) where
  | makeSet (x : α)
  | find (x : α)
  | union (x y : α)
  deriving DecidableEq, Repr

namespace Operation

/-- The items that an operation mentions. -/
def items : Operation α → List α
  | makeSet x => [x]
  | find x => [x]
  | union x y => [x, y]

/-- The pair that an operation merges. -/
def pairs : Operation α → List (α × α)
  | union x y => [(x, y)]
  | _ => []

end Operation

/-- Pairs connect two items: the least equivalence in which the sides of each pair are equal. -/
inductive Connected (pairs : List (α × α)) : α → α → Prop where
  | refl (x) : Connected pairs x x
  | pair {x y} : (x, y) ∈ pairs → Connected pairs x y
  | symm {x y} : Connected pairs x y → Connected pairs y x
  | trans {x y z} : Connected pairs x y → Connected pairs y z → Connected pairs x z

theorem Connected.mono {l m : List (α × α)} (h : l ⊆ m) {x y : α} (c : Connected l x y) : Connected m x y := by
  induction c with
  | refl x => exact .refl x
  | pair h' => exact .pair (h h')
  | symm _ ih => exact .symm ih
  | trans _ _ ih₁ ih₂ => exact .trans ih₁ ih₂

theorem connected_nil {x y : α} (h : Connected [] x y) : x = y := by
  induction h with
  | refl => rfl
  | pair h => exact absurd h List.not_mem_nil
  | symm _ ih => exact ih.symm
  | trans _ _ ih₁ ih₂ => exact ih₁.trans ih₂

variable [DecidableEq α]

/-- The forest after an operation. -/
def apply (u : UnionFind α) : Operation α → UnionFind α
  | .makeSet x => u.makeSet x
  | .find x => (u.find x).2
  | .union x y => (u.union x y).2

/-- The forest after some operations. -/
def run (ops : List (Operation α)) : UnionFind α := ops.foldl apply empty

end UnionFind

end FormalLang
