import FormalLang.OrderedSet
import FormalLang.Table

/-!
# Union-find

A partition of the items seen so far, kept as a forest: each item has a parent, and the root of a tree, its
own parent, stands for the class. `find` lets every item on its way point at the root. `union` puts the
root of lower rank under the other; of two roots of one rank the second goes under the first, whose rank
grows. An item that has not been seen becomes a class of its own when it is mentioned.

* `UnionFind.find`, `UnionFind.union`: the two operations; each returns its answer and the new forest.
* `UnionFind.classes`: the classes, in the order of their first items.
-/

namespace FormalLang

/-- A partition of the items entered so far. -/
structure UnionFind (α : Type) where
  /-- The parents of the items, in the order in which the items were entered. -/
  parents : Table α α
  /-- The ranks of the items: of a root, a bound on the height of its tree. -/
  ranks : Table α Nat
  /-- The number of classes. -/
  count : Nat
  deriving DecidableEq

namespace UnionFind

variable {α : Type} [DecidableEq α]

/-- No items. -/
def empty : UnionFind α := ⟨∅, ∅, 0⟩

/-- The items, in the order in which they were entered. -/
def items (u : UnionFind α) : List α := u.parents.keys

/-- The number of items. -/
def size (u : UnionFind α) : Nat := u.parents.size

/-- The parent of an item; an item not seen is its own. -/
def parent (u : UnionFind α) (x : α) : α := u.parents.getD x x

/-- The rank of an item; an item not seen has none. -/
def rank (u : UnionFind α) (x : α) : Nat := u.ranks.getD x 0

/-- Enter an item as a class of its own, unless it is there. -/
def makeSet (u : UnionFind α) (x : α) : UnionFind α :=
  if u.parents.contains x then u else ⟨u.parents.insert x x, u.ranks.insert x 0, u.count + 1⟩

/-- The classes of one item each, of the items of a list. -/
def ofList (l : List α) : UnionFind α := l.foldl makeSet empty

/-- The items from `x` up to the root of its tree, in at most the given number of steps. -/
def ascent (u : UnionFind α) : Nat → α → List α
  | 0, x => [x]
  | n + 1, x => if u.parent x = x then [x] else x :: ascent u n (u.parent x)

/-- The items from `x` up to the root of its tree. A tree has no more items than the forest. -/
def path (u : UnionFind α) (x : α) : List α := u.ascent u.size x

/-- The root of the tree of `x`. -/
def root (u : UnionFind α) (x : α) : α := (u.path x).getLast?.getD x

/-- Let the items of a list point at `r`. -/
def redirect (u : UnionFind α) (l : List α) (r : α) : UnionFind α :=
  { u with parents := l.foldl (fun t x => t.insert x r) u.parents }

/-- The root of the tree of `x`, which is entered first if it is new. The items on the way to the root
point at the root afterwards. -/
def find (u : UnionFind α) (x : α) : α × UnionFind α :=
  if u.parents.contains x then (u.root x, u.redirect (u.path x) (u.root x)) else (x, u.makeSet x)

/-- Put root `y` under root `x`, whose rank grows if it was that of `y`. -/
def link (u : UnionFind α) (x y : α) : UnionFind α where
  parents := u.parents.insert y x
  ranks := if u.rank x = u.rank y then u.ranks.insert x (u.rank x + 1) else u.ranks
  count := u.count - 1

/-- Merge the classes of two items. Answers whether they were different classes. -/
def union (u : UnionFind α) (x y : α) : Bool × UnionFind α :=
  let (a, u) := u.find x
  let (b, u) := u.find y
  if a = b then (false, u)
  else if u.rank a < u.rank b then (true, u.link b a)
  else (true, u.link a b)

/-- Is the item the root of its tree? An item not seen is not. -/
def isHead (u : UnionFind α) (x : α) : Bool := u.parents.get? x = some x

/-- The classes, in the order of their first items. Every item is found once. -/
def classes [Ord α] [Std.TransOrd α] (u : UnionFind α) : List (OrderedSet α) × UnionFind α :=
  let collect := fun (acc : Table α (OrderedSet α) × UnionFind α) x =>
    let (r, u) := acc.2.find x
    (acc.1.alter r fun s => (s.getD ∅).insert x, u)
  let (groups, u) := u.items.foldl collect (∅, u)
  (groups.values, u)

end UnionFind

end FormalLang
