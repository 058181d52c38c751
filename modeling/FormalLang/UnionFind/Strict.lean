import FormalLang.UnionFind.Basic

/-!
# Strict union-find

The operations of union-find with look-ups that fail. Only an item that is searched for is entered if it is new; its parent, the
parent of that and so on must be there, and so must the ranks of two roots that are compared. The way up must end at a root after
no more steps than there are items.

* `UnionFind.find?`, `UnionFind.union?`: the two operations; none if a look-up fails.
-/

namespace FormalLang

namespace UnionFind

variable {α : Type} [DecidableEq α]

/-- The items from `x` up to the root of its tree, if their parents are there and it is reached with the given number of look-ups. -/
def ascent? (u : UnionFind α) : Nat → α → Option (List α)
  | 0, _ => none
  | n + 1, x =>
    match u.parents.get? x with
    | none => none
    | some y => if y = x then some [x] else (u.ascent? n y).map (x :: ·)

/-- The root of the tree of `x`, and the forest after path compression. -/
def find? (u : UnionFind α) (x : α) : Option (α × UnionFind α) :=
  if u.parents.contains x then
    (u.ascent? u.size x).map fun path =>
      let r := path.getLast?.getD x
      (r, u.redirect path r)
  else some (x, u.makeSet x)

/-- Merge the classes of two items. -/
def union? (u : UnionFind α) (x y : α) : Option (Bool × UnionFind α) := do
  let (a, u) ← u.find? x
  let (b, u) ← u.find? y
  if a = b then return (false, u)
  let i ← u.ranks.get? a
  let j ← u.ranks.get? b
  return (true, if i < j then u.link b a else u.link a b)

end UnionFind

end FormalLang
