import FormalLang.Item.Closure

/-!
# The canonical collection

The states are closed sets of items. A letter that stands after a dot in a state leads to the closure of the items in
which the dot has passed it. The states are discovered breadth first from the closure of the start items, along the
letters in ascending order, and numbered as they are discovered.

* `ItemSet.goto`: the items in which the dot has passed a letter.
* `Grammar.collect`: the states and transitions, or the fault of the first closure that has one.
-/

namespace FormalLang

namespace ItemSet

/-- The items in which the dot has passed the letter `l`, of those where it stood before it. -/
def shifted (s : ItemSet) (l : Letter) : ItemSet := (s.filter fun i => i.next? = some l).image Item.shift

/-- The items in which the dot has passed a letter. It is a fault if an item has no dot. -/
def goto (s : ItemSet) (l : Letter) : Except ItemFault ItemSet :=
  if s.toList.all Item.hasDot then .ok (shifted s l) else .error .noDot

/-- The letters that stand after a dot. -/
def nextLetters (s : ItemSet) : OrderedSet Letter := OrderedSet.ofList (s.toList.filterMap Item.next?)

@[simp] theorem mem_shifted {s : ItemSet} {l : Letter} {j : Item} :
    j ∈ shifted s l ↔ ∃ i, (i ∈ s ∧ i.next? = some l) ∧ i.shift = j := by
  simp [shifted]

@[simp] theorem mem_nextLetters {s : ItemSet} {l : Letter} : l ∈ nextLetters s ↔ ∃ i ∈ s, i.next? = some l := by
  rw [nextLetters, OrderedSet.mem_ofList]
  exact List.mem_filterMap

end ItemSet

/-- The states of a grammar with the transitions between them. -/
structure Collection where
  /-- The states in the order of their numbers. -/
  states : List ItemSet
  /-- The transitions: sources ascending, letters ascending. -/
  transitions : List (Nat × Letter × Nat)
  deriving DecidableEq

namespace Grammar

/-- The closures that lead on from a state, one for each letter. -/
def closings (g : Grammar) (f : FirstFollow) (s : ItemSet) : List (Letter × Closing) :=
  s.nextLetters.toList.map fun l => (l, g.close f (s.shifted l))

/-- The states discovered from a closed set. Each is a set of items that can arise, which bounds the search. -/
def discover (g : Grammar) (f : FirstFollow) (start : ItemSet) : List ItemSet :=
  let next := fun s => (g.closings f s).filterMap fun (_, c) => c.result.toOption
  (search .breadthFirst next (Nat.pow 2 (g.itemBound f start)) [start]).found

/-- The closures that the collection makes, in their order, up to the first one with a fault. -/
def allClosings (g : Grammar) (f : FirstFollow) (seeds : ItemSet) : List Closing :=
  let first := g.close f seeds
  let later := match first.result with
    | .error _ => []
    | .ok start => (g.discover f start).flatMap fun s => (g.closings f s).map Prod.snd
  upToFirst (·.fault?.isSome) (first :: later)

/-- The collection of given states, which hold what their letters lead to. -/
def collectionOf (g : Grammar) (f : FirstFollow) (states : List ItemSet) : Collection where
  states
  transitions := states.zipIdx.flatMap fun (s, k) =>
    (g.closings f s).filterMap fun (l, c) => c.result.toOption.map fun t => (k, l, states.idxOf t)

/-- The states discovered from the closure of the start items, with their transitions. -/
def collect (g : Grammar) (f : FirstFollow) (seeds : ItemSet) : Except ItemFault Collection := do
  let start ← g.closure f seeds
  match (g.allClosings f seeds).findSome? Closing.fault? with
  | some e => .error e
  | none => return g.collectionOf f (g.discover f start)

end Grammar

end FormalLang
