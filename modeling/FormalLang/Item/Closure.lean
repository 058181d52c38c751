import FormalLang.Item.Basic

/-!
# Closures of item sets

An item with its dot before a nonterminal predicts the items that begin the productions of that nonterminal. An item
without a lookahead predicts items without one; otherwise their lookaheads are what can come after the nonterminal:
the first set of the rest of the body, and the item's own lookahead if the rest may vanish. A closure adds the
predicted items until there are no more. It enters the productions of a nonterminal only once with each lookahead.

* `Grammar.closure`: the closed set, or the fault of the first visited item that has one.
* `Grammar.visitItems`: the visits, which remember the nonterminals and lookaheads that have been met.
* `Closing.looksAhead`: were first sets looked up on the way?
-/

namespace FormalLang

/-- The lookaheads of what is predicted before `rest`: the first set in ascending order, then the given one. -/
def FirstFollow.lookaheads (f : FirstFollow) (rest : List Letter) :
    Option Symbol → Except MissingNonterminal (List (Option Symbol))
  | none => .ok [none]
  | some a => do
    let s ← f.firstOfSequence rest
    return (visible s).toList.map some ++ if epsilon ∈ s then [some a] else []

namespace Item

/-- The nonterminal after the dot, with the rest of the body. -/
def expected? (i : Item) : Option (Int × List Letter) :=
  match i.after? with
  | some (.nonterminal n :: rest) => some (n, rest)
  | _ => none

/-- The nonterminal after the dot with each lookahead of what is predicted for it, as they are listed. -/
def demands (f : FirstFollow) (i : Item) : Except ItemFault (List (Int × Option Symbol)) :=
  if i.hasDot then
    match i.expected? with
    | none => .ok []
    | some (n, rest) => do
      let lookaheads ← (f.lookaheads rest i.lookahead).mapError .missing
      return lookaheads.map fun a => (n, a)
  else .error .noDot

end Item

/-- The items that begin the productions of a nonterminal, with a lookahead. -/
def Grammar.initialItems (g : Grammar) (d : Int × Option Symbol) : List Item :=
  (g.productionsOf d.1).map (·.initialItem d.2)

namespace Item

/-- What an item demands, nothing for an item with a fault. -/
def demanded (f : FirstFollow) (i : Item) : List (Int × Option Symbol) := (i.demands f).toOption.getD []

/-- The fault of an item, if it has one. -/
def fault? (f : FirstFollow) (i : Item) : Option ItemFault :=
  match i.demands f with
  | .error e => some e
  | .ok _ => none

/-- Are first sets looked up for what the item predicts? -/
def looksAhead (i : Item) : Bool := i.lookahead.isSome && i.expected?.isSome

end Item

/-- A set of items. -/
abbrev ItemSet := OrderedSet Item

namespace Grammar

/-! ## Bounds -/

/-- The number of lookaheads that can arise from given items: none, those of the items, and the symbols of bodies and
first sets. -/
def lookaheadBound (g : Grammar) (f : FirstFollow) (s : ItemSet) : Nat :=
  1 + s.size + (s.toList.flatMap Item.body).length + (g.productions.flatMap (·.body)).length +
    (f.first.values.flatMap OrderedSet.toList).length

/-- The number of items that can arise from given ones: each item and each production with the dot at each place, the
productions with each lookahead. -/
def itemBound (g : Grammar) (f : FirstFollow) (s : ItemSet) : Nat :=
  s.size + (s.toList.flatMap Item.body).length +
    (g.productions.length + (g.productions.flatMap (·.body)).length) * g.lookaheadBound f s

end Grammar

/-! ## Closures -/

/-- The elements up to the first one that satisfies `p`, that one included. -/
def upToFirst {α : Type} (p : α → Bool) : List α → List α
  | [] => []
  | a :: as => if p a then [a] else a :: upToFirst p as

/-- What the making of a closure did. -/
structure Closing where
  /-- The items that it began with. -/
  seeds : ItemSet
  /-- The items whose predictions were asked for. -/
  visits : List Item
  /-- The closed set, or the fault of the last visited item. -/
  result : Except ItemFault ItemSet

namespace Closing

/-- The fault, if there was one. -/
def fault? (c : Closing) : Option ItemFault :=
  match c.result with
  | .error e => some e
  | .ok _ => none

/-- Were first sets looked up? -/
def looksAhead (c : Closing) : Bool := c.visits.any Item.looksAhead

end Closing

namespace Grammar

/-- Make at most the given number of visits to items that wait, the head of them first. What an item predicts is found
and then waits, unless its nonterminal has been met with its lookahead. -/
def visitItems (g : Grammar) (f : FirstFollow) :
    Nat → List (Int × Option Symbol) → List Item → List Item → Search.Trace Item
  | 0, _, found, _ => ⟨found, []⟩
  | _ + 1, _, found, [] => ⟨found, []⟩
  | n + 1, met, found, i :: waiting =>
    let new := Search.unseen met (i.demanded f)
    let fresh := Search.unseen found (new.flatMap g.initialItems)
    let rest := visitItems g f n (met ++ new) (found ++ fresh) (fresh.reverse ++ waiting)
    ⟨rest.found, i :: rest.visited⟩

/-- Make a closure. It ends with the first item that has a fault. -/
def close (g : Grammar) (f : FirstFollow) (seeds : ItemSet) : Closing :=
  let trace := g.visitItems f (g.itemBound f seeds) [] seeds.toList seeds.toList.reverse
  { seeds
    visits := upToFirst (fun i => (i.fault? f).isSome) trace.visited
    result := match trace.visited.findSome? (Item.fault? f) with
      | some e => .error e
      | none => .ok (OrderedSet.ofList trace.found) }

/-- The set with all items that are predicted, directly or through others. -/
def closure (g : Grammar) (f : FirstFollow) (s : ItemSet) : Except ItemFault ItemSet := (g.close f s).result

end Grammar

end FormalLang
