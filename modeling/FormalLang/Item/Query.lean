import FormalLang.Grammar.Memo
import FormalLang.Item.Collection

/-!
# Closures and collections as queries

Closures and collections of a grammar that remembers its tables. A closure asks for the tables once for each visited item whose
predictions need first sets, and not before; a collection makes a closure for the start items and for each letter of each state,
in the order in which the states are found.

* `Memo.Query.lookaheads`: the lookaheads of what is predicted.
* `Memo.Query.closure`, `Memo.Query.collect`: the closed set and the canonical collection, or the first fault on the way.
* `Memo.closure`, `Memo.collect`: the answers to these queries, and the grammar after them.
-/

namespace FormalLang

/-- The letters that stand after a dot. It is a fault if an item has no dot. -/
def ItemSet.checkedLetters (s : ItemSet) : Except ItemFault (OrderedSet Letter) :=
  if s.toList.all Item.hasDot then .ok s.nextLetters else .error .noDot

/-- Add the state `t` unless it is there, and the transition that leads to it from the state `k`. -/
def Collection.add (c : Collection) (k : Nat) (l : Letter) (t : ItemSet) : Collection :=
  let states := if t ∈ c.states then c.states else c.states ++ [t]
  ⟨states, c.transitions ++ [(k, l, states.idxOf t)]⟩

namespace Memo

namespace Query

/-- The lookaheads of what is predicted before `rest`. Without a given lookahead no tables are used. -/
def lookaheads (rest : List Letter) : Option Symbol → Query (List (Option Symbol))
  | none => return [none]
  | some a => lookUp fun f => f.lookaheads rest (some a)

/-- The nonterminal after the dot with each lookahead of what is predicted for it. -/
def demands (i : Item) : Query (List (Int × Option Symbol)) :=
  if i.hasDot then
    match i.expected? with
    | none => return []
    | some (n, rest) => return (← lookaheads rest i.lookahead).map fun a => (n, a)
  else throw (.fault .noDot)

/-- Make at most the given number of visits to items that wait, the head of them first. What an item predicts is found and then
waits, unless its nonterminal has been met with its lookahead. -/
def visitItems (g : Grammar) : Nat → List (Int × Option Symbol) → List Item → List Item → Query (List Item)
  | 0, _, found, _ => return found
  | _ + 1, _, found, [] => return found
  | n + 1, met, found, i :: waiting => do
    let new := Search.unseen met (← demands i)
    let fresh := Search.unseen found (new.flatMap g.initialItems)
    visitItems g n (met ++ new) (found ++ fresh) (fresh.reverse ++ waiting)

/-- The set with all items that are predicted, directly or through others. The productions and the tables that would be read now
bound the number of visits. -/
def closure (s : ItemSet) : Query ItemSet := do
  let m : Memo ← get
  return OrderedSet.ofList (← visitItems m.grammar (m.grammar.itemBound m.current s) [] s.toList s.toList.reverse)

/-- Follow a letter from the state `s`, whose number is `k`. -/
def follow (k : Nat) (s : ItemSet) (c : Collection) (l : Letter) : Query Collection := do
  return c.add k l (← closure (← check (s.goto l)))

/-- Follow the letters of at most the given number of states, beginning with the one whose number is `k`. -/
def followAll : Nat → Nat → Collection → Query Collection
  | 0, _, c => return c
  | n + 1, k, c =>
    match c.states[k]? with
    | none => return c
    | some s => do
      let letters ← check s.checkedLetters
      followAll n (k + 1) (← letters.toList.foldlM (follow k s) c)

/-- The states discovered from the closure of the start items, with their transitions. Their number is bounded by that of the sets
of items. -/
def collect (s : ItemSet) : Query Collection := do
  let start ← closure s
  let m : Memo ← get
  followAll (Nat.pow 2 (m.grammar.itemBound m.current start)) 0 ⟨[start], []⟩

end Query

/-- The closure of a set of items, and the grammar after it has been asked for. -/
def closure (m : Memo) (s : ItemSet) : Except QueryFault ItemSet × Memo := m.ask (Query.closure s)

/-- The canonical collection from a set of items, and the grammar after it has been asked for. -/
def collect (m : Memo) (s : ItemSet) : Except QueryFault Collection × Memo := m.ask (Query.collect s)

end Memo

end FormalLang
