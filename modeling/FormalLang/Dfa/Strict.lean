import FormalLang.Automaton.Text.Writing
import FormalLang.Dfa.Minimize
import FormalLang.Grammar.RightLinear
import FormalLang.Lookup
import FormalLang.UnionFind.Strict

/-!
# Strict operations on the parts of an automaton

A `Dfa` is made of parts that fit together. Here its operations are given for parts of which nothing is known, and stop at
the first look-up that finds nothing: a state without a row, a symbol that a row should have, a state without a class. Whether the
automaton is complete is told from the sizes of the rows alone, and the rows of a complete one are then used as they are.

* `DfaParts.accepts`: the run on a text.
* `DfaParts.completed`, `DfaParts.marks`, `DfaParts.equivalentPairs`: the table of distinguishable pairs.
* `DfaParts.minimize`: the classes of states in a forest, and the tables on them.
* `DfaParts.transitions`, `DfaParts.diagram`, `DfaParts.dump`, `DfaParts.grammar`: what is read off the rows.
-/

namespace FormalLang

/-- The parts of a deterministic automaton. -/
structure DfaParts where
  /-- The number of states. -/
  count : Nat
  /-- The transitions of each state. -/
  rows : List (Table Symbol Nat)
  /-- The state to start in. -/
  start : Nat
  /-- The accepting states. -/
  accept : OrderedSet Nat
  /-- The symbols. -/
  alphabet : OrderedSet Symbol
  deriving DecidableEq

/-- The parts of an automaton. -/
def Dfa.parts (d : Dfa) : DfaParts := ⟨d.count, d.rows, d.start, d.accept, d.alphabet⟩

namespace DfaParts

/-- The row of a state. -/
def rowOf (rows : List (Table Symbol Nat)) (q : Nat) : Except LookupError (Table Symbol Nat) := found (.place q) rows[q]?

/-- The state that a symbol leads to. -/
def targetOf (rows : List (Table Symbol Nat)) (q : Nat) (a : Symbol) : Except LookupError Nat := do
  found (.symbol a) ((← rowOf rows q).get? a)

/-! ## Runs -/

/-- Does reading the word from the state `q` end in an accepting state? A symbol that is not in the alphabet and a missing
transition reject it. -/
def acceptsFrom (d : DfaParts) (q : Nat) : List Symbol → Except LookupError Bool
  | [] => .ok (q ∈ d.accept)
  | a :: w =>
    if a ∈ d.alphabet then
      rowOf d.rows q >>= fun row =>
        match row.get? a with
        | none => .ok false
        | some p => d.acceptsFrom p w
    else .ok false

/-- Does reading the text, one character at a time, end in an accepting state? -/
def accepts (d : DfaParts) (text : String) : Except LookupError Bool := d.acceptsFrom d.start (symbols text)

/-! ## Distinguishable states -/

/-- Have all rows as many symbols as there are? -/
def isComplete (d : DfaParts) : Bool := d.rows.all fun row => row.size = d.alphabet.size

/-- The number of states and the rows, with a dead state unless the automaton is complete. -/
def completed (d : DfaParts) : Nat × List (Table Symbol Nat) :=
  if d.isComplete then (d.count, d.rows)
  else
    let fill := fun (row : Table Symbol Nat) => Table.ofList (d.alphabet.toList.map fun a => (a, row.getD a d.count))
    (d.count + 1, d.rows.map fill ++ [fill ∅])

/-- Does some symbol lead the two states to a marked pair? -/
def leadsToMark (rows : List (Table Symbol Nat)) (symbols : List Symbol) (marks : Table (Nat × Nat) Nat) (p q : Nat) :
    Except LookupError Bool :=
  symbols.anyM fun a => do return marks.contains (Dfa.orderedPair (← targetOf rows p a) (← targetOf rows q a))

/-- What a round does with one pair. A pair that is marked is not looked at. -/
def markPair (rows : List (Table Symbol Nat)) (symbols : List Symbol) (round : Nat) (marks : Table (Nat × Nat) Nat)
    (e : Nat × Nat) : Except LookupError (Table (Nat × Nat) Nat) :=
  if marks.contains e then .ok marks
  else do return if ← leadsToMark rows symbols marks e.1 e.2 then marks.insert e round else marks

/-- The distinguishable pairs of states, each with the round that marked it. -/
def marks (d : DfaParts) : Except LookupError (Table (Nat × Nat) Nat) := do
  let (count, rows) := d.completed
  let pairs := Dfa.pairsBelow count
  let first := Table.ofList ((pairs.filter fun (p, q) => (p ∈ d.accept) != (q ∈ d.accept)).map (·, 0))
  let round := fun k marks => pairs.foldlM (markPair rows d.alphabet.toList k) marks
  return (← settleM round (pairs.length + 1) first).state

/-- The pairs of states that no round marks. -/
def equivalentPairs (d : DfaParts) : Except LookupError (List (Nat × Nat)) := do
  let marks ← d.marks
  return (Dfa.pairsBelow d.count).filter (!marks.contains ·)

/-! ## What is read off the rows -/

/-- The symbols with a transition in a row, ascending, and where they lead. -/
def movesOf (row : Table Symbol Nat) : Except LookupError (List (Symbol × Nat)) :=
  (OrderedSet.ofList row.keys).toList.mapM fun a => do return (a, ← found (.symbol a) (row.get? a))

/-- The transitions of a row, from the state that it is the row of. -/
def transitionsOf (row : Table Symbol Nat) (p : Nat) : Except LookupError (List (Nat × Symbol × Nat)) := do
  return (← movesOf row).map fun (a, q) => (p, a, q)

/-- All transitions: sources ascending, symbols ascending. -/
def transitions (d : DfaParts) : Except LookupError (List (Nat × Symbol × Nat)) := do
  return (← d.rows.zipIdx.mapM fun (row, p) => transitionsOf row p).flatten

/-- Add one edge for each target of a row, labelled with its symbols. -/
def addEdges (g : Diagram) (row : Table Symbol Nat) (p : Nat) : Except LookupError Diagram := do
  let fans := (← movesOf row).foldl (fun (t : Table Nat (List Symbol)) (a, q) => t.alter q fun l => l.getD [] ++ [a]) ∅
  return fans.entries.foldl (fun g (q, l) => (g.addEdge p q (String.intercalate "," l)).2) g

/-- One node per state, and one edge per pair of states with a transition. -/
def diagram (d : DfaParts) : Except LookupError Diagram :=
  d.rows.zipIdx.foldlM (fun g (row, p) => addEdges g row p) (stateDiagram d.count d.start d.accept)

/-- The text of the automaton. -/
def dump (d : DfaParts) : Except LookupError String := do
  return automatonText d.count d.start d.accept (← d.transitions)

/-- The productions of a state: its transitions with ascending symbols, and then ε if it accepts. -/
def productionsOf (d : DfaParts) (q : Nat) : Except LookupError (List Production) := do
  let steps := (← movesOf (← rowOf d.rows q)).map fun (a, p) => (⟨q, [.terminal a, .nonterminal p]⟩ : Production)
  return steps ++ if q ∈ d.accept then [⟨q, [.terminal epsilon]⟩] else []

/-- The grammar of the automaton. -/
def grammar (d : DfaParts) : Except LookupError Grammar := do
  return { start := d.start, productions := (← (List.range d.count).mapM d.productionsOf).flatten }

/-! ## Minimization -/

/-- A computation that searches a forest of states. -/
abbrev Numbering := StateT (UnionFind Nat) (Except LookupError)

/-- What a look-up finds. -/
def look {α : Type} (e : LookupError) (x : Option α) : Numbering α := fun u => (found e x).map (·, u)

/-- The root of the tree of a state. -/
def rootOf (q : Nat) : Numbering Nat := fun u => found (.state q) (u.find? q)

/-- The forest after the pairs have been merged. -/
def merge (pairs : List (Nat × Nat)) (u : UnionFind Nat) : Except LookupError (UnionFind Nat) :=
  pairs.foldlM (fun u (p, q) => (found (.state p) (u.union? p q)).map Prod.snd) u

/-- The lowest state of each tree, by its root. -/
def representatives (count : Nat) : Numbering (Table Nat Nat) :=
  (List.range count).foldlM (fun t q => do return t.insertNew (← rootOf q) q) ∅

/-- The number of the class of a state: the place of the lowest state of its tree. -/
def numberOf (representatives places : Table Nat Nat) (q : Nat) : Numbering Nat := do
  let r ← rootOf q
  let head ← look (.state r) (representatives.get? r)
  look (.state head) (places.get? head)

/-- The tables on the classes of the trees, and the classes. The first transition of a class on a symbol decides. -/
def quotient (d : DfaParts) (transitions : List (Nat × Symbol × Nat)) : Numbering (DfaTables × List (OrderedSet Nat)) := do
  let lowest ← representatives d.count
  let heads := lowest.values.mergeSort (· ≤ ·)
  let number := numberOf lowest (Table.ofList heads.zipIdx)
  let rows ← transitions.foldlM (fun (rows : List (Table Symbol Int)) (p, a, q) => do
    let i ← number p
    let row ← look (.place i) rows[i]?
    let j ← number q
    return rows.set i (row.insertNew a j)) (List.replicate heads.length ∅)
  let classes ← (List.range d.count).foldlM (fun (classes : List (OrderedSet Nat)) q => do
    let i ← number q
    let s ← look (.place i) classes[i]?
    return classes.set i (s.insert q)) (List.replicate heads.length ∅)
  let start ← number d.start
  let accept ← d.accept.toList.mapM number
  return ({
    count := heads.length
    start := start
    accept := accept.map Int.ofNat
    rows
    alphabet := some d.alphabet.toList }, classes)

/-- The automaton on the classes of states that are not distinguishable. -/
def minimize (d : DfaParts) (flags : BuildFlags) : Except LookupError (Except UsageError Dfa) := do
  let u ← merge (← d.equivalentPairs) (UnionFind.ofList (List.range d.count))
  let ((tables, classes), _) ← (d.quotient (← d.transitions)).run u
  return Dfa.ofTables tables flags (some classes)

end DfaParts

end FormalLang
