import FormalLang.Automaton.Text.Reading
import FormalLang.Lookup
import FormalLang.Nfa.Edit

/-!
# Automata as they are stored

An `Nfa` is a value: its number of states and its alphabet are read off its rows, and an operation that fails gives none. A stored
automaton has a field for each of them. Its operations change one field after the other, and one that fails leaves behind
what it has changed so far. Where a fragment is to begin is also told by a field: a construction sets it before each of its
parts, and each part reads it once and clears it.

* `StoredNfa.addTransition`: both ends are checked before the row and the alphabet change.
* `StoredNfa.addRegex`: the construction for an expression.
* `StoredNfa.Made`: the automata that come out of the operations, of those that fail too.
-/

namespace FormalLang

/-- An automaton as it is stored. -/
structure StoredNfa where
  /-- The number of states. -/
  count : Nat := 0
  /-- The state to start in. -/
  start : Nat := 0
  /-- The accepting states. -/
  accept : OrderedSet Nat := ∅
  /-- The transitions of each state. -/
  rows : List (Table Symbol (OrderedSet Nat)) := []
  /-- The symbols that have been used, without ε. -/
  alphabet : OrderedSet Symbol := ∅
  /-- How the automaton is built. -/
  flags : BuildFlags := {}
  /-- The state that the next fragment is to begin at. -/
  pending : Option Nat := none
  deriving DecidableEq

/-- How an operation on a stored automaton can fail. -/
inductive StoreError where
  /-- The operation is refused. -/
  | usage (error : UsageError)
  /-- A row is missing. -/
  | lookup (error : LookupError)
  deriving DecidableEq, Repr

/-- An operation on a stored automaton. -/
abbrev Storing := EStateM StoreError StoredNfa

/-- An automaton as it is stored between two operations. -/
def Nfa.stored (n : Nfa) : StoredNfa where
  count := n.count
  start := n.start
  accept := n.accept
  rows := n.rows
  alphabet := n.alphabet
  flags := n.flags

namespace StoredNfa

/-! ## Single edits -/

/-- The state of the given number. -/
def checkState (q : Int) : Storing Nat := do
  match FormalLang.checkState (← get).count q with
  | .ok p => return p
  | .error e => throw (.usage e)

/-- The row of a state. -/
def rowOf (p : Nat) : Storing (Table Symbol (OrderedSet Nat)) := do
  match found (.place p) (← get).rows[p]? with
  | .ok row => return row
  | .error e => throw (.lookup e)

/-- Add a state and answer its number. -/
def addState : Storing Nat := do
  modify fun s => { s with rows := s.rows ++ [∅] }
  modify fun s => { s with count := s.count + 1 }
  return (← get).count - 1

/-- Add a transition between states of the given numbers. -/
def addTransition (p : Int) (a : Symbol) (q : Int) : Storing Unit := do
  let p ← checkState p
  let q ← checkState q
  let row ← rowOf p
  modify fun s => { s with rows := s.rows.set p (row.alter a fun qs => (qs.getD ∅).insert q) }
  if a ≠ epsilon then
    modify fun s => { s with alphabet := s.alphabet.insert a }

/-- Add a step that reads nothing. -/
def addSilent (p q : Int) : Storing Unit := addTransition p epsilon q

/-! ## Expressions -/

/-- Tell the next fragment where to begin, if it is not to begin at a new state. -/
def beginAt (start : Option Nat) : Storing Unit := modify fun s => { s with pending := start }

/-- Where to begin, which is told only once. -/
def claimStart : Storing (Option Nat) := do
  let start := (← get).pending
  beginAt none
  return start

/-- A fragment with a new exit, and with a new entry unless it is to begin at `start`. -/
def addFragment : Option Nat → Storing Fragment
  | some p => do return ⟨p, ← addState⟩
  | none => do
    let p ← addState
    return ⟨p, ← addState⟩

/-- Add some steps that read nothing, one after the other. -/
def addSilents (l : List (Nat × Nat)) : Storing Unit := l.forM fun (p, q) => addSilent p q

/-- Add the states and transitions of an expression, which begins where it has been told to. -/
def addRegex : Regex → Storing Fragment
  | .literal a => do
    let f ← addFragment (← claimStart)
    addTransition f.entry a f.exit
    return f
  | .concat l r => do
    beginAt (← claimStart)
    let f ← addRegex l
    if (← get).flags.silentConcat then
      beginAt none
      let g ← addRegex r
      addSilent f.exit g.entry
      return ⟨f.entry, g.exit⟩
    else
      beginAt (some f.exit)
      let g ← addRegex r
      return ⟨f.entry, g.exit⟩
  | .alternation l r => do
    let f ← addFragment (← claimStart)
    beginAt none
    let u ← addRegex l
    beginAt none
    let v ← addRegex r
    addSilents [(f.entry, u.entry), (f.entry, v.entry), (u.exit, f.exit), (v.exit, f.exit)]
    return f
  | .star r => do
    let f ← addFragment (← claimStart)
    beginAt none
    let g ← addRegex r
    addSilents [(f.entry, f.exit), (f.entry, g.entry), (g.exit, g.entry), (g.exit, f.exit)]
    return f

/-- Add the fragment of an expression; the automaton starts at its entry and accepts at its exit. -/
def build (r : Regex) : Storing Unit := do
  beginAt none
  let f ← addRegex r
  modify fun s => { s with start := f.entry }
  modify fun s => { s with accept := .singleton f.exit }

/-! ## Whole automata -/

/-- Fill an empty automaton with the given parts. -/
def ofTables (count start : Int) (accept : List Int) (transitions : List (Int × Symbol × Int)) : Storing Unit := do
  (List.range count.toNat).forM fun _ => do let _ ← addState
  let p ← checkState start
  modify fun s => { s with start := p }
  let qs ← accept.mapM checkState
  modify fun s => { s with accept := .ofList qs }
  transitions.forM fun (p, a, q) => addTransition p a q

/-- An edit, as an operation. -/
def apply : NfaEdit → Storing Unit
  | .addState => do let _ ← addState
  | .addTransition p a q => addTransition p a q
  | .addSilent p q => addSilent p q
  | .build r => build r

/-- What is stored after an operation, whether it fails or not. -/
def after {α : Type} (x : Storing α) (s : StoredNfa) : StoredNfa :=
  match x s with
  | .ok _ t => t
  | .error _ t => t

/-- The stored automata that the operations make. -/
inductive Made : StoredNfa → Prop where
  | empty (flags : BuildFlags) : Made { flags }
  | ofTables {s : StoredNfa} {count start : Int} {accept : List Int} {transitions : List (Int × Symbol × Int)}
      {flags : BuildFlags} : ofTables count start accept transitions { flags } = .ok () s → Made s
  | load {s : StoredNfa} {text : String} {t : AutomatonText} {flags : BuildFlags} : AutomatonText.read text = .ok t →
      ofTables t.count t.start (t.accept.map Int.ofNat)
        (t.transitions.map fun e => ((e.source : Int), e.symbol, (e.target : Int))) { flags } = .ok () s → Made s
  | apply {s : StoredNfa} (e : NfaEdit) : Made s → Made (after (apply e) s)

end StoredNfa

end FormalLang
