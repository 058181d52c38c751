import FormalLang.Nfa.Basic
import FormalLang.Regex.Basic

/-!
# From expressions to automata

Each expression becomes a fragment with an entry and an exit. A fragment may be told to begin at a state that exists. In
a concatenation the right fragment begins at the exit of the left one, or a silent step joins the two.
An alternation and a star take their two states before their parts, and their silent steps come last.

* `Nfa.build`: add the fragment of an expression and start and accept at its ends.
-/

namespace FormalLang

/-- A part of an automaton with one way in and one way out. -/
structure Fragment where
  entry : Nat
  exit : Nat
  deriving DecidableEq, Repr

namespace Nfa

/-- A fragment with a new exit, and with a new entry unless it is to begin at `start`. -/
def addFragment (n : Nfa) : Option Nat → Fragment × Nfa
  | some p =>
    let (q, n) := n.addState
    (⟨p, q⟩, n)
  | none =>
    let (p, n) := n.addState
    let (q, n) := n.addState
    (⟨p, q⟩, n)

/-- Add the states and transitions of an expression. -/
def addRegex : Regex → Option Nat → Nfa → Fragment × Nfa
  | .literal a, start, n =>
    let (f, n) := n.addFragment start
    (f, n.link f.entry a f.exit)
  | .concat l r, start, n =>
    let (f, n) := addRegex l start n
    if n.flags.silentConcat then
      let (g, n) := addRegex r none n
      (⟨f.entry, g.exit⟩, n.link f.exit epsilon g.entry)
    else
      let (g, n) := addRegex r (some f.exit) n
      (⟨f.entry, g.exit⟩, n)
  | .alternation l r, start, n =>
    let (f, n) := n.addFragment start
    let (u, n) := addRegex l none n
    let (v, n) := addRegex r none n
    let n := (n.link f.entry epsilon u.entry).link f.entry epsilon v.entry
    (f, (n.link u.exit epsilon f.exit).link v.exit epsilon f.exit)
  | .star r, start, n =>
    let (f, n) := n.addFragment start
    let (g, n) := addRegex r none n
    let n := (n.link f.entry epsilon f.exit).link f.entry epsilon g.entry
    (f, (n.link g.exit epsilon g.entry).link g.exit epsilon f.exit)

/-- Add the fragment of an expression; the automaton starts at its entry and accepts at its exit. -/
def build (n : Nfa) (r : Regex) : Nfa :=
  let (f, n) := addRegex r none n
  { n with start := f.entry, accept := OrderedSet.singleton f.exit }

/-- The automaton of an expression. -/
def ofRegex (r : Regex) (flags : BuildFlags := {}) : Nfa := build { flags } r

end Nfa

end FormalLang
