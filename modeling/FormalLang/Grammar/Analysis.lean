import FormalLang.Grammar.Basic
import FormalLang.Rounds
import FormalLang.Search

/-!
# Analyses of grammars

Two analyses mark nonterminals from below: a round takes the productions in their order and marks the head of each
one whose body passes a test on the marks made so far, until a round marks nothing more. Two others search from
above, along the nonterminals of bodies.

* `Grammar.nullable`: the nonterminals that derive the empty word.
* `Grammar.generators`: the nonterminals that derive a word of terminals.
* `Grammar.reachable`: the nonterminals that occur in what the start derives.
* `Grammar.unitTargets`: the nonterminals that one derives by unit productions alone.
-/

namespace FormalLang

namespace Grammar

/-! ## Marking -/

/-- Mark the heads of the productions whose bodies pass the test. -/
def markRound (g : Grammar) (test : OrderedSet Int → List Letter → Bool) (marks : OrderedSet Int) :
    OrderedSet Int :=
  g.productions.foldl (fun s p => if test s p.body then s.insert p.head else s) marks

/-- The nonterminals that are marked when a round marks nothing more. Each round but the last marks the head of a
production. -/
def mark (g : Grammar) (test : OrderedSet Int → List Letter → Bool) : OrderedSet Int :=
  (settle (fun _ => g.markRound test) (g.productions.length + 1) ∅).state

/-- May all letters vanish, if those of a set may? -/
def canVanish (marks : OrderedSet Int) (body : List Letter) : Bool :=
  body.all fun
    | .nonterminal n => n ∈ marks
    | .terminal a => a = epsilon

/-- Can all letters become words, if the nonterminals of a set can? -/
def canFinish (marks : OrderedSet Int) (body : List Letter) : Bool :=
  body.all fun
    | .nonterminal n => n ∈ marks
    | .terminal _ => true

/-- The nonterminals that derive the empty word. -/
def nullable (g : Grammar) : OrderedSet Int := g.mark canVanish

/-- The nonterminals that derive a word of terminals. -/
def generators (g : Grammar) : OrderedSet Int := g.mark canFinish

/-! ## Searching -/

/-- The nonterminals that lead on from one. -/
def successors (g : Grammar) (n : Int) : List Int := (g.productionsOf n).flatMap Production.nonterminals

/-- The nonterminals that the unit productions of one lead to. -/
def unitSuccessors (g : Grammar) (n : Int) : List Int :=
  ((g.productionsOf n).filter Production.isUnit).flatMap Production.nonterminals

/-- The nonterminals found from `n` along `next`. -/
def reach (g : Grammar) (next : Int → List Int) (n : Int) : OrderedSet Int :=
  OrderedSet.ofList (search .depthFirst next g.nonterminals.size [n]).found

/-- The nonterminals that occur in what the start derives. -/
def reachable (g : Grammar) : OrderedSet Int := g.reach g.successors g.start

/-- The nonterminals that `n` derives by unit productions alone, with `n` itself. -/
def unitTargets (g : Grammar) (n : Int) : OrderedSet Int := g.reach g.unitSuccessors n

/-- Each nonterminal with each one that it derives by unit productions alone, in ascending order. -/
def unitPairs (g : Grammar) : List (Int × Int) :=
  g.nonterminals.toList.flatMap fun n => (g.unitTargets n).toList.map fun m => (n, m)

theorem mem_unitPairs {g : Grammar} {n m : Int} :
    (n, m) ∈ g.unitPairs ↔ n ∈ g.nonterminals ∧ m ∈ g.unitTargets n := by
  simp [unitPairs, OrderedSet.mem_def]

end Grammar

end FormalLang
