import FormalLang.Dfa.Distinguish
import FormalLang.UnionFind.Basic

/-!
# Minimization

States that no word distinguishes are merged. The classes are numbered by their lowest members. A class has a
transition on a symbol if one of its members has; all members that have one lead to the same class.

* `Dfa.classes`: the classes in the order of their numbers.
* `Dfa.minimize`: the automaton on the classes.
-/

namespace FormalLang

namespace Dfa

/-- The classes of states that are not distinguishable, in the order of their lowest members. -/
def classes (d : Dfa) : List (OrderedSet Nat) :=
  (d.equivalentPairs.foldl (fun u (p, q) => (u.union p q).2) (UnionFind.ofList (List.range d.count))).classes.1

/-- The number of the class of a state. -/
def classOf (classes : List (OrderedSet Nat)) (q : Nat) : Nat := classes.findIdx (q ∈ ·)

/-- The tables of the automaton on the given classes. The first member with a transition on a symbol decides. -/
def quotientTables (d : Dfa) (classes : List (OrderedSet Nat)) : DfaTables where
  count := classes.length
  start := classOf classes d.start
  accept := d.accept.toList.map fun q => (classOf classes q : Int)
  rows := classes.map fun c =>
    (d.transitions.filter (·.1 ∈ c)).foldl (fun row (_, a, q) => row.insertNew a (classOf classes q)) ∅
  alphabet := some d.alphabet.toList

/-- The automaton on the classes of states that are not distinguishable. -/
def minimize (d : Dfa) (flags : BuildFlags := d.flags) : Except UsageError Dfa :=
  let classes := d.classes
  ofTables (d.quotientTables classes) flags (some classes)

end Dfa

end FormalLang
