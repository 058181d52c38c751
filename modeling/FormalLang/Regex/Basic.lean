import FormalLang.Diagram.Basic
import FormalLang.Symbol

/-!
# Regular expressions

Trees over literals, concatenation, alternation and the Kleene star. A literal is any text; what is read
from a text has literals of one character.

* `Regex.preorder`: the subtrees, each before its own subtrees, left before right.
* `Regex.diagram`: one node per subtree, numbered in preorder, and an edge from each tree to its children.
-/

namespace FormalLang

/-- A regular expression. -/
inductive Regex where
  | literal (symbol : Symbol)
  | concat (left right : Regex)
  | alternation (left right : Regex)
  | star (inner : Regex)
  deriving DecidableEq, Repr, Inhabited

namespace Regex

/-- Is the tree a literal? -/
def isLiteral : Regex → Bool
  | literal _ => true
  | _ => false

/-- Is the tree a concatenation? -/
def isConcat : Regex → Bool
  | concat _ _ => true
  | _ => false

/-- Is the tree an alternation? -/
def isAlternation : Regex → Bool
  | alternation _ _ => true
  | _ => false

/-- Is the tree a star? -/
def isStar : Regex → Bool
  | star _ => true
  | _ => false

/-- Is the tree a literal, starred or not? -/
def isAtom : Regex → Bool
  | literal _ => true
  | star r => r.isLiteral
  | _ => false

/-- Is the tree a run of literals, starred or not, folded to the left? -/
def isRun : Regex → Bool
  | concat l r => l.isRun && r.isAtom
  | literal _ => true
  | star r => r.isLiteral
  | alternation _ _ => false

/-- The trees directly below. -/
def children : Regex → List Regex
  | literal _ => []
  | concat l r => [l, r]
  | alternation l r => [l, r]
  | star r => [r]

/-- The subtrees, each before its own subtrees, left before right. -/
def preorder : Regex → List Regex
  | literal s => [literal s]
  | concat l r => concat l r :: (l.preorder ++ r.preorder)
  | alternation l r => alternation l r :: (l.preorder ++ r.preorder)
  | star r => star r :: r.preorder

/-- The number of subtrees. -/
def size (r : Regex) : Nat := r.preorder.length

/-- The number of subtrees of a kind. -/
def number (r : Regex) (kind : Regex → Bool) : Nat := r.preorder.countP kind

/-- The symbols of the literals, from left to right. -/
def literals : Regex → List Symbol
  | literal s => [s]
  | concat l r => l.literals ++ r.literals
  | alternation l r => l.literals ++ r.literals
  | star r => r.literals

/-- The tree in words, with the names of the children; a literal stands for itself. -/
def description : Regex → String
  | literal s => s
  | concat l r => "Concat(left=" ++ l.description ++ ", right=" ++ r.description ++ ")"
  | alternation l r => "Alternation(left=" ++ l.description ++ ", right=" ++ r.description ++ ")"
  | star r => "Star(inner=" ++ r.description ++ ")"

/-- The text of a tree's node in a drawing. -/
def label : Regex → String
  | literal s => s
  | concat _ _ => "·"
  | alternation _ _ => "|"
  | star _ => "*"

/-- The kind of a tree's node, with the symbol of a literal. -/
def kind : Regex → String
  | literal s => "literal " ++ s
  | concat _ _ => "concat"
  | alternation _ _ => "alternation"
  | star _ => "star"

/-- Add a node with the given label below `parent`, and answer its identifier. -/
def drawNode (label : String) (parent : Option Int) (d : Diagram) : Int × Diagram :=
  let (id, d) := d.addNode label
  match parent with
  | none => (id, d)
  | some p => (id, (d.addEdge p id).2)

/-- A tree comes before the trees directly below it. -/
theorem preorder_eq (r : Regex) : r.preorder = r :: r.children.flatMap preorder := by
  cases r <;> simp [preorder, children]

/-- Draw the trees that wait, each below its parent. Once a tree has its node, its children wait before all others. -/
def drawAll : List (Option Int × Regex) → Diagram → Diagram
  | [], d => d
  | (parent, r) :: waiting, d =>
    let (id, d) := drawNode r.label parent d
    drawAll (r.children.map (some id, ·) ++ waiting) d
termination_by waiting => (waiting.flatMap (·.2.preorder)).length
decreasing_by
  rw [List.flatMap_append, List.flatMap_map, List.flatMap_cons, preorder_eq r]
  exact Nat.lt_succ_self _

/-- One node per subtree, numbered in preorder, and an edge from each tree to each of its children. -/
def diagram (r : Regex) : Diagram := drawAll [(none, r)] {}

theorem isRun_of_isAtom {r : Regex} (h : r.isAtom = true) : r.isRun = true := by
  cases r <;> simp_all [isAtom, isRun]

section

variable (kind : Regex → Bool) (a : Symbol) (l r : Regex)

@[simp] theorem number_literal : (literal a).number kind = if kind (literal a) then 1 else 0 := by
  simp [number, preorder, List.countP_cons]

@[simp] theorem number_concat :
    (concat l r).number kind = l.number kind + r.number kind + if kind (concat l r) then 1 else 0 := by
  simp [number, preorder, List.countP_cons]

@[simp] theorem number_alternation :
    (alternation l r).number kind = l.number kind + r.number kind + if kind (alternation l r) then 1 else 0 := by
  simp [number, preorder, List.countP_cons]

@[simp] theorem number_star : (star r).number kind = r.number kind + if kind (star r) then 1 else 0 := by
  simp [number, preorder, List.countP_cons]

end

theorem preorder_ne_nil (r : Regex) : r.preorder ≠ [] := by
  cases r <;> simp [preorder]

end Regex

end FormalLang
