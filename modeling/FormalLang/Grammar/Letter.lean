import FormalLang.Order
import FormalLang.Symbol
import FormalLang.Text.Quoted

/-!
# Letters

The letters of a grammar are its nonterminals, which are numbered, and its terminals. Nonterminals come before
terminals. The terminal ε stands for nothing.

* `Letter.compare_nonterminal_terminal`: the order between the two kinds.
-/

namespace FormalLang

/-- A letter of a grammar. -/
inductive Letter where
  | nonterminal (index : Int)
  | terminal (symbol : Symbol)
  deriving DecidableEq, Repr

namespace Letter

/-- The letter as an integer or a text. -/
def key : Letter → Int ⊕ String
  | nonterminal n => .inl n
  | terminal a => .inr a

theorem key_injective (a b : Letter) (h : a.key = b.key) : a = b := by
  cases a <;> cases b <;> simp_all [key]

/-- Nonterminals by index, then terminals by their text. -/
instance : Ord Letter := ⟨compareKey compareSum key⟩

instance : Std.TransOrd Letter := transCmp_compareKey key

instance : Std.LawfulEqOrd Letter := lawfulEqCmp_compareKey key_injective

@[simp] theorem compare_nonterminal_terminal (n : Int) (a : Symbol) :
    compare (nonterminal n) (terminal a) = .lt := rfl

/-- Does the letter stand for nothing? -/
def isEpsilon (l : Letter) : Bool := l = terminal epsilon

/-- The index of a nonterminal. -/
def nonterminal? : Letter → Option Int
  | nonterminal n => some n
  | terminal _ => none

/-- The symbol of a terminal. -/
def terminal? : Letter → Option Symbol
  | nonterminal _ => none
  | terminal a => some a

/-- The letter as it stands in a production. -/
def text : Letter → String
  | nonterminal n => toString n
  | terminal a => a

/-- The letter in words. -/
def description : Letter → String
  | nonterminal n => s!"NonTerminal(index={n})"
  | terminal a => s!"Terminal(char={Text.quoted a})"

end Letter

end FormalLang
