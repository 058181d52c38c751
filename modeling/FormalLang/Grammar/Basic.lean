import FormalLang.Diagram.Basic
import FormalLang.Grammar.Letter
import FormalLang.Text.Listing

/-!
# Grammars

A context-free grammar has a start and a list of productions, which may repeat one. Its nonterminals are the start
and those that occur in productions; a nonterminal need not have productions of its own.

* `Grammar.mem_nonterminals`, `Grammar.mem_terminals`: the letters that occur.
* `Grammar.mem_productionsOf`: the productions of a nonterminal.
-/

namespace FormalLang

/-- A rule that replaces its head by its body. -/
structure Production where
  /-- The nonterminal that is replaced. -/
  head : Int
  /-- The letters that replace it. -/
  body : List Letter
  deriving DecidableEq, Repr

namespace Production

/-- The nonterminals of the body, in their order and with repetitions. -/
def nonterminals (p : Production) : List Int := p.body.filterMap Letter.nonterminal?

/-- Is the body a single nonterminal? -/
def isUnit (p : Production) : Bool :=
  match p.body with
  | [.nonterminal _] => true
  | _ => false

/-- The letters of a body, with a blank between neighbours. -/
def bodyText (body : List Letter) : String := String.intercalate " " (body.map Letter.text)

/-- The production as an arrow. -/
def text (p : Production) : String := s!"{p.head} -> {bodyText p.body}"

/-- The production in words. -/
def description (p : Production) : String :=
  s!"Production(lhs={(Letter.nonterminal p.head).description}, " ++
    s!"rhs={Text.tupleListing (p.body.map Letter.description)})"

end Production

/-- A context-free grammar. -/
structure Grammar where
  /-- The nonterminal that derivations begin with. -/
  start : Int
  /-- The rules, in the order in which they are written. -/
  productions : List Production
  deriving DecidableEq, Repr

namespace Grammar

/-- The start and the nonterminals of all productions. -/
def nonterminals (g : Grammar) : OrderedSet Int :=
  OrderedSet.ofList (g.start :: g.productions.flatMap fun p => p.head :: p.nonterminals)

/-- The terminals of all productions, without ε. -/
def terminals (g : Grammar) : OrderedSet Symbol :=
  OrderedSet.ofList ((g.productions.flatMap fun p => p.body.filterMap Letter.terminal?).filter (· ≠ epsilon))

/-- The productions of a nonterminal. -/
def productionsOf (g : Grammar) (n : Int) : List Production := g.productions.filter (·.head = n)

/-- Each nonterminal with the bodies of its productions. -/
def adjacency (g : Grammar) : List (Int × List (List Letter)) :=
  g.nonterminals.toList.map fun n => (n, (g.productionsOf n).map Production.body)

/-- The productions, one on each line. -/
def text (g : Grammar) : String := String.intercalate "\n" (g.productions.map Production.text)

/-- The grammar in words. -/
def description (g : Grammar) : String :=
  s!"Grammar(start_symbol={g.start}, " ++
    s!"productions={Text.listing (g.productions.map Production.description)})"

/-- One node per nonterminal, and for each nonterminal in the body of a production an edge from the head to it. -/
def diagram (g : Grammar) : Diagram :=
  let label := fun n => if n = g.start then s!"s:{n}" else toString n
  let nodes := g.nonterminals.toList.foldl (fun d n => (d.addNode (label n) (some n)).2)
    ({ start := some g.start } : Diagram)
  g.productions.foldl (fun d p =>
    p.nonterminals.foldl (fun d n => (d.addEdge p.head n (some (Production.bodyText p.body))).2) d) nodes

theorem mem_productionsOf {g : Grammar} {n : Int} {p : Production} :
    p ∈ g.productionsOf n ↔ p ∈ g.productions ∧ p.head = n := by
  simp [productionsOf]

theorem mem_nonterminals {g : Grammar} {n : Int} :
    n ∈ g.nonterminals ↔
      n = g.start ∨ ∃ p ∈ g.productions, n = p.head ∨ Letter.nonterminal n ∈ p.body := by
  have h (l : Letter) : l.nonterminal? = some n ↔ l = .nonterminal n := by
    cases l <;> simp [Letter.nonterminal?]
  simp [nonterminals, Production.nonterminals, h]

theorem mem_terminals {g : Grammar} {a : Symbol} :
    a ∈ g.terminals ↔ a ≠ epsilon ∧ ∃ p ∈ g.productions, Letter.terminal a ∈ p.body := by
  have h (l : Letter) : l.terminal? = some a ↔ l = .terminal a := by
    cases l <;> simp [Letter.terminal?]
  simp [terminals, h, and_comm]

end Grammar

end FormalLang
