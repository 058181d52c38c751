import FormalLang.Grammar.Simplify
import FormalLang.Item.Basic

/-!
# Grammars that remember their tables

The nullable nonterminals and the first and follow sets of a grammar are kept in two places. Whichever is asked for
first, both are computed and kept; the tables hold a set of nullable nonterminals of their own. A new list of
productions makes the grammar forget both; a production that is merely appended does not, so that what is kept may lag
behind the grammar.

A query that finds nothing at a place has both computed, and reads the place again. Nothing there even then would be a fault.

* `Memo.Query.kept`: what is kept at a place.
* `Memo.ask`: the answer to a query, and the grammar after it.
* `Memo.current`, `Memo.fill`: the tables that a query reads, and the grammar after it.
* `Memo.Coherent`: what is kept, if anything is, is that of the grammar.
-/

namespace FormalLang

/-- A grammar with what has been computed for it. -/
structure Memo where
  grammar : Grammar
  /-- The nullable nonterminals, once they have been asked for. -/
  nullable : Option (OrderedSet Int) := none
  /-- The first and follow sets, once they have been asked for. -/
  tables : Option FirstFollow := none
  deriving DecidableEq

/-- Why a query has no answer. -/
inductive QueryFault where
  /-- Nothing is kept, although it has just been computed. -/
  | unkept
  /-- An item has a fault, or the tables do not know a nonterminal. -/
  | fault (e : ItemFault)
  deriving DecidableEq, Repr

/-- The text of a fault. -/
def QueryFault.message : QueryFault → String
  | unkept => ""
  | fault e => e.message

namespace Memo

/-- Compute the nullable nonterminals and the tables anew. -/
def recompute (m : Memo) : Memo :=
  { m with nullable := some m.grammar.nullable, tables := some (.ofGrammar m.grammar) }

/-- Forget what has been computed. -/
def invalidate (m : Memo) : Memo := { m with nullable := none, tables := none }

/-- Replace the productions and forget what has been computed. -/
def setProductions (m : Memo) (productions : List Production) : Memo :=
  invalidate { m with grammar := { m.grammar with productions } }

/-- Append a production behind the back of what has been computed. -/
def append (m : Memo) (p : Production) : Memo :=
  { m with grammar := { m.grammar with productions := m.grammar.productions ++ [p] } }

/-- Drop the productions that derive no word, and then those of what is left that cannot be reached. -/
def removeUseless (m : Memo) : Memo :=
  let m := m.setProductions m.grammar.productive.productions
  m.setProductions (m.grammar.retain m.grammar.reachable).productions

/-- Replace the unit productions. -/
def removeUnits (m : Memo) : Memo := m.setProductions m.grammar.removeUnits.productions

/-! ## Queries -/

/-- A query reads what is kept, and may have more of it kept. -/
abbrev Query := ExceptT QueryFault (StateM Memo)

namespace Query

variable {α : Type}

/-- What is kept at a place. Unless something is, it is computed first. -/
def kept (place : Memo → Option α) : Query α := do
  if (place (← get)).isNone then modify recompute
  match place (← get) with
  | none => throw .unkept
  | some a => return a

/-- What may have a fault. -/
def check : Except ItemFault α → Query α
  | .error e => throw (.fault e)
  | .ok a => return a

/-- The nullable nonterminals. -/
def nullable : Query (OrderedSet Int) := kept Memo.nullable

/-- The first and follow sets. -/
def tables : Query FirstFollow := kept Memo.tables

/-- What is looked up in the tables. -/
def lookUp (look : FirstFollow → Except MissingNonterminal α) : Query α := do
  check ((look (← tables)).mapError .missing)

end Query

/-- The answer to a query, and the grammar after it. -/
def ask {α : Type} (m : Memo) (q : Query α) : Except QueryFault α × Memo := q.run.run m

/-! ## What queries read -/

/-- The kept nullable nonterminals, or those of the grammar if none are kept. -/
def currentNullable (m : Memo) : OrderedSet Int := m.nullable.getD m.grammar.nullable

/-- Have the nullable nonterminals kept. -/
def fillNullable (m : Memo) : Memo := if m.nullable.isSome then m else m.recompute

/-- The kept tables, or those of the grammar if none are kept. -/
def current (m : Memo) : FirstFollow := m.tables.getD (.ofGrammar m.grammar)

/-- Have the tables kept. -/
def fill (m : Memo) : Memo := if m.tables.isSome then m else m.recompute

/-- Have the tables kept, if they are used. -/
def fillIf (m : Memo) (used : Bool) : Memo := if used then m.fill else m

/-! ## Coherence -/

/-- What is kept, if anything is, is that of the grammar. -/
structure Coherent (m : Memo) : Prop where
  nullable : ∀ s ∈ m.nullable, s = m.grammar.nullable
  tables : ∀ f ∈ m.tables, f = .ofGrammar m.grammar

theorem Coherent.currentNullable_eq {m : Memo} (h : m.Coherent) : m.currentNullable = m.grammar.nullable := by
  unfold currentNullable
  cases hs : m.nullable with
  | none => rfl
  | some s => exact h.nullable s hs

theorem Coherent.current_eq {m : Memo} (h : m.Coherent) : m.current = .ofGrammar m.grammar := by
  unfold current
  cases ht : m.tables with
  | none => rfl
  | some f => exact h.tables f ht

theorem coherent_recompute (m : Memo) : m.recompute.Coherent where
  nullable _ hs := (Option.some.inj hs).symm
  tables _ hf := (Option.some.inj hf).symm

theorem coherent_invalidate (m : Memo) : m.invalidate.Coherent where
  nullable _ hs := nomatch hs
  tables _ hf := nomatch hf

theorem Coherent.fillNullable {m : Memo} (h : m.Coherent) : m.fillNullable.Coherent := by
  unfold Memo.fillNullable
  split
  · exact h
  · exact m.coherent_recompute

theorem Coherent.fill {m : Memo} (h : m.Coherent) : m.fill.Coherent := by
  unfold Memo.fill
  split
  · exact h
  · exact m.coherent_recompute

theorem Coherent.fillIf {m : Memo} (h : m.Coherent) (used : Bool) : (m.fillIf used).Coherent := by
  cases used with
  | false => exact h
  | true => exact h.fill

theorem grammar_removeUseless (m : Memo) : m.removeUseless.grammar = m.grammar.removeUseless := rfl

theorem coherent_setProductions (m : Memo) (productions : List Production) :
    (m.setProductions productions).Coherent := coherent_invalidate _

end Memo

end FormalLang
