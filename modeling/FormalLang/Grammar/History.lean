import FormalLang.Item.Query

/-!
# Histories of remembering grammars

What can be asked of a grammar that remembers its tables, and what it answers. Only what replaces the productions or
leaves them alone is among the operations, so that the tables are always those of the grammar.

* `Memo.perform`: the answer to an operation and the grammar after it.
* `Memo.Operation.on`: what an operation makes of the productions, said without anything that is kept.
-/

namespace FormalLang

namespace Memo

/-- What a remembering grammar can be asked to do. -/
inductive Operation where
  | setProductions (productions : List Production)
  | removeUseless
  | removeUnits
  | invalidate
  | recompute
  | nullable
  | first (letter : Letter)
  | follow (index : Int)
  | firstOfSequence (letters : List Letter)
  | tables
  | lookaheads (rest : List Letter) (lookahead : Option Symbol)
  | closure (items : ItemSet)
  | collect (items : ItemSet)

/-- What a remembering grammar answers. -/
inductive Answer where
  | done
  | nonterminals (s : OrderedSet Int)
  | symbols (s : OrderedSet Symbol)
  | tables (f : FirstFollow)
  | lookaheads (l : List (Option Symbol))
  | items (s : ItemSet)
  | collection (c : Collection)

/-- The answer to an operation, or its fault, and the grammar after it. -/
def perform (m : Memo) : Operation → Except QueryFault Answer × Memo
  | .setProductions ps => (.ok .done, m.setProductions ps)
  | .removeUseless => (.ok .done, m.removeUseless)
  | .removeUnits => (.ok .done, m.removeUnits)
  | .invalidate => (.ok .done, m.invalidate)
  | .recompute => (.ok .done, m.recompute)
  | .nullable => m.ask (return .nonterminals (← Query.nullable))
  | .first l => m.ask (return .symbols (← Query.lookUp fun f => f.firstOf l))
  | .follow n => m.ask (return .symbols (← Query.lookUp fun f => f.followOf n))
  | .firstOfSequence u => m.ask (return .symbols (← Query.lookUp fun f => f.firstOfSequence u))
  | .tables => m.ask (return .tables (← Query.tables))
  | .lookaheads rest a => m.ask (return .lookaheads (← Query.lookaheads rest a))
  | .closure s => m.ask (return .items (← Query.closure s))
  | .collect s => m.ask (return .collection (← Query.collect s))

/-- The grammar after some operations. -/
def run (m : Memo) (ops : List Operation) : Memo := ops.foldl (fun m o => (m.perform o).2) m

/-- The productions after an operation. Queries leave them alone. -/
def Operation.on (g : Grammar) : Operation → Grammar
  | .setProductions ps => { g with productions := ps }
  | .removeUseless => g.removeUseless
  | .removeUnits => g.removeUnits
  | _ => g

end Memo

end FormalLang
