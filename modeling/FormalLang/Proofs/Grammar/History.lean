import FormalLang.Grammar.History
import FormalLang.Proofs.Item.Query

/-!
# Histories of remembering grammars

What is kept is computed from the productions at hand, and what replaces the productions forgets it. So whatever has been
asked before, a grammar answers like one that has just been written down.

* `Memo.perform_eq`: what is answered, said by the productions and by what is read, and what is kept afterwards.
* `Memo.perform_ne_unkept`: what is read has been computed.
* `Memo.grammar_perform`, `Memo.Coherent.perform`: an operation makes of the productions what it makes of them without
  anything kept, and what is kept afterwards is that of the new productions.
* `Memo.Coherent.answer_eq`: the answers of coherent grammars depend on the productions alone.
* `Memo.answer_run`: the answers after any history.
-/

namespace FormalLang

namespace Memo

variable {m n : Memo} {g : Grammar}

/-! ## Operations -/

/-- What is answered, said by the productions and by what is read of the two places. -/
def Operation.answer (g : Grammar) (nullable : OrderedSet Int) (f : FirstFollow) : Operation → Except ItemFault Answer
  | .nullable => return .nonterminals nullable
  | .first l => return .symbols (← (f.firstOf l).mapError .missing)
  | .follow n => return .symbols (← (f.followOf n).mapError .missing)
  | .firstOfSequence u => return .symbols (← (f.firstOfSequence u).mapError .missing)
  | .tables => return .tables f
  | .lookaheads rest a => return .lookaheads (← (f.lookaheads rest a).mapError .missing)
  | .closure s => return .items (← g.closure f s)
  | .collect s => return .collection (← g.collect f s)
  | _ => return .done

/-- What is kept after an operation. -/
def Operation.after (m : Memo) : Operation → Memo
  | .setProductions ps => m.setProductions ps
  | .removeUseless => m.removeUseless
  | .removeUnits => m.removeUnits
  | .invalidate => m.invalidate
  | .recompute => m.recompute
  | .nullable => m.fillNullable
  | .first _ | .follow _ | .firstOfSequence _ | .tables => m.fill
  | .lookaheads _ a => m.fillIf a.isSome
  | .closure s => m.fillIf (m.grammar.close m.current s).looksAhead
  | .collect s => m.fillIf ((m.grammar.allClosings m.current s).any Closing.looksAhead)

/-- All that an operation does. -/
theorem perform_eq (m : Memo) (o : Operation) :
    m.perform o = ((o.answer m.grammar m.currentNullable m.current).mapError .fault, o.after m) := by
  cases o with
  | setProductions | removeUseless | removeUnits | invalidate | recompute => rfl
  | nullable => rw [perform, ask_bind, ask_nullable]; rfl
  | first | follow | firstOfSequence => exact (Replies.lookUp _).map _
  | tables => exact (Replies.tables m).map _
  | lookaheads rest a => exact (m.replies_lookaheads rest a).map _
  | closure s => exact (m.replies_closure s).map _
  | collect s => exact (m.replies_collect s).map _

theorem answer_perform (m : Memo) (o : Operation) :
    (m.perform o).1 = (o.answer m.grammar m.currentNullable m.current).mapError .fault := by rw [perform_eq]

/-- Whatever is kept, what has been computed is there when it is read. -/
theorem perform_ne_unkept (m : Memo) (o : Operation) : (m.perform o).1 ≠ .error .unkept := by
  rw [answer_perform]
  cases o.answer m.grammar m.currentNullable m.current <;> simp [Except.mapError]

/-- The productions after an operation do not depend on what is kept. -/
theorem grammar_perform (m : Memo) (o : Operation) : (m.perform o).2.grammar = o.on m.grammar := by
  rw [perform_eq]
  cases o with
  | setProductions | removeUseless | removeUnits | invalidate | recompute => rfl
  | nullable => exact m.grammar_fillNullable
  | first | follow | firstOfSequence | tables => exact m.grammar_fill
  | lookaheads | closure | collect => exact m.grammar_fillIf _

/-- After an operation what is kept is that of the new productions. -/
theorem Coherent.perform (h : m.Coherent) (o : Operation) : (m.perform o).2.Coherent := by
  rw [perform_eq]
  cases o with
  | setProductions | removeUseless | removeUnits => exact coherent_setProductions _ _
  | invalidate => exact coherent_invalidate m
  | recompute => exact coherent_recompute m
  | nullable => exact h.fillNullable
  | first | follow | firstOfSequence | tables => exact h.fill
  | lookaheads | closure | collect => exact h.fillIf _

/-- The answers of coherent grammars depend on the productions alone. -/
theorem Coherent.answer_eq (hm : m.Coherent) (hn : n.Coherent) (hg : m.grammar = n.grammar) (o : Operation) :
    (m.perform o).1 = (n.perform o).1 := by
  rw [answer_perform, answer_perform, hm.currentNullable_eq, hn.currentNullable_eq, hm.current_eq, hn.current_eq, hg]

/-! ## Histories -/

/-- Nothing is kept of a grammar that has just been written down. -/
theorem coherent_fresh (g : Grammar) : ({ grammar := g } : Memo).Coherent where
  nullable _ hs := nomatch hs
  tables _ hf := nomatch hf

theorem grammar_run (m : Memo) (ops : List Operation) : (m.run ops).grammar = ops.foldl Operation.on m.grammar := by
  induction ops generalizing m with
  | nil => rfl
  | cons o ops ih => rw [List.foldl_cons, ← m.grammar_perform o, ← ih]; rfl

theorem start_foldl_on (g : Grammar) (ops : List Operation) : (ops.foldl Operation.on g).start = g.start := by
  induction ops generalizing g with
  | nil => rfl
  | cons o ops ih =>
    have hstart : (o.on g).start = g.start := by cases o <;> rfl
    exact (ih _).trans hstart

theorem Coherent.run (h : m.Coherent) (ops : List Operation) : (m.run ops).Coherent := by
  induction ops generalizing m with
  | nil => exact h
  | cons o ops ih => exact ih (h.perform o)

/-- Whatever has been asked of a grammar, its start is as it was, its productions are what the operations alone make of
them, and it answers what a grammar with that start and those productions answers when nothing has been asked of it. -/
theorem answer_run (g : Grammar) (ops : List Operation) (o : Operation) :
    (run { grammar := g } ops).grammar.start = g.start ∧
      (run { grammar := g } ops).grammar.productions = (ops.foldl Operation.on g).productions ∧
      (perform (run { grammar := g } ops) o).1 =
        (perform { grammar := ⟨g.start, (ops.foldl Operation.on g).productions⟩ } o).1 := by
  have hgrammar := grammar_run { grammar := g } ops
  have hstart : (ops.foldl Operation.on g).start = g.start := start_foldl_on g ops
  refine ⟨by rw [hgrammar, hstart], by rw [hgrammar], ?_⟩
  rw [← hstart]
  exact ((coherent_fresh g).run ops).answer_eq (coherent_fresh _) hgrammar o

end Memo

end FormalLang
