import FormalLang.Item.Query

/-!
# Queries of remembering grammars

A place holds something after all tables have been computed, so a query finds what it asks for. It reads what was kept before, or
else what belongs to the grammar, and has the tables kept afterwards. Neither the productions nor the tables that a query reads
are changed by having them kept.

* `Memo.ask_nullable`, `Memo.ask_tables`: the two places.
* `Memo.Replies`: what a query answers, and whether it has the tables kept.
-/

namespace FormalLang

namespace Memo

variable {m : Memo}

/-! ## Keeping -/

@[simp] theorem grammar_fillNullable (m : Memo) : m.fillNullable.grammar = m.grammar := by
  unfold fillNullable
  split <;> rfl

@[simp] theorem grammar_fill (m : Memo) : m.fill.grammar = m.grammar := by
  unfold fill
  split <;> rfl

@[simp] theorem grammar_fillIf (m : Memo) (used : Bool) : (m.fillIf used).grammar = m.grammar := by
  cases used with
  | false => rfl
  | true => exact m.grammar_fill

theorem tables_fill (m : Memo) : m.fill.tables = some m.current := by
  unfold fill current
  cases h : m.tables with
  | none => rfl
  | some f => exact h

@[simp] theorem current_fillIf (m : Memo) (used : Bool) : (m.fillIf used).current = m.current := by
  cases used with
  | false => rfl
  | true => exact congrArg (Option.getD · _) m.tables_fill

theorem fill_fill (m : Memo) : m.fill.fill = m.fill := if_pos (by rw [tables_fill]; rfl)

theorem fillIf_fillIf (m : Memo) (used used' : Bool) : (m.fillIf used).fillIf used' = m.fillIf (used || used') := by
  cases used with
  | false => rfl
  | true =>
    cases used' with
    | false => rfl
    | true => exact m.fill_fill

/-! ## The two places -/

theorem ask_nullable (m : Memo) : m.ask Query.nullable = (.ok m.currentNullable, m.fillNullable) := by
  obtain ⟨g, _ | s, tables⟩ := m <;> rfl

theorem ask_tables (m : Memo) : m.ask Query.tables = (.ok m.current, m.fill) := by
  obtain ⟨g, nullable, _ | f⟩ := m <;> rfl

/-! ## Replies -/

section Replies

variable {α β : Type} {q : Query α} {h : α → Query β} {a : α} {e : ItemFault} {used used' : Bool}
  {r : Except ItemFault α} {r' : Except ItemFault β}

/-- The answer to a query, or its fault, and whether the tables are kept afterwards. -/
def Replies (m : Memo) (q : Query α) (r : Except ItemFault α) (used : Bool) : Prop :=
  m.ask q = (r.mapError .fault, m.fillIf used)

theorem ask_bind (m : Memo) (q : Query α) (h : α → Query β) : m.ask (q >>= h) =
    match m.ask q with
    | (.ok a, m') => m'.ask (h a)
    | (.error e, m') => (.error e, m') := by
  have hrun : m.ask (q >>= h) = StateT.run (ExceptT.bindCont h (m.ask q).1) (m.ask q).2 := rfl
  rw [hrun]
  obtain ⟨_ | a, m'⟩ := m.ask q <;> rfl

namespace Replies

theorem pure (a : α) : m.Replies (Pure.pure a) (.ok a) false := rfl

theorem check (r : Except ItemFault α) : m.Replies (Query.check r) r false := by
  cases r <;> rfl

theorem bind (hq : m.Replies q (.ok a) used) (hh : (m.fillIf used).Replies (h a) r' used') :
    m.Replies (q >>= h) r' (used || used') := by
  have hnext : m.ask (q >>= h) = (m.fillIf used).ask (h a) := by rw [ask_bind, hq]; rfl
  rw [Replies, hnext, hh, fillIf_fillIf]

theorem bind_error (hq : m.Replies q (.error e) used) : m.Replies (q >>= h) (.error e) used := by
  rw [Replies, ask_bind, hq]
  rfl

theorem get_bind {h : Memo → Query α} (hh : m.Replies (h m) r used) : m.Replies (get >>= h) r used := hh

/-- What is made of an answer. -/
theorem map (hq : m.Replies q r used) (h : α → β) :
    m.Replies (do return h (← q)) (do return h (← r)) used := by
  cases r with
  | error e => exact hq.bind_error
  | ok a =>
    have hreply : m.Replies (do return h (← q)) (.ok (h a)) (used || false) := hq.bind (pure (h a))
    rwa [Bool.or_false] at hreply

theorem tables (m : Memo) : m.Replies Query.tables (.ok m.current) true := m.ask_tables

theorem lookUp (look : FirstFollow → Except MissingNonterminal α) :
    m.Replies (Query.lookUp look) ((look m.current).mapError .missing) true :=
  (tables m).bind (check _)

end Replies

end Replies

end Memo

end FormalLang
