import FormalLang.Dfa.Minimize

/-!
# Comparing deterministic automata

Two automata are isomorphic if their states can be renamed into each other. They recognize the same language if they
accept the same words, and then a word distinguishes two states if it is accepted from exactly one of them.

* `Dfa.Isomorphism.acceptsFrom_eq`: a renaming keeps what is accepted from each state.
-/

namespace FormalLang

namespace Dfa

/-- A word is accepted from exactly one of two states. -/
def Distinguishes (d : Dfa) (p q : Nat) (w : List Symbol) : Prop := d.acceptsFrom p w ≠ d.acceptsFrom q w

/-- Some word leads from one state to another. -/
def Leads (d : Dfa) (p q : Nat) : Prop := ∃ w, d.run? p w = some q

/-- Two automata have the same states, start, accepting states, alphabet and transitions, in whatever order their rows
list them. -/
structure SameTables (d e : Dfa) : Prop where
  count_eq : d.count = e.count
  start_eq : d.start = e.start
  accept_eq : d.accept = e.accept
  alphabet_eq : d.alphabet = e.alphabet
  target_eq : ∀ q a, d.target? q a = e.target? q a

/-- A renaming of the states of one automaton into those of another. -/
structure Isomorphism (d e : Dfa) where
  /-- The new name of each state. -/
  rename : Nat → Nat
  lt_count : ∀ q < d.count, rename q < e.count
  injective : ∀ p < d.count, ∀ q < d.count, rename p = rename q → p = q
  surjective : ∀ r < e.count, ∃ q < d.count, rename q = r
  start_eq : rename d.start = e.start
  accept_iff : ∀ q < d.count, rename q ∈ e.accept ↔ q ∈ d.accept
  target_eq : ∀ q < d.count, ∀ a, e.target? (rename q) a = (d.target? q a).map rename

/-- The automata have the same alphabet, and the states of one can be renamed into those of the other. -/
def Isomorphic (d e : Dfa) : Prop := d.alphabet = e.alphabet ∧ Nonempty (Isomorphism d e)

theorem run?_nil (d : Dfa) (q : Nat) : d.run? q [] = some q := rfl

theorem run?_cons (d : Dfa) (q : Nat) (a : Symbol) (w : List Symbol) :
    d.run? q (a :: w) = (d.target? q a).bind fun p => d.run? p w := by
  simp [run?, List.foldlM_cons]

theorem run?_append (d : Dfa) (q : Nat) (u v : List Symbol) :
    d.run? q (u ++ v) = (d.run? q u).bind fun p => d.run? p v := by
  induction u generalizing q with
  | nil => rfl
  | cons a u ih =>
    rw [List.cons_append, run?_cons, run?_cons]
    cases d.target? q a with
    | none => rfl
    | some p => exact ih p

theorem acceptsFrom_nil (d : Dfa) (q : Nat) : d.acceptsFrom q [] = decide (q ∈ d.accept) := by
  simp [acceptsFrom, run?_nil]

theorem acceptsFrom_cons (d : Dfa) (q : Nat) (a : Symbol) (w : List Symbol) :
    d.acceptsFrom q (a :: w) = (d.target? q a).any fun p => d.acceptsFrom p w := by
  simp only [acceptsFrom, run?_cons]
  cases d.target? q a <;> rfl

theorem target_lt_count {d : Dfa} {p q : Nat} {a : Symbol} (h : d.target? p a = some q) : q < d.count := by
  by_cases hp : p < d.rows.length
  · have hrow : d.row p ∈ d.rows := by
      simp only [row, List.getD, List.getElem?_eq_getElem hp, Option.getD_some]
      exact List.getElem_mem hp
    exact d.target_lt _ hrow _ (Table.mem_entries_iff.mpr h)
  · have hrow : d.row p = ∅ := by simp [row, List.getD, List.getElem?_eq_none (Nat.le_of_not_lt hp)]
    rw [target?, hrow] at h
    contradiction

theorem Isomorphism.acceptsFrom_eq {d e : Dfa} (i : Isomorphism d e) {q : Nat} (hq : q < d.count)
    (w : List Symbol) : e.acceptsFrom (i.rename q) w = d.acceptsFrom q w := by
  induction w generalizing q with
  | nil => simp only [acceptsFrom_nil, i.accept_iff q hq]
  | cons a w ih =>
    rw [acceptsFrom_cons, acceptsFrom_cons, i.target_eq q hq]
    cases ht : d.target? q a with
    | none => rfl
    | some p => exact ih (target_lt_count ht)

end Dfa

end FormalLang
