import FormalLang.Nfa.Run

/-!
# Paths of nondeterministic automata

A path goes from state to state along transitions and spells the symbols on them; a silent step spells nothing. An
automaton accepts a word if a path from its start to an accepting state spells it.

* `Nfa.Path.append`: paths one after the other.
* `Nfa.Path.lt_count`: a path that goes anywhere starts at a state.
* `Nfa.path_iff_trail`: a trail, which may also read the character ε along silent steps, is a path if it does not.
-/

namespace FormalLang

namespace Nfa

/-- There is a path between two states that spells a word. -/
inductive Path (n : Nfa) : Nat → List Symbol → Nat → Prop where
  | here (p) : Path n p [] p
  | silent {p q r w} : q ∈ n.targets p epsilon → Path n q w r → Path n p w r
  | symbol {p q r a w} : a ≠ epsilon → q ∈ n.targets p a → Path n q w r → Path n p (a :: w) r

/-- There is a way between two states to read a word, along silent steps if need be. A symbol of the word is read along any
transition with its label, and ε along a silent step. -/
inductive Trail (n : Nfa) : Nat → List Symbol → Nat → Prop where
  | here (p) : Trail n p [] p
  | silent {p q r w} : q ∈ n.targets p epsilon → Trail n q w r → Trail n p w r
  | symbol {p q r a w} : q ∈ n.targets p a → Trail n q w r → Trail n p (a :: w) r

/-- A path from the start to an accepting state spells the word. -/
def Spells (n : Nfa) (w : List Symbol) : Prop := ∃ q ∈ n.accept, n.Path n.start w q

/-- The start, the accepting states and the targets of all transitions are states, and a row lists no symbol that leads
nowhere. An automaton without states has no start. -/
structure WellFormed (n : Nfa) : Prop where
  start_lt : 0 < n.count → n.start < n.count
  accept_lt : ∀ q ∈ n.accept, q < n.count
  target_lt : ∀ p a, ∀ q ∈ n.targets p a, q < n.count
  target_exists : ∀ row ∈ n.rows, ∀ e ∈ row.entries, ∃ q, q ∈ e.2

theorem Path.append {n : Nfa} {p q r : Nat} {u v : List Symbol} (h : n.Path p u q) (k : n.Path q v r) :
    n.Path p (u ++ v) r := by
  induction h with
  | here => exact k
  | silent hq _ ih => exact .silent hq (ih k)
  | symbol ha hq _ ih => exact .symbol ha hq (ih k)

theorem lt_count_of_mem_targets {n : Nfa} {p q : Nat} {a : Symbol} (h : q ∈ n.targets p a) : p < n.count := by
  by_cases hp : p < n.count
  · exact hp
  · have hrow : n.row p = ∅ := by simp [row, List.getD, List.getElem?_eq_none (Nat.le_of_not_lt hp)]
    have : n.targets p a = ∅ := by rw [targets, hrow]; rfl
    exact absurd (this ▸ h) (OrderedSet.not_mem_empty q)

theorem Path.lt_count {n : Nfa} {p q : Nat} {w : List Symbol} (h : n.Path p w q) (hne : p ≠ q ∨ w ≠ []) :
    p < n.count := by
  cases h with
  | here => simp at hne
  | silent hq _ => exact lt_count_of_mem_targets hq
  | symbol _ hq _ => exact lt_count_of_mem_targets hq

theorem Path.append_trail {n : Nfa} {p q r : Nat} {w : List Symbol} (h : n.Path p [] q) (k : n.Trail q w r) :
    n.Trail p w r := by
  generalize hv : ([] : List Symbol) = v at h
  induction h with
  | here => exact k
  | silent hq _ ih => exact .silent hq (ih k hv)
  | symbol => contradiction

/-- A path is a trail that does not read ε. -/
theorem path_iff_trail {n : Nfa} {p q : Nat} {w : List Symbol} : n.Path p w q ↔ epsilon ∉ w ∧ n.Trail p w q := by
  constructor
  · intro h
    induction h with
    | here p => exact ⟨List.not_mem_nil, .here p⟩
    | silent hq _ ih => exact ⟨ih.1, .silent hq ih.2⟩
    | symbol ha hq _ ih => exact ⟨List.not_mem_cons_of_ne_of_not_mem (Ne.symm ha) ih.1, .symbol hq ih.2⟩
  · rintro ⟨hw, h⟩
    induction h with
    | here p => exact .here p
    | silent hq _ ih => exact .silent hq (ih hw)
    | symbol hq _ ih =>
      rw [List.mem_cons, not_or] at hw
      exact .symbol (Ne.symm hw.1) hq (ih hw.2)

end Nfa

end FormalLang
