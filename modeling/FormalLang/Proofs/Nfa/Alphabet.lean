import FormalLang.Nfa.Thompson
import FormalLang.Proofs.Nfa.Simulation

/-!
# The alphabet of an automaton

The alphabet holds the symbols other than ε that label transitions, so every path is spelled with it. The construction for
an expression labels transitions only with ε and the literals of the expression.

* `Nfa.mem_alphabet_iff`: the symbols that have an entry in a row.
* `Nfa.alphabet_addState`, `Nfa.alphabet_link`: the symbols after an edit.
* `Nfa.Path.mem_alphabet`: the symbols that a path spells.
* `Nfa.LabelledIn.addRegex`: the symbols after the construction for an expression.
-/

namespace FormalLang

namespace Nfa

variable {n : Nfa} {p q : Nat} {a : Symbol} {w : List Symbol}

theorem mem_alphabet_iff : a ∈ n.alphabet ↔ (∃ row ∈ n.rows, a ∈ row.keys) ∧ a ≠ epsilon := by
  rw [alphabet, OrderedSet.mem_ofList, List.mem_filter, List.mem_flatMap, decide_eq_true_eq]

theorem mem_alphabet_of_mem_targets (ha : a ≠ epsilon) (h : q ∈ n.targets p a) : a ∈ n.alphabet := by
  obtain ⟨row, hrow, qs, hqs, -⟩ := mem_targets_iff.mp h
  exact mem_alphabet_iff.mpr ⟨⟨row, List.mem_of_getElem? hrow, Table.get?_isSome_iff.mp (hqs ▸ rfl)⟩, ha⟩

theorem ne_epsilon_of_mem_alphabet (h : a ∈ n.alphabet) : a ≠ epsilon := (mem_alphabet_iff.mp h).2

@[simp] theorem alphabet_addState : n.addState.2.alphabet = n.alphabet := by
  have hempty : (∅ : Table Symbol (OrderedSet Nat)).keys = [] := rfl
  simp [alphabet, addState, List.flatMap_append, hempty]

/-- A row has the same symbols after a transition is added, and the row of its source has its label too. -/
theorem exists_row_link {row : Table Symbol (OrderedSet Nat)} {i : Nat} (h : n.rows[i]? = some row) :
    ∃ row', (n.link p a q).rows[i]? = some row' ∧ ∀ b, b ∈ row'.keys ↔ b ∈ row.keys ∨ (p = i ∧ b = a) := by
  rw [link, List.getElem?_modify, h]
  refine ⟨_, rfl, fun b => ?_⟩
  split
  · next hi => simp [Table.mem_keys_alter, hi]
  · next hi => simp [hi]

/-- A new transition brings no symbol but its label. -/
theorem mem_alphabet_of_link {b : Symbol} (h : b ∈ (n.link p a q).alphabet) : b ∈ n.alphabet ∨ b = a := by
  obtain ⟨⟨row, hrow, hkey⟩, hne⟩ := mem_alphabet_iff.mp h
  obtain ⟨i, hi⟩ := List.mem_iff_getElem?.mp hrow
  have hold : i < n.rows.length := by
    have := (List.getElem?_eq_some_iff.mp hi).1
    rwa [link, List.length_modify] at this
  obtain ⟨row', hrow', hkeys⟩ := exists_row_link (p := p) (a := a) (q := q) (List.getElem?_eq_getElem hold)
  rw [hi] at hrow'
  obtain rfl := Option.some.inj hrow'
  rcases (hkeys b).mp hkey with hkey | ⟨-, rfl⟩
  · exact .inl (mem_alphabet_iff.mpr ⟨⟨_, List.getElem_mem hold, hkey⟩, hne⟩)
  · exact .inr rfl

/-- The label of a new transition joins the alphabet unless it is ε. -/
theorem alphabet_link (hp : p < n.count) :
    (n.link p a q).alphabet = if a = epsilon then n.alphabet else n.alphabet.insert a := by
  have hmono : ∀ b ∈ n.alphabet, b ∈ (n.link p a q).alphabet := by
    intro b hb
    obtain ⟨⟨row, hrow, hkey⟩, hne⟩ := mem_alphabet_iff.mp hb
    obtain ⟨i, hi⟩ := List.mem_iff_getElem?.mp hrow
    obtain ⟨row', hrow', hkeys⟩ := exists_row_link (p := p) (a := a) (q := q) hi
    exact mem_alphabet_iff.mpr ⟨⟨row', List.mem_of_getElem? hrow', (hkeys b).mpr (.inl hkey)⟩, hne⟩
  refine OrderedSet.ext fun b => ?_
  split
  · next ha =>
    refine ⟨fun h => (mem_alphabet_of_link h).resolve_right fun hb => ?_, hmono b⟩
    exact ne_epsilon_of_mem_alphabet h (hb.trans ha)
  · next ha =>
    rw [OrderedSet.mem_insert]
    constructor
    · exact fun h => (mem_alphabet_of_link h).symm
    · rintro (rfl | hb)
      · obtain ⟨row', hrow', hkeys⟩ := exists_row_link (p := p) (a := b) (q := q) (List.getElem?_eq_getElem hp)
        exact mem_alphabet_iff.mpr ⟨⟨row', List.mem_of_getElem? hrow', (hkeys b).mpr (.inr ⟨rfl, rfl⟩)⟩, ha⟩
      · exact hmono b hb

/-- A path spells symbols of the alphabet. -/
theorem Path.mem_alphabet (h : n.Path p w q) : ∀ a ∈ w, a ∈ n.alphabet := by
  induction h with
  | here => exact fun a ha => absurd ha List.not_mem_nil
  | silent _ _ ih => exact ih
  | symbol ha hq _ ih => exact List.forall_mem_cons.mpr ⟨mem_alphabet_of_mem_targets ha hq, ih⟩

/-! ## The construction for an expression -/

/-- Every symbol of the alphabet is in a list. -/
def LabelledIn (n : Nfa) (l : List Symbol) : Prop := ∀ a ∈ n.alphabet, a ∈ l

namespace LabelledIn

variable {l : List Symbol}

theorem link (h : n.LabelledIn l) (ha : a ≠ epsilon → a ∈ l) : (n.link p a q).LabelledIn l := by
  intro b hb
  rcases mem_alphabet_of_link hb with hb' | rfl
  · exact h b hb'
  · exact ha (ne_epsilon_of_mem_alphabet hb)

theorem silent (h : n.LabelledIn l) : (n.link p epsilon q).LabelledIn l := h.link fun hne => absurd rfl hne

theorem addState (h : n.LabelledIn l) : n.addState.2.LabelledIn l := by
  intro a ha
  obtain ⟨⟨row, hrow, hkey⟩, hne⟩ := mem_alphabet_iff.mp ha
  rcases List.mem_append.mp hrow with hrow | hrow
  · exact h a (mem_alphabet_iff.mpr ⟨⟨row, hrow, hkey⟩, hne⟩)
  · rw [List.mem_singleton.mp hrow] at hkey
    exact absurd hkey List.not_mem_nil

theorem addFragment (h : n.LabelledIn l) (start : Option Nat) : (n.addFragment start).2.LabelledIn l := by
  cases start with
  | none => exact h.addState.addState
  | some p => exact h.addState

/-- The construction labels transitions with ε and the literals of the expression. -/
theorem addRegex {r : Regex} {start : Option Nat} (h : n.LabelledIn l) (hr : ∀ a ∈ r.literals, a ∈ l) :
    (addRegex r start n).2.LabelledIn l := by
  induction r generalizing start n with
  | literal a => exact (h.addFragment start).link fun _ => hr a (List.mem_singleton.mpr rfl)
  | concat r s ihr ihs =>
    obtain ⟨hr, hs⟩ := List.forall_mem_append.mp hr
    rw [Nfa.addRegex]
    dsimp only
    split
    · exact (ihs (ihr h hr) hs).silent
    · exact ihs (ihr h hr) hs
  | alternation r s ihr ihs =>
    obtain ⟨hr, hs⟩ := List.forall_mem_append.mp hr
    exact (ihs (ihr (h.addFragment start) hr) hs).silent.silent.silent.silent
  | star r ih => exact (ih (h.addFragment start) hr).silent.silent.silent.silent

end LabelledIn

theorem labelledIn_ofRegex (r : Regex) (flags : BuildFlags) : (ofRegex r flags).LabelledIn r.literals := by
  have hempty : ({ flags } : Nfa).LabelledIn r.literals := by
    intro a ha
    obtain ⟨⟨row, hrow, -⟩, -⟩ := mem_alphabet_iff.mp ha
    exact absurd hrow List.not_mem_nil
  exact hempty.addRegex fun a ha => ha

end Nfa

end FormalLang
