import FormalLang.Automaton.Text.Reading
import FormalLang.Proofs.Faults
import FormalLang.Proofs.Nfa.Alphabet
import FormalLang.Proofs.Nfa.Edits

/-!
# Constructible automata

An automaton is made from nothing, from tables or from a text, and may be edited afterwards. Every way to make one checks its
states, and a row gets a symbol only together with a state that the symbol leads to.

* `Nfa.Constructible`: the automata that can be made.
* `Nfa.mem_alphabet_iff_exists_targets`: the alphabet, if no row lists a symbol that leads nowhere.
* `Nfa.Consistent.apply`: what an edit keeps, a refused one included.
* `Nfa.Constructible.consistent`: constructible automata are well formed.
-/

namespace FormalLang

namespace Nfa

variable {n m : Nfa} {p q : Nat} {a : Symbol}

/-- The automata that can be made. -/
inductive Constructible : Nfa → Prop where
  | empty (flags : BuildFlags) : Constructible { flags }
  | ofTables {n : Nfa} {count start : Int} {accept : List Int} {transitions : List (Int × Symbol × Int)} {flags : BuildFlags} :
      ofTables count start accept transitions flags = .ok n → Constructible n
  | load {n : Nfa} {text : String} {flags : BuildFlags} : load text flags = .ok n → Constructible n
  | apply {n : Nfa} (e : NfaEdit) : Constructible n → Constructible (n.apply e)

/-- The automaton of an expression is the edit of one without states. -/
theorem constructible_ofRegex (r : Regex) (flags : BuildFlags) : (ofRegex r flags).Constructible :=
  .apply (.build r) (.empty flags)

/-! ## Rows -/

/-- No row lists a symbol that leads nowhere. -/
def Occupied (n : Nfa) : Prop := ∀ row ∈ n.rows, ∀ e ∈ row.entries, ∃ q, q ∈ e.2

/-- A symbol is in the alphabet if it labels a transition and is not ε: no row lists a symbol that leads nowhere. -/
theorem mem_alphabet_iff_exists_targets (h : n.Occupied) :
    a ∈ n.alphabet ↔ (∃ p q, q ∈ n.targets p a) ∧ a ≠ epsilon := by
  constructor
  · intro ha
    obtain ⟨⟨row, hrow, hkey⟩, hne⟩ := mem_alphabet_iff.mp ha
    obtain ⟨qs, hqs⟩ := Option.isSome_iff_exists.mp (Table.get?_isSome_iff.mpr hkey)
    obtain ⟨q, hq⟩ := h row hrow (a, qs) (Table.mem_entries_iff.mpr hqs)
    obtain ⟨p, hp⟩ := List.mem_iff_getElem?.mp hrow
    exact ⟨⟨p, q, mem_targets_iff.mpr ⟨row, hp, qs, hqs, hq⟩⟩, hne⟩
  · rintro ⟨⟨p, q, hq⟩, hne⟩
    exact mem_alphabet_of_mem_targets hne hq

namespace Occupied

theorem addState (h : n.Occupied) : n.addState.2.Occupied := by
  intro row hrow e he
  rcases List.mem_append.mp hrow with hrow | hrow
  · exact h row hrow e he
  · rw [List.mem_singleton.mp hrow] at he
    exact absurd he List.not_mem_nil

theorem link (h : n.Occupied) : (n.link p a q).Occupied := by
  rintro row hrow ⟨b, qs⟩ he
  obtain ⟨i, hi⟩ := List.mem_iff_getElem?.mp hrow
  rw [Nfa.link, List.getElem?_modify] at hi
  obtain ⟨old, hold, rfl⟩ := Option.map_eq_some_iff.mp hi
  have hmem := List.mem_of_getElem? hold
  split at he
  · rw [Table.mem_entries_iff, Table.alter, Table.get?_insert] at he
    split at he
    · obtain rfl := Option.some.inj he
      exact ⟨q, OrderedSet.mem_insert.mpr (.inl rfl)⟩
    · exact h old hmem (b, qs) (Table.mem_entries_iff.mpr he)
  · exact h old hmem (b, qs) he

theorem addFragment (h : n.Occupied) (start : Option Nat) : (n.addFragment start).2.Occupied := by
  cases start with
  | none => exact h.addState.addState
  | some p => exact h.addState

theorem addRegex (h : n.Occupied) (r : Regex) (start : Option Nat) : (addRegex r start n).2.Occupied := by
  induction r generalizing start n with
  | literal a => exact (h.addFragment start).link
  | concat l r ihl ihr =>
    rw [Nfa.addRegex]
    dsimp only
    split
    · exact (ihr (ihl h start) none).link
    · exact ihr (ihl h start) _
  | alternation l r ihl ihr =>
    exact ((((ihr (ihl (h.addFragment start) none) none).link).link).link).link
  | star r ih => exact ((((ih (h.addFragment start) none).link).link).link).link

end Occupied

/-! ## Edits -/

/-- A well-formed automaton that starts at 0 if it has no states, so that its first state is its start. -/
structure Consistent (n : Nfa) : Prop extends n.WellFormed where
  start_eq_zero : n.count = 0 → n.start = 0

namespace Consistent

theorem addState (h : n.Consistent) : n.addState.2.Consistent := by
  have hcount := count_addState n
  refine ⟨⟨fun _ => ?_, fun q hq => ?_, TargetsInRange.addState h.target_lt, Occupied.addState h.target_exists⟩, fun h₀ => ?_⟩
  · show n.start < _
    rcases Nat.eq_zero_or_pos n.count with h₀ | hpos
    · rw [h.start_eq_zero h₀]
      omega
    · have := h.start_lt hpos
      omega
  · have := h.accept_lt q hq
    omega
  · omega

theorem link (h : n.Consistent) (hp : p < n.count) (hq : q < n.count) : (n.link p a q).Consistent := by
  have hcount := count_link n p a q
  refine ⟨⟨fun hpos => ?_, fun r hr => ?_, TargetsInRange.link h.target_lt hp hq, Occupied.link h.target_exists⟩, fun h₀ => ?_⟩
  · rw [hcount] at hpos ⊢
    exact h.start_lt hpos
  · rw [hcount]
    exact h.accept_lt r hr
  · exact h.start_eq_zero (hcount ▸ h₀)

theorem addTransition {i j : Int} (h : n.Consistent) (hm : n.addTransition i a j = .ok m) : m.Consistent := by
  obtain ⟨p, hp, q, hq, rfl⟩ := exists_of_addTransition hm
  exact h.link hp hq

theorem build (h : n.Consistent) (r : Regex) : (n.build r).Consistent := by
  have hjoins := joins_addRegex r none forall_mem_none h.target_lt
  refine ⟨⟨fun _ => hjoins.entry_lt, fun q hq => ?_, hjoins.targets, Occupied.addRegex h.target_exists r none⟩, fun h₀ => ?_⟩
  · rw [OrderedSet.mem_singleton.mp hq]
    exact hjoins.exit_lt
  · exact absurd hjoins.entry_lt (h₀ ▸ Nat.not_lt_zero _)

/-- An edit keeps an automaton consistent, whether it is refused or not. -/
theorem apply (h : n.Consistent) (e : NfaEdit) : (n.apply e).Consistent := by
  have hadd : ∀ i a j, ((n.addTransition i a j).toOption.getD n).Consistent := by
    intro i a j
    cases hm : n.addTransition i a j with
    | error e => exact h
    | ok m => exact h.addTransition hm
  cases e with
  | addState => exact h.addState
  | addTransition i a j => exact hadd i a j
  | addSilent i j => exact hadd i epsilon j
  | build r => exact h.build r

theorem ofTables {count start : Int} {accept : List Int} {transitions : List (Int × Symbol × Int)} {flags : BuildFlags}
    (h : ofTables count start accept transitions flags = .ok n) : n.Consistent := by
  obtain ⟨s, hs, h⟩ := bind_eq_ok_iff.mp h
  obtain ⟨qs, hqs, h⟩ := bind_eq_ok_iff.mp h
  refine foldlM_invariant (fun n hn e _ m hm => Consistent.addTransition hn hm) ?_ h
  have hlt := lt_of_checkState hs
  have hrow : ∀ row ∈ List.replicate count.toNat (∅ : Table Symbol (OrderedSet Nat)), row = ∅ := fun row hrow =>
    (List.mem_replicate.mp hrow).2
  refine ⟨⟨fun _ => hlt, fun q hq => ?_, fun p a q hq => ?_, fun row hr e he => ?_⟩, fun h₀ => ?_⟩
  · obtain ⟨i, -, hi⟩ := exists_of_mem_mapM hqs (OrderedSet.mem_ofList.mp hq)
    exact lt_of_checkState hi
  · rw [targets_of_rows_empty hrow] at hq
    exact absurd hq (OrderedSet.not_mem_empty q)
  · rw [hrow row hr] at he
    exact absurd he List.not_mem_nil
  · exact absurd (Nat.lt_of_lt_of_eq hlt h₀) (Nat.not_lt_zero s)

end Consistent

/-- Constructible automata are well formed. -/
theorem Constructible.consistent (h : n.Constructible) : n.Consistent := by
  induction h with
  | empty flags =>
    refine ⟨⟨fun hpos => absurd hpos (Nat.lt_irrefl 0), fun q hq => ?_, fun p a q hq => ?_, fun row hrow => ?_⟩, fun _ => rfl⟩
    · exact absurd hq (OrderedSet.not_mem_empty q)
    · exact absurd (lt_count_of_mem_targets hq) (Nat.not_lt_zero p)
    · exact absurd hrow List.not_mem_nil
  | ofTables h => exact .ofTables h
  | load h =>
    obtain ⟨t, -, h⟩ := bind_eq_ok_iff.mp h
    exact .ofTables (mapError_eq_ok_iff.mp h)
  | apply e _ ih => exact ih.apply e

end Nfa

end FormalLang
