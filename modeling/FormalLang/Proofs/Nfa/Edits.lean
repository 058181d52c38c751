import FormalLang.Nfa.Edit
import FormalLang.Proofs.Nfa.Simulation

/-!
# What edits keep

Every operation that adds a transition checks both of its ends, and the construction for an expression joins only states
that it has just added or been given. So the transitions of an automaton that is made by these operations lead to states.

* `Nfa.mem_targets_link`: the transitions after one is added.
* `Nfa.joins_addRegex`: the ends of a new fragment are states.
* `Nfa.targetsInRange_ofTables`: transitions lead to states in an automaton that is made from its parts.
-/

namespace FormalLang

namespace Nfa

variable {n m : Nfa} {p q : Nat} {a : Symbol}

/-! ## Transitions -/

theorem mem_targets_link {b : Symbol} {s r : Nat} (hp : p < n.count) :
    r ∈ (n.link p a q).targets s b ↔ r ∈ n.targets s b ∨ (s = p ∧ b = a ∧ r = q) := by
  have hrow : (n.link p a q).row s =
      if p = s then (n.row p).alter a fun qs => (qs.getD ∅).insert q else n.row s := by
    unfold row link
    rw [List.getD_eq_getElem?_getD, List.getElem?_modify]
    split
    · next h =>
      subst h
      simp [List.getElem?_eq_getElem hp]
    · simp
  rw [targets, hrow]
  split
  · next h =>
    subst h
    rw [Table.getD, Table.alter, Table.get?_insert]
    split
    · next h =>
      subst h
      simp [targets, Table.getD, or_comm]
    · next h => simp [targets, Table.getD, h]
  · next h => simp [targets, Ne.symm h]

@[simp] theorem targets_addState (s : Nat) (a : Symbol) : n.addState.2.targets s a = n.targets s a := by
  unfold targets row addState
  congr 1
  simp only [List.getD_eq_getElem?_getD, List.getElem?_append]
  split
  · rfl
  · next h =>
    rw [List.getElem?_eq_none (Nat.le_of_not_lt h)]
    cases s - n.rows.length <;> rfl

/-- Without transitions in its rows, an automaton has none. -/
theorem targets_of_rows_empty (h : ∀ row ∈ n.rows, row = ∅) (p : Nat) (a : Symbol) : n.targets p a = ∅ := by
  refine OrderedSet.ext fun q => ⟨fun hq => ?_, fun hq => absurd hq (OrderedSet.not_mem_empty q)⟩
  obtain ⟨row, hrow, qs, hqs, -⟩ := mem_targets_iff.mp hq
  obtain rfl := h row (List.mem_of_getElem? hrow)
  contradiction

/-- A transition is added between states, or refused. -/
theorem exists_of_addTransition {i j : Int} (h : n.addTransition i a j = .ok m) :
    ∃ p < n.count, ∃ q < n.count, m = n.link p a q := by
  obtain ⟨p, hp, h⟩ := bind_eq_ok_iff.mp h
  obtain ⟨q, hq, h⟩ := bind_eq_ok_iff.mp h
  exact ⟨p, lt_of_checkState hp, q, lt_of_checkState hq, (Except.ok.inj h).symm⟩

/-! ## Targets -/

/-- The target of every transition is a state. -/
def TargetsInRange (n : Nfa) : Prop := ∀ p a, ∀ q ∈ n.targets p a, q < n.count

namespace TargetsInRange

theorem addState (h : n.TargetsInRange) : n.addState.2.TargetsInRange := by
  intro p a q hq
  rw [targets_addState] at hq
  have := h p a q hq
  rw [count_addState]
  omega

theorem link (h : n.TargetsInRange) (hp : p < n.count) (hq : q < n.count) : (n.link p a q).TargetsInRange := by
  intro s b r hr
  rw [count_link]
  rcases (mem_targets_link hp).mp hr with hr | ⟨-, -, rfl⟩
  · exact h s b r hr
  · exact hq

theorem addTransition {i j : Int} (h : n.TargetsInRange) (hm : n.addTransition i a j = .ok m) : m.TargetsInRange := by
  obtain ⟨p, hp, q, hq, rfl⟩ := exists_of_addTransition hm
  exact h.link hp hq

end TargetsInRange

/-! ## Fragments -/

/-- The automaton `m` has grown from `n`, and the ends of the fragment are states of it. -/
structure Joins (n m : Nfa) (f : Fragment) : Prop where
  count_le : n.count ≤ m.count
  entry_lt : f.entry < m.count
  exit_lt : f.exit < m.count
  targets : m.TargetsInRange

theorem Joins.link {f : Fragment} (h : Joins n m f) (hp : p < m.count) (hq : q < m.count) :
    Joins n (m.link p a q) f where
  count_le := by
    rw [count_link]
    exact h.count_le
  entry_lt := by
    rw [count_link]
    exact h.entry_lt
  exit_lt := by
    rw [count_link]
    exact h.exit_lt
  targets := h.targets.link hp hq

/-- A fragment has its ends in every automaton that has grown further. -/
theorem Joins.grow {k : Nfa} {f g : Fragment} (h : Joins n m f) (hk : Joins m k g) : Joins n k f where
  count_le := Nat.le_trans h.count_le hk.count_le
  entry_lt := Nat.lt_of_lt_of_le h.entry_lt hk.count_le
  exit_lt := Nat.lt_of_lt_of_le h.exit_lt hk.count_le
  targets := hk.targets

theorem joins_addFragment {start : Option Nat} (hs : ∀ p ∈ start, p < n.count) (h : n.TargetsInRange) :
    Joins n (n.addFragment start).2 (n.addFragment start).1 := by
  cases start with
  | some p =>
    have hp := hs p rfl
    have hcount : (n.addFragment (some p)).2.count = n.count + 1 := count_addState n
    refine ⟨by omega, ?_, ?_, h.addState⟩
    · show p < _
      omega
    · show n.count < _
      omega
  | none =>
    have hcount : (n.addFragment none).2.count = n.count + 1 + 1 :=
      (count_addState n.addState.2).trans (congrArg (· + 1) (count_addState n))
    have hexit : (n.addFragment none).1.exit = n.count + 1 := count_addState n
    refine ⟨by omega, ?_, by omega, h.addState.addState⟩
    show n.count < _
    omega

/-- Nothing is asked of a start that is not given. -/
theorem forall_mem_none {k : Nat} : ∀ p ∈ (none : Option Nat), p < k := by
  intro p hp
  contradiction

/-- The fragment of an expression joins states, and has states for ends. -/
theorem joins_addRegex (r : Regex) (start : Option Nat) (hs : ∀ p ∈ start, p < n.count) (h : n.TargetsInRange) :
    Joins n (addRegex r start n).2 (addRegex r start n).1 := by
  induction r generalizing start n with
  | literal a =>
    have hf := joins_addFragment hs h
    exact hf.link hf.entry_lt hf.exit_lt
  | concat l r ihl ihr =>
    have hl := ihl start hs h
    rw [addRegex]
    dsimp only
    split
    · have hr := ihr none forall_mem_none hl.targets
      have hlr := hl.grow hr
      exact Joins.link ⟨hlr.count_le, hlr.entry_lt, hr.exit_lt, hr.targets⟩ hlr.exit_lt hr.entry_lt
    · have hr := ihr (some (addRegex l start n).1.exit) (fun p hp => Option.some.inj hp ▸ hl.exit_lt) hl.targets
      have hlr := hl.grow hr
      exact ⟨hlr.count_le, hlr.entry_lt, hr.exit_lt, hr.targets⟩
  | alternation l r ihl ihr =>
    have hf := joins_addFragment hs h
    have hl := ihl none forall_mem_none hf.targets
    have hr := ihr none forall_mem_none hl.targets
    have hlr := hl.grow hr
    have hfr := (hf.grow hl).grow hr
    refine (((hfr.link hfr.entry_lt hlr.entry_lt).link ?_ ?_).link ?_ ?_).link ?_ ?_
    all_goals simp only [count_link]
    · exact hfr.entry_lt
    · exact hr.entry_lt
    · exact hlr.exit_lt
    · exact hfr.exit_lt
    · exact hr.exit_lt
    · exact hfr.exit_lt
  | star r ih =>
    have hf := joins_addFragment hs h
    have hr := ih none forall_mem_none hf.targets
    have hfr := hf.grow hr
    refine (((hfr.link hfr.entry_lt hfr.exit_lt).link ?_ ?_).link ?_ ?_).link ?_ ?_
    all_goals simp only [count_link]
    · exact hfr.entry_lt
    · exact hr.entry_lt
    · exact hr.exit_lt
    · exact hr.entry_lt
    · exact hr.exit_lt
    · exact hfr.exit_lt

/-! ## Whole automata -/

theorem targetsInRange_of_foldlM {l : List (Int × Symbol × Int)} (h : n.TargetsInRange) (hstart : n.start < n.count)
    (hm : l.foldlM (fun n (i, a, j) => n.addTransition i a j) n = .ok m) : m.start < m.count ∧ m.TargetsInRange := by
  induction l generalizing n with
  | nil =>
    obtain rfl := Except.ok.inj hm
    exact ⟨hstart, h⟩
  | cons e l ih =>
    rw [List.foldlM_cons] at hm
    obtain ⟨k, hk, hm⟩ := bind_eq_ok_iff.mp hm
    refine ih (h.addTransition hk) ?_ hm
    obtain ⟨p, -, q, -, rfl⟩ := exists_of_addTransition hk
    rw [count_link]
    exact hstart

/-- The start is a state and transitions lead to states in an automaton that is made from its parts. -/
theorem targetsInRange_ofTables {count start : Int} {accept : List Int} {transitions : List (Int × Symbol × Int)}
    {flags : BuildFlags} (h : ofTables count start accept transitions flags = .ok n) :
    n.start < n.count ∧ n.TargetsInRange := by
  obtain ⟨s, hs, h⟩ := bind_eq_ok_iff.mp h
  obtain ⟨qs, -, h⟩ := bind_eq_ok_iff.mp h
  have hlt := lt_of_checkState hs
  have htargets : TargetsInRange { rows := List.replicate count.toNat ∅, start := s, accept := .ofList qs, flags } := by
    intro p a q hq
    rw [targets_of_rows_empty fun row hrow => (List.mem_replicate.mp hrow).2] at hq
    exact absurd hq (OrderedSet.not_mem_empty q)
  exact targetsInRange_of_foldlM htargets hlt h

end Nfa

end FormalLang
