import FormalLang.Dfa.Isomorphism
import FormalLang.Dfa.Subset
import FormalLang.Proofs.Dfa.Tables
import FormalLang.Proofs.Nfa.Alphabet
import FormalLang.Proofs.Nfa.Edits
import FormalLang.Proofs.Subsets

/-!
# The language of the subset construction

The search for closed sets finds every set that a word leads to, since there are no more sets than it may visit. So each
set has a transition on each symbol, and from the state of a set the words are accepted that some path from the set to an
accepting state spells.

* `Nfa.step_mem_subsets`: the sets found are closed under steps.
* `Dfa.exists_ofNfa`: the tables on the sets have no fault.
* `Dfa.acceptsFrom_iff_path`: the words accepted from the state of a set.
* `Dfa.exists_ofNfa_language`: the words accepted are those that a path of the nondeterministic automaton spells.
* `Dfa.accepts_ofNfa_iff`: the same for texts, and both automata accept the same texts without ε.
-/

namespace FormalLang

namespace Nfa

variable {n : Nfa} {p q : Nat} {a : Symbol} {w : List Symbol} {s s₀ : OrderedSet Nat}

theorem Path.lt_count_right (ht : n.TargetsInRange) (h : n.Path p w q) (hp : p < n.count) : q < n.count := by
  induction h with
  | here => exact hp
  | silent hq _ ih => exact ih (ht _ _ _ hq)
  | symbol _ hq _ ih => exact ih (ht _ _ _ hq)

/-- The words that lead from a closed set to an accepting state, by their first symbol. -/
theorem exists_accepting_step_iff (hs : n.SilentClosed s) (ha : a ≠ epsilon) :
    (∃ p ∈ n.step s a, ∃ q ∈ n.accept, n.Path p w q) ↔ ∃ p ∈ s, ∃ q ∈ n.accept, n.Path p (a :: w) q := by
  constructor
  · rintro ⟨p, hp, q, hqa, hpq⟩
    obtain ⟨r, hr, hrq⟩ := (exists_path_step_iff hs ha).mp ⟨p, hp, hpq⟩
    exact ⟨r, hr, q, hqa, hrq⟩
  · rintro ⟨p, hp, q, hqa, hpq⟩
    obtain ⟨r, hr, hrq⟩ := (exists_path_step_iff hs ha).mpr ⟨p, hp, hpq⟩
    exact ⟨r, hr, q, hqa, hrq⟩

/-! ## The sets found -/

/-- All sets of numbers below `k`. -/
def setsBelow (k : Nat) : List (OrderedSet Nat) := (List.range k).sublists.map OrderedSet.ofList

theorem length_setsBelow (k : Nat) : (setsBelow k).length = Nat.pow 2 k := by
  have h := OrderedSet.length_setsOver (List.range k)
  rwa [List.length_range] at h

theorem mem_setsBelow {k : Nat} (h : ∀ q ∈ s, q < k) : s ∈ setsBelow k :=
  OrderedSet.mem_setsOver fun q hq => List.mem_range.mpr (h q hq)

theorem lt_count_of_mem_step (ht : n.TargetsInRange) (h : q ∈ n.step s a) : q < n.count := by
  obtain ⟨p, -, r, hr, hq⟩ := mem_step.mp h
  exact hq.lt_count_right ht (ht _ _ _ hr)

theorem lt_count_of_mem_silentReach (ht : n.TargetsInRange) (hp : p < n.count) :
    ∀ q ∈ n.silentReach [p], q < n.count := by
  intro q hq
  obtain ⟨r, hr, hrq⟩ := mem_silentReach.mp hq
  rw [List.mem_singleton.mp hr] at hrq
  exact hrq.lt_count_right ht hp

theorem subset_setsBelow (h₀ : ∀ q ∈ s₀, q < n.count) : [s₀] ⊆ setsBelow n.count := by
  intro t h
  rw [List.mem_singleton.mp h]
  exact mem_setsBelow h₀

theorem map_step_subset_setsBelow (ht : n.TargetsInRange) (s : OrderedSet Nat) :
    n.alphabet.toList.map (n.step s) ⊆ setsBelow n.count := by
  intro t h
  obtain ⟨a, -, rfl⟩ := List.mem_map.mp h
  exact mem_setsBelow fun q hq => lt_count_of_mem_step ht hq

/-- The search has a visit for each set of states, so a symbol leads from a set that it finds to another one. -/
theorem step_mem_subsets (ht : n.TargetsInRange) (h₀ : ∀ q ∈ s₀, q < n.count) (hs : s ∈ n.subsets s₀)
    (ha : a ∈ n.alphabet) : n.step s a ∈ n.subsets s₀ :=
  Search.closed_of_length_le (subset_setsBelow h₀) (fun s _ => map_step_subset_setsBelow ht s)
    (Nat.le_of_eq (length_setsBelow _)) s hs (List.mem_map.mpr ⟨a, ha, rfl⟩)

theorem getElem?_subsets_zero (n : Nfa) (s₀ : OrderedSet Nat) : (n.subsets s₀)[0]? = some s₀ :=
  Search.getElem?_found_zero _ _ _ s₀

/-- What holds of the first set and of every set after a symbol holds of all sets found. -/
theorem forall_mem_subsets {P : OrderedSet Nat → Prop} (h₀ : P s₀) (hstep : ∀ s a, P (n.step s a)) :
    ∀ s ∈ n.subsets s₀, P s := by
  intro s hs
  have h := Search.sound (d := .depthFirst) s hs
  cases h with
  | seed h =>
    rw [List.mem_singleton.mp h]
    exact h₀
  | step _ h =>
    obtain ⟨a, -, rfl⟩ := List.mem_map.mp h
    exact hstep _ a

theorem silentClosed_of_mem_subsets (h₀ : n.SilentClosed s₀) (hs : s ∈ n.subsets s₀) : n.SilentClosed s :=
  forall_mem_subsets h₀ silentClosed_step s hs

end Nfa

namespace Dfa

variable {n : Nfa} {a : Symbol} {s₀ : OrderedSet Nat} {S : List (OrderedSet Nat)} {d : Dfa}

/-! ## The tables on the sets -/

theorem get?_row_subsetTables (i : Nat) : ((subsetTables n S).rows.getD i ∅).get? a =
    if i < S.length ∧ a ∈ n.alphabet then some (S.idxOf (n.step (S.getD i ∅) a) : Int) else none := by
  rw [List.getD_eq_getElem?_getD, subsetTables, List.getElem?_map]
  by_cases hi : i < S.length
  · rw [List.getElem?_eq_getElem hi]
    show (Table.ofList _).get? a = _
    rw [Table.get?_ofList_map]
    simp [hi, OrderedSet.mem_def]
  · rw [List.getElem?_eq_none (Nat.le_of_not_lt hi)]
    simp [hi]

theorem mem_accept_subsetTables {i : Nat} :
    (i : Int) ∈ (subsetTables n S).accept ↔ i < S.length ∧ n.meetsAccept (S.getD i ∅) = true := by
  rw [subsetTables, List.mem_filterMap]
  constructor
  · rintro ⟨j, hj, h⟩
    rw [List.mem_range] at hj
    split at h
    · next hm =>
      obtain rfl : j = i := by
        have := Option.some.inj h
        omega
      exact ⟨hj, hm⟩
    · exact nomatch h
  · rintro ⟨hi, hm⟩
    exact ⟨i, List.mem_range.mpr hi, by rw [if_pos hm]⟩

/-- The tables on sets that are closed under steps have no fault. -/
theorem faults_subsetTables (hne : 0 < S.length) (hS : ∀ s ∈ S, ∀ a ∈ n.alphabet, n.step s a ∈ S) :
    (subsetTables n S).faults = [] := by
  have hrows : (subsetTables n S).rows.length = S.length := List.length_map _
  refine DfaTables.faults_eq_nil_iff.mpr ⟨?_, ?_, fun q hq => ?_, fun row hrow e he => ?_⟩
  · rw [hrows]
    rfl
  · refine ⟨Int.le_refl 0, ?_⟩
    rw [hrows]
    exact Int.natCast_pos.mpr hne
  · obtain ⟨j, hj, h⟩ := List.mem_filterMap.mp hq
    rw [List.mem_range] at hj
    split at h
    · obtain rfl := Option.some.inj h
      unfold DfaTables.HasState
      rw [hrows]
      omega
    · exact nomatch h
  · obtain ⟨s, hs, rfl⟩ := List.mem_map.mp hrow
    have hget := Table.mem_entries_iff.mp (show (e.1, e.2) ∈ _ from he)
    rw [Table.get?_ofList_map] at hget
    split at hget
    · next ha =>
      refine ⟨OrderedSet.mem_ofList.mpr ha, ?_⟩
      have hlt := List.idxOf_lt_length_of_mem (hS s hs e.1 ha)
      rw [← Option.some.inj hget]
      unfold DfaTables.HasState
      rw [hrows]
      omega
    · exact nomatch hget

/-- The subset construction of an automaton whose start is a state succeeds. -/
theorem exists_ofNfa (hstart : n.start < n.count) (ht : n.TargetsInRange) (flags : BuildFlags) :
    ∃ d, ofNfa n flags = .ok d ∧ (subsetTables n (n.subsets (n.silentReach [n.start]))).Represents d ∧
      d.sources = some (n.subsets (n.silentReach [n.start])) := by
  have h₀ : ∀ q ∈ n.silentReach [n.start], q < n.count := Nfa.lt_count_of_mem_silentReach ht hstart
  have hne : 0 < (n.subsets (n.silentReach [n.start])).length :=
    (List.getElem?_eq_some_iff.mp (n.getElem?_subsets_zero _)).1
  have hfaults := faults_subsetTables hne fun s hs a ha => Nfa.step_mem_subsets ht h₀ hs ha
  obtain ⟨d, hd, hrep, hsources, -⟩ := DfaTables.exists_ofTables flags (some (n.subsets (n.silentReach [n.start]))) hfaults
  refine ⟨d, ?_, hrep, hsources⟩
  rw [ofNfa, Nfa.initial_eq hstart]
  exact hd

/-! ## The words accepted from a set -/

theorem getD_idxOf {s : OrderedSet Nat} (hs : s ∈ S) : S.getD (S.idxOf s) ∅ = s := by
  have hlt := List.idxOf_lt_length_of_mem hs
  rw [List.getD_eq_getElem S ∅ hlt]
  exact List.getElem_idxOf hlt

/-- From the state of a set, a word is accepted if some path from the set to an accepting state spells it. The sets are
closed under silent steps and under steps on symbols. -/
theorem acceptsFrom_iff_path (hd : (subsetTables n S).Represents d)
    (hS : ∀ s ∈ S, ∀ a ∈ n.alphabet, n.step s a ∈ S) (hclosed : ∀ s ∈ S, n.SilentClosed s) {w : List Symbol} {i : Nat}
    (hi : i < S.length) :
    d.acceptsFrom i w = true ↔ ∃ p ∈ S.getD i ∅, ∃ q ∈ n.accept, n.Path p w q := by
  induction w generalizing i with
  | nil =>
    rw [acceptsFrom_nil, decide_eq_true_eq, hd.accept_iff, mem_accept_subsetTables, Nfa.meetsAccept_iff]
    constructor
    · rintro ⟨-, q, hq, hqa⟩
      exact ⟨q, hq, q, hqa, .here q⟩
    · rintro ⟨p, hp, q, hqa, hpq⟩
      exact ⟨hi, q, hclosed _ (getD_mem hi) p hp q hpq, hqa⟩
  | cons a w ih =>
    rw [acceptsFrom_cons, hd.target_eq, get?_row_subsetTables]
    by_cases ha : a ∈ n.alphabet
    · have hstep := hS (S.getD i ∅) (getD_mem hi) a ha
      rw [if_pos ⟨hi, ha⟩]
      show d.acceptsFrom (S.idxOf _) w = true ↔ _
      refine (ih (List.idxOf_lt_length_of_mem hstep)).trans ?_
      rw [getD_idxOf hstep]
      exact Nfa.exists_accepting_step_iff (hclosed _ (getD_mem hi)) (Nfa.ne_epsilon_of_mem_alphabet ha)
    · -- No transition has the symbol, so the automaton has no transition on it and no path spells it.
      rw [if_neg fun h => ha h.2]
      constructor
      · exact fun h => nomatch h
      · rintro ⟨p, -, q, -, hpq⟩
        obtain ⟨hne, s, r, -, hr, -⟩ := Nfa.path_cons_iff.mp hpq
        exact absurd (Nfa.mem_alphabet_of_mem_targets hne hr) ha

/-- The automaton of the subset construction accepts the words that a path from the start to an accepting state spells. -/
theorem exists_ofNfa_language (hstart : n.start < n.count) (ht : n.TargetsInRange) (flags : BuildFlags) :
    ∃ d, ofNfa n flags = .ok d ∧ ∀ w, d.acceptsWord w = true ↔ n.Spells w := by
  obtain ⟨d, hd, hrep, -⟩ := exists_ofNfa hstart ht flags
  have h₀ := Nfa.lt_count_of_mem_silentReach ht hstart
  have hzero := n.getElem?_subsets_zero (n.silentReach [n.start])
  have hi := (List.getElem?_eq_some_iff.mp hzero).1
  have hclosed := fun s hs => Nfa.silentClosed_of_mem_subsets (s := s) (n.silentClosed_silentReach [n.start]) hs
  have hstep := fun s hs a ha => Nfa.step_mem_subsets (s := s) (a := a) ht h₀ hs ha
  have hd₀ : d.start = 0 := Int.natCast_inj.mp hrep.start_eq
  refine ⟨d, hd, fun w => ?_⟩
  rw [acceptsWord, hd₀, acceptsFrom_iff_path hrep hstep hclosed hi, List.getD_eq_getElem?_getD, hzero, Nfa.Spells]
  constructor
  · rintro ⟨p, hp, q, hqa, hpq⟩
    obtain ⟨r, hr, hrp⟩ := Nfa.mem_silentReach.mp hp
    rw [List.mem_singleton.mp hr] at hrp
    exact ⟨q, hqa, hrp.append hpq⟩
  · rintro ⟨q, hqa, hpq⟩
    exact ⟨n.start, Nfa.mem_silentReach.mpr ⟨_, List.mem_singleton.mpr rfl, .here _⟩, q, hqa, hpq⟩

/-- The automaton of the subset construction accepts a text if some path from the start to an accepting state spells it,
as the nondeterministic automaton itself does if the text has no ε. -/
theorem accepts_ofNfa_iff (hstart : n.start < n.count) (ht : n.TargetsInRange) (flags : BuildFlags) :
    ∃ d, ofNfa n flags = .ok d ∧ ∀ text, (d.accepts text = true ↔ n.Spells (symbols text)) ∧
      ('ε' ∉ text.toList → n.accepts text = .ok (d.accepts text)) := by
  obtain ⟨d, hd, hlang⟩ := exists_ofNfa_language hstart ht flags
  refine ⟨d, hd, fun text => ⟨hlang _, fun htext => ?_⟩⟩
  obtain ⟨b, hb, hiff⟩ := Nfa.acceptsWord_iff_spells hstart (epsilon_notMem_symbols htext)
  rw [← hlang] at hiff
  rw [Nfa.accepts, hb, accepts, Bool.eq_iff_iff.mpr hiff]

/-- Two states on a cycle of silent steps, one of them with a transition that reads a symbol. -/
theorem accepts_ofNfa_iff_cycle :
    ∃ n, Nfa.ofTables 2 0 [1] [(0, epsilon, 1), (1, epsilon, 0), (1, "a", 0)] = .ok n ∧
      n.start < n.count ∧ n.TargetsInRange ∧
      ∃ d, ofNfa n = .ok d ∧ d.accepts "aa" = true ∧ n.accepts "aa" = .ok true ∧ d.accepts "aε" = false := by
  obtain ⟨n, hn⟩ : ∃ n, Nfa.ofTables 2 0 [1] [(0, epsilon, 1), (1, epsilon, 0), (1, "a", 0)] = .ok n := ⟨_, rfl⟩
  obtain ⟨hstart, ht⟩ := Nfa.targetsInRange_ofTables hn
  obtain ⟨d, hd, hlang⟩ := accepts_ofNfa_iff hstart ht n.flags
  have hsilent : n.Path n.start [] 1 := by
    obtain rfl := Except.ok.inj hn
    exact .silent (q := 1) (by decide) (.here 1)
  have hround : n.Path n.start ["a"] n.start := by
    obtain rfl := Except.ok.inj hn
    exact hsilent.append (.symbol (q := 0) (by decide) (by decide) (.here 0))
  have haccept : 1 ∈ n.accept := by
    obtain rfl := Except.ok.inj hn
    decide
  have haa : d.accepts "aa" = true := (hlang "aa").1.mpr ⟨1, haccept, (hround.append hround).append hsilent⟩
  refine ⟨n, hn, hstart, ht, d, hd, haa, haa ▸ (hlang "aa").2 (by decide), ?_⟩
  by_contra h
  obtain ⟨q, -, hq⟩ := (hlang "aε").1.mp (by simpa using h)
  obtain ⟨-, s, r, -, -, hr⟩ := Nfa.path_cons_iff.mp hq
  exact (Nfa.path_cons_iff.mp hr).1 rfl

end Dfa

end FormalLang
