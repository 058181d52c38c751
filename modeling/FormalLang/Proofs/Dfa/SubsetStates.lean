import FormalLang.Proofs.Dfa.Minimal
import FormalLang.Proofs.Faults
import FormalLang.Search.Run

/-!
# The states of the subset construction

The search for closed sets is over when nothing waits, and then every set that it found has been visited: there are only
finitely many sets of states. The states of the automaton are these sets in the order in which they were found, and the
transition on a symbol leads to the closure of the set of states that the symbol leads to.

* `Nfa.finishes_silentReach`, `Nfa.finishes_subsets`: the searches for closures and for closed sets come to an end.
* `Nfa.closure_natCast`, `Nfa.move_natCast`: closures and moves of states; `closure_stateNumbers`, `move_stateNumbers` of sets.
* `Dfa.TracksSets`: what the states of the automaton are.
* `Dfa.ofNfa_tracksSets`: the automaton of the subset construction.
-/

namespace FormalLang

/-- The numbers of the states of a set. -/
def stateNumbers (s : OrderedSet Nat) : List Int := s.toList.map Int.ofNat

namespace Nfa

variable {n : Nfa} {q : Nat} {s s₀ : OrderedSet Nat}

/-! ## Closures and moves -/

/-- The search for a closed set comes to an end. -/
theorem finishes_silentReach (n : Nfa) (qs : List Nat) :
    ∃ t, Search.Finishes .depthFirst (fun q => (n.targets q epsilon).toList) qs t ∧ n.silentReach qs = .ofList t.found := by
  refine ⟨_, Search.finishes_search (u := qs ++ n.transitions.map (·.2.2)) (List.subset_append_left _ _) ?_ ?_, rfl⟩
  · intro p _ q hq
    exact List.mem_append_right _ (List.mem_map.mpr ⟨(p, epsilon, q), mem_transitions.mpr hq, rfl⟩)
  · rw [List.length_append, List.length_map]
    exact Nat.le_refl _

theorem closure_natCast {qs : List Nat} (h : ∀ q ∈ qs, q < n.count) : n.closure (qs.map Int.ofNat) = .ok (n.silentReach qs) := by
  have hreach : n.silentReach qs.reverse = n.silentReach qs :=
    OrderedSet.ext fun q => by simp only [mem_silentReach, List.mem_reverse]
  have hmapM : (qs.map Int.ofNat).reverse.mapM n.checkState = .ok qs.reverse := by
    rw [← List.map_reverse]
    exact mapM_checkState_natCast fun q hq => h q (List.mem_reverse.mp hq)
  rw [closure, hmapM, ← hreach]
  rfl

theorem move_natCast {qs : List Nat} (h : ∀ q ∈ qs, q < n.count) (a : Symbol) :
    n.move (qs.map Int.ofNat) a = .ok (n.moveAll qs a) :=
  bind_eq_ok_iff.mpr ⟨qs, mapM_checkState_natCast h, rfl⟩

theorem closure_stateNumbers (h : ∀ q ∈ s, q < n.count) : n.closure (stateNumbers s) = .ok (n.silentReach s.toList) :=
  closure_natCast h

theorem move_stateNumbers (h : ∀ q ∈ s, q < n.count) (a : Symbol) :
    n.move (stateNumbers s) a = .ok (n.moveAll s.toList a) :=
  move_natCast h a

/-- A closed set is its own closure. -/
theorem SilentClosed.silentReach_eq (h : n.SilentClosed s) : n.silentReach s.toList = s := by
  refine OrderedSet.ext fun q => mem_silentReach.trans ⟨?_, fun hq => ⟨q, hq, .here q⟩⟩
  rintro ⟨p, hp, hpq⟩
  exact h p hp q hpq

theorem lt_count_of_mem_moveAll (ht : n.TargetsInRange) {a : Symbol} (h : q ∈ n.moveAll s.toList a) : q < n.count := by
  obtain ⟨p, -, hq⟩ := mem_moveAll.mp h
  exact ht p a q hq

/-! ## The sets found -/

/-- The search for closed sets comes to an end, although it does not know how many there are. -/
theorem finishes_subsets (ht : n.TargetsInRange) (h₀ : ∀ q ∈ s₀, q < n.count) :
    ∃ visits, Search.Finishes .depthFirst (fun s => n.alphabet.toList.map (n.step s)) [s₀] ⟨n.subsets s₀, visits⟩ :=
  ⟨_, Search.finishes_search (subset_setsBelow h₀) (fun s _ => map_step_subset_setsBelow ht s)
    (Nat.le_of_eq (length_setsBelow _))⟩

theorem lt_count_of_mem_subsets (ht : n.TargetsInRange) (h₀ : ∀ q ∈ s₀, q < n.count) (hs : s ∈ n.subsets s₀) :
    ∀ q ∈ s, q < n.count :=
  forall_mem_subsets (P := fun s => ∀ q ∈ s, q < n.count) h₀ (fun _ _ _ hq => lt_count_of_mem_step ht hq) s hs

/-- There are at most as many closed sets as there are sets of states. -/
theorem length_subsets_le (ht : n.TargetsInRange) (h₀ : ∀ q ∈ s₀, q < n.count) :
    (n.subsets s₀).length ≤ Nat.pow 2 n.count := by
  have hsub : n.subsets s₀ ⊆ setsBelow n.count := fun s hs => mem_setsBelow (lt_count_of_mem_subsets ht h₀ hs)
  exact Nat.le_trans ((nodup_subsets n s₀).length_le_of_subset hsub) (Nat.le_of_eq (length_setsBelow _))

end Nfa

namespace Dfa

variable {n : Nfa} {d : Dfa}

/-- The states of the automaton are the given sets of states of `n`, numbered by their places. The sets are closed and
listed once, every state is reached, and a symbol leads from a set to the closure of what it leads to in `n`. -/
structure TracksSets (d : Dfa) (n : Nfa) (sets : List (OrderedSet Nat)) : Prop where
  sources_eq : d.sources = some sets
  count_eq : d.count = sets.length
  alphabet_eq : d.alphabet = n.alphabet
  isComplete : d.isComplete = true
  nodup : sets.Nodup
  length_le : sets.length ≤ Nat.pow 2 n.count
  closed : ∀ s ∈ sets, n.closure (stateNumbers s) = .ok s
  start_eq : d.start = 0
  initial : ∃ s₀, sets[0]? = some s₀ ∧ n.closure [n.start] = .ok s₀
  next : ∀ i s, sets[i]? = some s → ∀ a ∈ n.alphabet, ∃ j t m, d.target? i a = some j ∧ sets[j]? = some t ∧
    n.move (stateNumbers s) a = .ok m ∧ n.closure (stateNumbers m) = .ok t
  reached : ∀ i < d.count, d.Leads 0 i
  accept_iff : ∀ i s, sets[i]? = some s → (i ∈ d.accept ↔ ∃ q ∈ s, q ∈ n.accept)

/-- An automaton with the tables on closed sets, of which some word leads to each, tracks the sets. -/
theorem tracksSets_of_represents (hstart : n.start < n.count) (ht : n.TargetsInRange)
    (hd : (subsetTables n (n.subsets (n.silentReach [n.start]))).Represents d)
    (hsources : d.sources = some (n.subsets (n.silentReach [n.start]))) (halphabet : d.alphabet = n.alphabet)
    (htotal : d.Total) (hreached : ∀ q < d.count, d.Leads d.start q) :
    d.TracksSets n (n.subsets (n.silentReach [n.start])) := by
  have h₀ := Nfa.lt_count_of_mem_silentReach ht hstart
  have hzero := n.getElem?_subsets_zero (n.silentReach [n.start])
  have hlt := fun s hs => Nfa.lt_count_of_mem_subsets (s := s) ht h₀ hs
  have hclosed := fun s hs => Nfa.silentClosed_of_mem_subsets (s := s) (n.silentClosed_silentReach [n.start]) hs
  have hd₀ : d.start = 0 := Int.natCast_inj.mp hd.start_eq
  refine ⟨hsources, hd.count_eq.trans (List.length_map _), halphabet, htotal.isComplete, Nfa.nodup_subsets n _,
    Nfa.length_subsets_le ht h₀, fun s hs => ?_, hd₀, ⟨_, hzero, Nfa.initial_eq hstart⟩, fun i s hi a ha => ?_,
    hd₀ ▸ hreached, fun i s hi => ?_⟩
  · rw [Nfa.closure_stateNumbers (hlt s hs), (hclosed s hs).silentReach_eq]
  · have hs := List.mem_of_getElem? hi
    have hstep := Nfa.step_mem_subsets ht h₀ hs ha
    refine ⟨_, n.step s a, n.moveAll s.toList a, ?_, List.getElem?_idxOf hstep, Nfa.move_stateNumbers (hlt s hs) a,
      Nfa.closure_stateNumbers fun q => Nfa.lt_count_of_mem_moveAll ht⟩
    obtain ⟨hlen, rfl⟩ := List.getElem?_eq_some_iff.mp hi
    conv_lhs => rw [← (Nfa.nodup_subsets n _).idxOf_getElem i hlen]
    exact target?_idxOf hd hs ha
  · obtain ⟨hlen, rfl⟩ := List.getElem?_eq_some_iff.mp hi
    rw [hd.accept_iff, mem_accept_subsetTables, List.getD_eq_getElem _ ∅ hlen, Nfa.meetsAccept_iff, and_iff_right hlen]

/-- The subset construction comes to an end: the search for the closure of any states does, and so does the search for
closed sets, which visits each set that it finds once. Its automaton has the sets found for its states. -/
theorem ofNfa_tracksSets (hstart : n.start < n.count) (ht : n.TargetsInRange) (flags : BuildFlags) :
    (∀ qs, ∃ t, Search.Finishes .depthFirst (fun q => (n.targets q epsilon).toList) qs t ∧
      n.silentReach qs = .ofList t.found) ∧
    ∃ d sets visits, ofNfa n flags = .ok d ∧ visits.Perm sets ∧
      Search.Finishes .depthFirst (fun s => n.alphabet.toList.map (n.step s)) [n.silentReach [n.start]] ⟨sets, visits⟩ ∧
      d.TracksSets n sets := by
  refine ⟨n.finishes_silentReach, ?_⟩
  obtain ⟨d, hd, hrep, hsources⟩ := exists_ofNfa hstart ht flags
  obtain ⟨d', hd', halphabet, htotal, hreached⟩ := exists_ofNfa_reached hstart ht flags
  obtain rfl : d' = d := Except.ok.inj (hd'.symm.trans hd)
  obtain ⟨visits, hvisits⟩ := Nfa.finishes_subsets ht (Nfa.lt_count_of_mem_silentReach ht hstart)
  exact ⟨d', _, visits, hd', hvisits.visited_perm, hvisits,
    tracksSets_of_represents hstart ht hrep hsources halphabet htotal hreached⟩

/-- Two states on a cycle of silent steps and one that they lead to. The set without states is the last one found. -/
theorem ofNfa_tracksSets_cycle :
    ∃ n d sets visits, Nfa.ofTables 3 0 [2] [(0, epsilon, 1), (1, epsilon, 0), (1, "a", 2), (2, "b", 0)] = .ok n ∧
      n.start < n.count ∧ n.TargetsInRange ∧ ofNfa n = .ok d ∧ visits.Perm sets ∧ d.TracksSets n sets ∧
      Search.Finishes .depthFirst (fun s => n.alphabet.toList.map (n.step s)) [n.silentReach [n.start]] ⟨sets, visits⟩ ∧
      sets.map OrderedSet.toList = [[0, 1], [2], []] := by
  obtain ⟨n, hn⟩ : ∃ n, Nfa.ofTables 3 0 [2] [(0, epsilon, 1), (1, epsilon, 0), (1, "a", 2), (2, "b", 0)] = .ok n := ⟨_, rfl⟩
  obtain ⟨hstart, ht⟩ := Nfa.targetsInRange_ofTables hn
  obtain ⟨-, d, sets, visits, hd, hperm, hfinishes, htracks⟩ := ofNfa_tracksSets hstart ht n.flags
  refine ⟨n, d, sets, visits, hn, hstart, ht, hd, hperm, htracks, hfinishes, ?_⟩
  have hsources := htracks.sources_eq
  obtain rfl := Except.ok.inj hn
  obtain rfl := Except.ok.inj hd
  obtain rfl := Option.some.inj hsources
  decide

end Dfa

end FormalLang
