import FormalLang.Proofs.Dfa.Subset
import FormalLang.Proofs.Nfa.Constructible

/-!
# Automata with the same transitions

A row lists its symbols in the order in which they were first used, so that automata with the same transitions may still
differ. The subset construction does not see the order: a closed set is the set of the states that silent steps lead to, and
the symbols are followed in ascending order. So the closed sets are discovered in the same order, and each gets the same
number.

* `Nfa.Alike`: the same states and the same transitions.
* `Nfa.Alike.step_eq`, `Nfa.Alike.initial_eq`: the same closed sets after each symbol, and before the first one.
* `Nfa.Alike.alphabet_eq`: the same symbols, if no row lists a symbol that leads nowhere.
* `Nfa.alike_ofTables`: the order and the repetitions in which an automaton's parts are given do not matter.
* `Dfa.ofNfa_flags`: the flags of a construction are only carried along.
* `Dfa.ofNfa_alike`: the same deterministic automaton.
-/

namespace FormalLang

namespace Nfa

variable {n m : Nfa} {p q : Nat} {a : Symbol} {w : List Symbol}

/-- Two automata have as many states, the same start, the same accepting states and the same transitions, in whatever order
their rows list them. -/
structure Alike (n m : Nfa) : Prop where
  count_eq : n.count = m.count
  start_eq : n.start = m.start
  accept_eq : n.accept = m.accept
  mem_transitions : ∀ t, t ∈ n.transitions ↔ t ∈ m.transitions

theorem Path.mono (h : ∀ p a q, q ∈ n.targets p a → q ∈ m.targets p a) (hw : n.Path p w q) : m.Path p w q := by
  induction hw with
  | here p => exact .here p
  | silent hq _ ih => exact .silent (h _ _ _ hq) ih
  | symbol ha hq _ ih => exact .symbol ha (h _ _ _ hq) ih

namespace Alike

variable (h : n.Alike m)
include h

theorem mem_targets_iff : q ∈ n.targets p a ↔ q ∈ m.targets p a := by
  rw [← Nfa.mem_transitions, h.mem_transitions, Nfa.mem_transitions]

theorem path_iff : n.Path p w q ↔ m.Path p w q :=
  ⟨Path.mono fun _ _ _ => h.mem_targets_iff.mp, Path.mono fun _ _ _ => h.mem_targets_iff.mpr⟩

/-! ## Closed sets -/

theorem silentReach_eq (qs : List Nat) : n.silentReach qs = m.silentReach qs := by
  refine OrderedSet.ext fun q => ?_
  rw [mem_silentReach, mem_silentReach]
  simp only [h.path_iff]

theorem moveAll_eq (qs : List Nat) (a : Symbol) : n.moveAll qs a = m.moveAll qs a := by
  refine OrderedSet.ext fun q => ?_
  rw [mem_moveAll, mem_moveAll]
  simp only [h.mem_targets_iff]

theorem step_eq : n.step = m.step := by
  funext s a
  rw [step, step, h.moveAll_eq, h.silentReach_eq]

/-- The closed sets before any symbol are the same, or neither automaton has a state to start in. -/
theorem initial_eq : n.initial = m.initial := by
  unfold initial closure checkState
  rw [h.start_eq, h.count_eq]
  simp only [h.silentReach_eq]

theorem meetsAccept_eq (s : OrderedSet Nat) : n.meetsAccept s = m.meetsAccept s := by
  rw [meetsAccept, meetsAccept, h.accept_eq]

theorem alphabet_eq (hn : n.Occupied) (hm : m.Occupied) : n.alphabet = m.alphabet := by
  refine OrderedSet.ext fun a => ?_
  rw [mem_alphabet_iff_exists_targets hn, mem_alphabet_iff_exists_targets hm]
  simp only [h.mem_targets_iff]

/-- The closed sets are discovered in the same order. -/
theorem subsets_eq (hn : n.Occupied) (hm : m.Occupied) (s : OrderedSet Nat) : n.subsets s = m.subsets s := by
  unfold subsets
  rw [h.alphabet_eq hn hm, h.step_eq, h.count_eq]

end Alike

/-! ## Parts in any order -/

/-- The transitions after some more have been added. -/
theorem mem_targets_foldlM {l : List (Int × Symbol × Int)}
    (h : l.foldlM (fun n (i, a, j) => n.addTransition i a j) n = .ok m) :
    m.count = n.count ∧ m.start = n.start ∧ m.accept = n.accept ∧
      ∀ p a q, q ∈ m.targets p a ↔ q ∈ n.targets p a ∨ ((p : Int), a, (q : Int)) ∈ l := by
  induction l generalizing n with
  | nil =>
    obtain rfl := Except.ok.inj h
    exact ⟨rfl, rfl, rfl, by simp⟩
  | cons e l ih =>
    obtain ⟨i, b, j⟩ := e
    rw [List.foldlM_cons] at h
    obtain ⟨k, hk, hl⟩ := bind_eq_ok_iff.mp h
    obtain ⟨s, hs, hk⟩ := bind_eq_ok_iff.mp hk
    obtain ⟨r, hr, hk⟩ := bind_eq_ok_iff.mp hk
    obtain rfl : n.link s b r = k := Except.ok.inj hk
    obtain ⟨hcount, hstart, haccept, htargets⟩ := ih hl
    refine ⟨hcount.trans (count_link n s b r), hstart, haccept, fun p a q => ?_⟩
    rw [htargets, mem_targets_link (lt_of_checkState hs), List.mem_cons, eq_natCast_of_checkState hs,
      eq_natCast_of_checkState hr, or_assoc]
    simp only [Prod.mk.injEq, Int.natCast_inj]

/-- What an automaton is made of can be read off it again, up to order and repetitions. -/
theorem parts_of_ofTables {count start : Int} {accept : List Int} {transitions : List (Int × Symbol × Int)} {flags : BuildFlags}
    (h : ofTables count start accept transitions flags = .ok n) :
    n.count = count.toNat ∧ (n.start : Int) = start ∧ (∀ q, q ∈ n.accept ↔ (q : Int) ∈ accept) ∧
      ∀ p a q, q ∈ n.targets p a ↔ ((p : Int), a, (q : Int)) ∈ transitions := by
  obtain ⟨s, hs, h⟩ := bind_eq_ok_iff.mp h
  obtain ⟨qs, hqs, h⟩ := bind_eq_ok_iff.mp h
  obtain ⟨hcount, hstart, haccept, htargets⟩ := mem_targets_foldlM h
  refine ⟨hcount.trans List.length_replicate, ?_, fun q => ?_, fun p a q => ?_⟩
  · rw [hstart, eq_natCast_of_checkState hs]
  · obtain ⟨hmap, -⟩ := mapM_checkState_eq_ok_iff.mp hqs
    rw [haccept, OrderedSet.mem_ofList, hmap, List.mem_map]
    exact ⟨fun hq => ⟨q, hq, rfl⟩, fun ⟨r, hr, hrq⟩ => Int.ofNat_inj.mp hrq ▸ hr⟩
  · rw [htargets, targets_of_rows_empty fun row hrow => (List.mem_replicate.mp hrow).2]
    simp

/-- Automata that are made of the same parts are alike, in whatever order and however often the parts are given. -/
theorem alike_ofTables {count start : Int} {qs qs' : List Int} {ts ts' : List (Int × Symbol × Int)} {flags flags' : BuildFlags}
    (hn : ofTables count start qs ts flags = .ok n) (hm : ofTables count start qs' ts' flags' = .ok m)
    (hqs : ∀ q, q ∈ qs ↔ q ∈ qs') (hts : ∀ t, t ∈ ts ↔ t ∈ ts') : n.Alike m := by
  obtain ⟨hcount, hstart, haccept, htargets⟩ := parts_of_ofTables hn
  obtain ⟨hcount', hstart', haccept', htargets'⟩ := parts_of_ofTables hm
  refine ⟨hcount.trans hcount'.symm, Int.natCast_inj.mp (hstart.trans hstart'.symm), OrderedSet.ext fun q => ?_, ?_⟩
  · rw [haccept, haccept', hqs]
  · rintro ⟨p, a, q⟩
    rw [mem_transitions, mem_transitions, htargets, htargets', hts]

end Nfa

namespace Dfa

/-- The flags of the construction are those of its automaton and have no other influence on it. -/
theorem ofNfa_flags (n : Nfa) (flags flags' : BuildFlags) :
    ofNfa n flags' = (ofNfa n flags).map fun d => { d with flags := flags' } := by
  unfold ofNfa
  cases n.initial with
  | error e => rfl
  | ok s =>
    show ofTables _ flags' _ = (ofTables _ flags _).map _
    unfold ofTables
    split <;> rfl

/-- The subset construction gives the same automaton for automata with the same transitions, with the same numbers, tables,
accepting states, symbols and sets, whatever flags they carry, and gives one if there is a state to start in. -/
theorem ofNfa_alike {n m : Nfa} (hn : n.Constructible) (hm : m.Constructible) (h : n.Alike m) (flags : BuildFlags) :
    ofNfa n flags = ofNfa m flags ∧ (ofNfa m = (ofNfa n).map fun d => { d with flags := m.flags }) ∧
      (0 < n.count → ∃ d, ofNfa n flags = .ok d) := by
  have hn' := hn.consistent
  have hm' := hm.consistent
  have htables : ∀ sets, subsetTables n sets = subsetTables m sets := fun sets => by
    unfold subsetTables
    simp only [h.alphabet_eq hn'.target_exists hm'.target_exists, h.step_eq, h.meetsAccept_eq]
  have heq : ∀ flags, ofNfa n flags = ofNfa m flags := fun flags => by
    unfold ofNfa
    rw [h.initial_eq]
    simp only [h.subsets_eq hn'.target_exists hm'.target_exists, htables]
  refine ⟨heq flags, ?_, fun hpos => ?_⟩
  · rw [← heq m.flags]
    exact ofNfa_flags n n.flags m.flags
  · obtain ⟨d, hd, -⟩ := exists_ofNfa (hn'.start_lt hpos) hn'.target_lt flags
    exact ⟨d, hd⟩

/-- The same transitions in two orders, one of them twice. The rows differ, and the sets have the same numbers. -/
theorem ofNfa_alike_reordered :
    ∃ n m d, Nfa.ofTables 3 0 [2] [(0, "b", 1), (0, "a", 2), (0, epsilon, 1), (1, "a", 2)] = .ok n ∧
      Nfa.ofTables 3 0 [2, 2] [(1, "a", 2), (0, epsilon, 1), (0, "a", 2), (0, "b", 1), (0, "a", 2)] = .ok m ∧
      n.Constructible ∧ m.Constructible ∧ n.Alike m ∧ n.rows ≠ m.rows ∧ ofNfa n {} = .ok d ∧ ofNfa m {} = .ok d ∧
      d.sources.map (·.map OrderedSet.toList) = some [[0, 1], [2], [1], []] := by
  obtain ⟨n, hn⟩ : ∃ n, Nfa.ofTables 3 0 [2] [(0, "b", 1), (0, "a", 2), (0, epsilon, 1), (1, "a", 2)] = .ok n := ⟨_, rfl⟩
  obtain ⟨m, hm⟩ : ∃ m, Nfa.ofTables 3 0 [2, 2]
    [(1, "a", 2), (0, epsilon, 1), (0, "a", 2), (0, "b", 1), (0, "a", 2)] = .ok m := ⟨_, rfl⟩
  have halike : n.Alike m := by
    refine Nfa.alike_ofTables hn hm (fun q => by simp) fun t => ?_
    simp only [List.mem_cons, List.not_mem_nil, or_false]
    tauto
  have hcount : n.count = 3 := by
    obtain rfl := Except.ok.inj hn
    rfl
  obtain ⟨heq, -, hexists⟩ := ofNfa_alike (.ofTables hn) (.ofTables hm) halike {}
  obtain ⟨d, hd⟩ := hexists (by omega)
  refine ⟨n, m, d, hn, hm, .ofTables hn, .ofTables hm, halike, ?_, hd, heq ▸ hd, ?_⟩
  · obtain rfl := Except.ok.inj hn
    obtain rfl := Except.ok.inj hm
    decide
  · obtain rfl := Except.ok.inj hn
    obtain rfl := Except.ok.inj hd
    decide

end Dfa

end FormalLang
