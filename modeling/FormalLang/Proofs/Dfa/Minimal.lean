import FormalLang.Proofs.Dfa.Canonical
import FormalLang.Proofs.Dfa.Distinguishing
import FormalLang.Proofs.Dfa.Subset
import FormalLang.Proofs.Nfa.Thompson
import FormalLang.Proofs.Regex.Literals

/-!
# Minimal automata of expressions

The subset construction finds only sets that words lead to, and gives each of them a transition on each symbol.
Minimization keeps both and merges what no word tells apart, so its result is canonical. The symbols of an expression are
those of its words, so expressions with the same words have the same alphabet, and hence isomorphic minimal automata.

* `Dfa.exists_ofNfa_reached`: the subset construction leaves no transition out and reaches every state.
* `Dfa.exists_minimize_canonical`: minimization of such an automaton is canonical.
* `Regex.mem_literals_iff`: the symbols of an expression are those of its words.
* `Dfa.exists_minimize_ofRegex`: the minimal automaton of an expression.
* `Dfa.isomorphic_minimize_iff`: two texts have isomorphic minimal automata exactly if they describe the same words.
-/

namespace FormalLang

/-! ## The subset construction -/

namespace Nfa

theorem nodup_subsets (n : Nfa) (s : OrderedSet Nat) : (n.subsets s).Nodup := Search.nodup_found _ _ _ _

end Nfa

namespace Dfa

variable {n : Nfa} {d m : Dfa} {q : Nat} {s₀ : OrderedSet Nat}

/-- A step leads from the state of a set to the state of the set after the symbol. -/
theorem target?_idxOf {S : List (OrderedSet Nat)} {s : OrderedSet Nat} {a : Symbol}
    (hd : (subsetTables n S).Represents d) (hs : s ∈ S) (ha : a ∈ n.alphabet) :
    d.target? (S.idxOf s) a = some (S.idxOf (n.step s a)) := by
  rw [hd.target_eq, get?_row_subsetTables, if_pos ⟨List.idxOf_lt_length_of_mem hs, ha⟩, getD_idxOf hs]
  rfl

/-- Some word leads to the state of each set that the search finds. -/
theorem leads_idxOf (hd : (subsetTables n (n.subsets s₀)).Represents d)
    (hstep : ∀ s ∈ n.subsets s₀, ∀ a ∈ n.alphabet, n.step s a ∈ n.subsets s₀) {s : OrderedSet Nat}
    (hs : Search.Reach (fun s => n.alphabet.toList.map (n.step s)) [s₀] s) :
    s ∈ n.subsets s₀ ∧ d.Leads 0 ((n.subsets s₀).idxOf s) := by
  induction hs with
  | seed h =>
    obtain ⟨rest, hrest⟩ := List.head?_eq_some_iff.mp (List.head?_eq_getElem?.trans (n.getElem?_subsets_zero s₀))
    rw [List.mem_singleton.mp h, hrest, List.idxOf_cons_self]
    exact ⟨List.mem_cons_self, [], rfl⟩
  | step _ h ih =>
    obtain ⟨hs, w, hw⟩ := ih
    obtain ⟨a, ha, rfl⟩ := List.mem_map.mp h
    refine ⟨hstep _ hs a ha, w ++ [a], ?_⟩
    rw [run?_append, hw]
    show d.run? _ [a] = _
    rw [run?_cons, target?_idxOf hd hs ha]
    rfl

/-- The subset construction leaves no transition out and reaches every state. -/
theorem exists_ofNfa_reached (hstart : n.start < n.count) (ht : n.TargetsInRange) (flags : BuildFlags) :
    ∃ d, ofNfa n flags = .ok d ∧ d.alphabet = n.alphabet ∧ d.Total ∧ ∀ q < d.count, d.Leads d.start q := by
  obtain ⟨d, hd, hrep, -⟩ := exists_ofNfa hstart ht flags
  have h₀ := Nfa.lt_count_of_mem_silentReach ht hstart
  have hstep := fun s hs a ha => Nfa.step_mem_subsets (s := s) (a := a) ht h₀ hs ha
  have hcount : d.count = (n.subsets (n.silentReach [n.start])).length :=
    hrep.count_eq.trans (List.length_map _)
  have halphabet : d.alphabet = n.alphabet := by
    rw [hrep.alphabet_eq]
    exact OrderedSet.ext fun a => OrderedSet.mem_ofList
  refine ⟨d, hd, halphabet, fun q hq a ha => ?_, fun q hq => ?_⟩
  · rw [hrep.target_eq, get?_row_subsetTables, if_pos ⟨hcount ▸ hq, halphabet ▸ ha⟩]
    exact ⟨_, rfl⟩
  · have hi : q < (n.subsets (n.silentReach [n.start])).length := hcount ▸ hq
    have hmem := List.getElem_mem hi
    have := (leads_idxOf hrep hstep (Search.sound _ hmem)).2
    rw [(Nfa.nodup_subsets n _).idxOf_getElem] at this
    rwa [Int.natCast_inj.mp hrep.start_eq]

/-! ## Minimization -/

/-- A word leads from class to class as it leads from state to state. -/
theorem run?_classOf {p : Nat} {w : List Symbol} (hm : (d.quotientTables d.classes).Represents m) (hq : q < d.count)
    (h : d.run? q w = some p) : m.run? (classOf d.classes q) w = some (classOf d.classes p) := by
  induction w generalizing q with
  | nil =>
    obtain rfl := Option.some.inj h
    rfl
  | cons a w ih =>
    rw [run?_cons, Option.bind_eq_some_iff] at h
    obtain ⟨r, hr, h⟩ := h
    rw [run?_cons, target?_classOf hm hq hr]
    exact ih (target_lt_count hr) h

/-- Minimization of an automaton that leaves no transition out and reaches every state gives a canonical one. -/
theorem exists_minimize_canonical (htotal : d.Total) (hreached : ∀ q < d.count, d.Leads d.start q) (flags : BuildFlags) :
    ∃ m, d.minimize flags = .ok m ∧ m.alphabet = d.alphabet ∧ m.Canonical ∧ ∀ w, m.acceptsWord w = d.acceptsWord w := by
  obtain ⟨m, hm, hrep, -⟩ := exists_minimize d flags
  have halphabet := alphabet_quotient hrep
  have hstart := start_quotient hrep
  have hclass : ∀ i < m.count, ∃ q < d.count, classOf d.classes q = i := fun i hi =>
    exists_classOf_eq (count_quotient hrep ▸ hi)
  refine ⟨m, hm, halphabet, ⟨fun i hi a ha => ?_, fun i hi => ?_, fun i hi j hj => eq_of_acceptsFrom_eq hrep hi hj⟩, fun w => ?_⟩
  · obtain ⟨q, hq, rfl⟩ := hclass i hi
    obtain ⟨p, hp⟩ := htotal q hq a (halphabet ▸ ha)
    exact ⟨_, target?_classOf hrep hq hp⟩
  · obtain ⟨q, hq, rfl⟩ := hclass i hi
    obtain ⟨w, hw⟩ := hreached q hq
    rw [hstart]
    exact ⟨w, run?_classOf hrep d.start_lt hw⟩
  · rw [acceptsWord, hstart]
    exact acceptsFrom_classOf hrep d.start_lt w

end Dfa

/-! ## Expressions -/

namespace Nfa

variable {r : Regex}

theorem targetsInRange_ofRegex (r : Regex) (flags : BuildFlags) : (ofRegex r flags).TargetsInRange := by
  have hempty : ({ flags } : Nfa).TargetsInRange := fun p a q hq => absurd (lt_count_of_mem_targets hq) (Nat.not_lt_zero p)
  exact (joins_addRegex r none forall_mem_none hempty).targets

/-- The automaton of an expression has exactly the symbols of the expression. -/
theorem mem_alphabet_ofRegex_iff (hr : r.IsPlain) (flags : BuildFlags) {a : Symbol} :
    a ∈ (ofRegex r flags).alphabet ↔ a ∈ r.literals := by
  refine ⟨labelledIn_ofRegex r flags a, fun ha => ?_⟩
  obtain ⟨w, hw, haw⟩ := Regex.mem_literals_iff.mp ha
  obtain ⟨q, -, hpath⟩ := (spells_build_iff hr.ne_epsilon { flags }).mpr hw
  exact hpath.mem_alphabet a haw

end Nfa

namespace Dfa

variable {r s : Regex}

/-- The minimal automaton of an expression exists, is canonical, and has the symbols and the words of the expression. -/
theorem exists_minimize_ofRegex (hr : r.IsPlain) (flags : BuildFlags) :
    ∃ d m, ofNfa (Nfa.ofRegex r flags) = .ok d ∧ d.minimize = .ok m ∧ m.Canonical ∧
      (∀ a, a ∈ m.alphabet ↔ a ∈ r.literals) ∧ ∀ w, m.acceptsWord w = true ↔ r.Matches w := by
  have hstart : (Nfa.ofRegex r flags).start < (Nfa.ofRegex r flags).count := Nfa.start_build_lt hr.ne_epsilon { flags }
  have ht := Nfa.targetsInRange_ofRegex r flags
  obtain ⟨d, hd, halphabet, htotal, hreached⟩ := exists_ofNfa_reached hstart ht (Nfa.ofRegex r flags).flags
  obtain ⟨d', hd', hlanguage⟩ := exists_ofNfa_language hstart ht (Nfa.ofRegex r flags).flags
  obtain rfl := Except.ok.inj (hd.symm.trans hd')
  obtain ⟨m, hm, hma, hcanonical, hwords⟩ := exists_minimize_canonical htotal hreached d.flags
  refine ⟨d, m, hd, hm, hcanonical, fun a => ?_, fun w => ?_⟩
  · rw [hma, halphabet, Nfa.mem_alphabet_ofRegex_iff hr]
  · rw [hwords, hlanguage]
    exact Nfa.spells_build_iff hr.ne_epsilon { flags }

/-- Automata whose symbols have one character each accept the same words if they accept the same texts. -/
theorem acceptsWord_eq_of_accepts_eq {d e : Dfa} (halphabet : d.alphabet = e.alphabet)
    (hsingle : ∀ a ∈ d.alphabet, ∃ c, a = String.singleton c) (h : ∀ text, d.accepts text = e.accepts text)
    (w : List Symbol) : d.acceptsWord w = e.acceptsWord w := by
  by_cases hw : ∀ a ∈ w, a ∈ d.alphabet
  · obtain ⟨text, rfl⟩ := exists_symbols_eq fun a ha => hsingle a (hw a ha)
    exact h text
  · have hd : d.acceptsWord w = false := Bool.eq_false_iff.mpr fun hd => hw (mem_alphabet_of_acceptsFrom hd)
    have he : e.acceptsWord w = false := Bool.eq_false_iff.mpr fun he => hw (halphabet ▸ mem_alphabet_of_acceptsFrom he)
    rw [hd, he]

/-- Two texts that are read, whatever the flags, have isomorphic minimal automata exactly if they describe the same words.
No automaton without missing transitions over the same alphabet that accepts these words has fewer states. -/
theorem isomorphic_minimize_iff {p q : String} (hp : Regex.read p = .ok r) (hq : Regex.read q = .ok s)
    (f g : BuildFlags) :
    ∃ d m e k, ofNfa (Nfa.ofRegex r f) = .ok d ∧ d.minimize = .ok m ∧ ofNfa (Nfa.ofRegex s g) = .ok e ∧
      e.minimize = .ok k ∧ (Regex.Equivalent r s ↔ Isomorphic m k) ∧
      ∀ c : Dfa, c.isComplete = true → c.alphabet = m.alphabet →
        (∀ text, c.accepts text = true ↔ r.Matches (symbols text)) → m.count ≤ c.count := by
  obtain ⟨d, m, hd, hm, hmc, hma, hmw⟩ := exists_minimize_ofRegex (Regex.isPlain_of_read hp) f
  obtain ⟨e, k, he, hk, hkc, hka, hkw⟩ := exists_minimize_ofRegex (Regex.isPlain_of_read hq) g
  refine ⟨d, m, e, k, hd, hm, he, hk, ⟨fun h => ?_, fun h w => ?_⟩, fun c hc halphabet hwords => ?_⟩
  · have halphabet : m.alphabet = k.alphabet := OrderedSet.ext fun a => by rw [hma, hka, h.mem_literals_iff]
    refine ⟨halphabet, hmc.exists_isomorphism hkc halphabet fun w => ?_⟩
    rw [Bool.eq_iff_iff, hmw, hkw, h w]
  · obtain ⟨-, ⟨i⟩⟩ := h
    rw [← hmw, ← hkw, acceptsWord, acceptsWord, ← i.start_eq, i.acceptsFrom_eq m.start_lt]
  · have hsingle : ∀ a ∈ m.alphabet, ∃ c, a = String.singleton c := by
      intro a ha
      obtain ⟨c, hc, -⟩ := Regex.isPlain_of_read hp a ((hma a).mp ha)
      exact ⟨c, hc⟩
    have htexts : ∀ text, m.accepts text = c.accepts text := by
      intro text
      rw [Bool.eq_iff_iff, hwords]
      exact hmw _
    exact hmc.count_le (total_of_isComplete hc) halphabet.symm
      (acceptsWord_eq_of_accepts_eq halphabet.symm hsingle htexts)

/-- Two alternatives the other way round, with the other way to join the parts of a concatenation. The automaton of the
subset construction is one of those that have no fewer states. -/
theorem isomorphic_minimize_iff_swapped :
    ∃ r s d m e k, Regex.read "(a|b)*" = .ok r ∧ Regex.read "(b|a)*" = .ok s ∧ ofNfa (Nfa.ofRegex r) = .ok d ∧
      d.minimize = .ok m ∧ ofNfa (Nfa.ofRegex s { silentConcat := true }) = .ok e ∧ e.minimize = .ok k ∧
      Isomorphic m k ∧ d.isComplete = true ∧ m.count ≤ d.count := by
  have hr : Regex.read "(a|b)*" = .ok (.star (.alternation (.literal "a") (.literal "b"))) := rfl
  have hs : Regex.read "(b|a)*" = .ok (.star (.alternation (.literal "b") (.literal "a"))) := rfl
  have hwords : Regex.Equivalent (.star (.alternation (.literal "a") (.literal "b")))
      (.star (.alternation (.literal "b") (.literal "a"))) := by
    refine Regex.Equivalent.star fun w => ?_
    rw [Regex.matches_alternation_iff, Regex.matches_alternation_iff, or_comm]
  obtain ⟨d, m, e, k, hd, hm, he, hk, hiff, hleast⟩ := isomorphic_minimize_iff hr hs {} { silentConcat := true }
  have hcomplete : d.isComplete = true := by
    obtain rfl := Except.ok.inj hd
    rfl
  have halphabet : d.alphabet = m.alphabet := by
    obtain rfl := Except.ok.inj hd
    obtain rfl := Except.ok.inj hm
    rfl
  obtain ⟨d', hd', hlanguage⟩ := exists_ofNfa_language
    (Nfa.start_build_lt (Regex.isPlain_of_read hr).ne_epsilon {}) (Nfa.targetsInRange_ofRegex _ {}) {}
  obtain rfl := Except.ok.inj (hd.symm.trans hd')
  refine ⟨_, _, d, m, e, k, hr, hs, hd, hm, he, hk, hiff.mp hwords, hcomplete, ?_⟩
  refine hleast d hcomplete halphabet fun text => (hlanguage _).trans ?_
  exact Nfa.spells_build_iff (Regex.isPlain_of_read hr).ne_epsilon {}

end Dfa

end FormalLang
