import FormalLang.Proofs.Dfa.Minimal
import FormalLang.Proofs.Nfa.Constructible

/-!
# Characters outside the alphabet

A character outside the alphabet labels no transition, so no run reads it and the word is rejected. The character ε is an
exception: it shares its text with the label of silent steps, and a nondeterministic automaton reads it along such a step.
A deterministic automaton has no silent steps and rejects it.

* `Nfa.Trail.mem_alphabet`: a trail reads ε and symbols of the alphabet, nothing else.
* `Nfa.accepts_foreign`: what is accepted of a text, and when the subset construction agrees.
-/

namespace FormalLang

namespace Nfa

variable {n : Nfa} {p q : Nat} {a : Symbol} {w : List Symbol}

/-! ## The symbols of a trail -/

/-- The symbols of a trail are ε and symbols of the alphabet. -/
theorem Trail.mem_alphabet (h : n.Trail p w q) : ∀ a ∈ w, a ≠ epsilon → a ∈ n.alphabet := by
  induction h with
  | here => exact fun a ha => absurd ha List.not_mem_nil
  | silent _ _ ih => exact ih
  | symbol hq _ ih => exact List.forall_mem_cons.mpr ⟨fun ha => mem_alphabet_of_mem_targets ha hq, ih⟩

/-! ## Foreign characters -/

theorem epsilon_notMem_alphabet (n : Nfa) : epsilon ∉ n.alphabet := fun h => ne_epsilon_of_mem_alphabet h rfl

end Nfa

namespace Dfa

/-- A deterministic automaton rejects a text with a character outside its alphabet. -/
theorem accepts_eq_false {d : Dfa} {text : String} {c : Char} (hc : c ∈ text.toList) (ha : String.singleton c ∉ d.alphabet) :
    d.accepts text = false := by
  refine Bool.eq_false_iff.mpr fun h => ha ?_
  exact mem_alphabet_of_acceptsFrom h _ (List.mem_map.mpr ⟨c, hc, rfl⟩)

end Dfa

namespace Nfa

variable {n : Nfa}

/-- A character outside the alphabet makes an automaton reject, unless it is ε. The automaton of the subset construction rejects ε too,
and so the two agree on all texts but those with ε that the nondeterministic one reads along silent steps. -/
theorem accepts_foreign (h : n.Constructible) (hstart : n.start < n.count) (flags : BuildFlags) :
    epsilon ∉ n.alphabet ∧ ∃ d, Dfa.ofNfa n flags = .ok d ∧ ∀ text,
      ((∃ c ∈ text.toList, String.singleton c ∉ n.alphabet) → d.accepts text = false) ∧
      ∃ b, n.accepts text = .ok b ∧
        (b = true ↔ ∃ q ∈ n.accept, n.Trail n.start (symbols text) q) ∧
        ((∃ c ∈ text.toList, c ≠ 'ε' ∧ String.singleton c ∉ n.alphabet) → b = false) ∧
        (b = d.accepts text ↔ ('ε' ∈ text.toList → b = false)) := by
  have ht : n.TargetsInRange := h.consistent.target_lt
  obtain ⟨d, hd, halphabet, -⟩ := Dfa.exists_ofNfa_reached hstart ht flags
  obtain ⟨d', hd', hagree⟩ := Dfa.accepts_ofNfa_iff hstart ht flags
  obtain rfl : d' = d := Except.ok.inj (hd'.symm.trans hd)
  refine ⟨n.epsilon_notMem_alphabet, d', hd', fun text => ⟨?_, ?_⟩⟩
  · rintro ⟨c, hc, ha⟩
    exact Dfa.accepts_eq_false hc (halphabet ▸ ha)
  · obtain ⟨b, hb, htrail⟩ := acceptsWord_iff_trail hstart (symbols text)
    refine ⟨b, hb, htrail, ?_, ?_⟩
    · rintro ⟨c, hc, hne, ha⟩
      refine Bool.eq_false_iff.mpr fun hbt => ha ?_
      obtain ⟨q, -, hq⟩ := htrail.mp hbt
      exact hq.mem_alphabet _ (List.mem_map.mpr ⟨c, hc, rfl⟩) (singleton_ne_epsilon hne)
    · constructor
      · rintro rfl hε
        exact Dfa.accepts_eq_false hε (halphabet ▸ n.epsilon_notMem_alphabet)
      · intro hε
        by_cases hmem : 'ε' ∈ text.toList
        · rw [hε hmem, Dfa.accepts_eq_false hmem (halphabet ▸ n.epsilon_notMem_alphabet)]
        · exact Except.ok.inj (hb.symm.trans ((hagree text).2 hmem))

/-- A star over one letter, which has silent steps. -/
theorem accepts_foreign_star : ∃ n d, n = ofRegex (.star (.literal "a")) ∧ n.Constructible ∧ n.start < n.count ∧
    Dfa.ofNfa n {} = .ok d ∧ n.accepts "ab" = .ok false ∧ d.accepts "ab" = false ∧ d.accepts "aε" = false := by
  have hn := constructible_ofRegex (.star (.literal "a")) {}
  have hstart : (ofRegex (.star (.literal "a"))).start < (ofRegex (.star (.literal "a"))).count := by decide
  have hb : String.singleton 'b' ∉ (ofRegex (.star (.literal "a"))).alphabet := by decide
  obtain ⟨hε, d, hd, hall⟩ := accepts_foreign hn hstart {}
  obtain ⟨hdb, b, hacc, -, hreject, -⟩ := hall "ab"
  obtain rfl := hreject ⟨'b', by decide, by decide, hb⟩
  exact ⟨_, d, rfl, hn, hstart, hd, hacc, hdb ⟨'b', by decide, hb⟩, (hall "aε").1 ⟨'ε', by decide, hε⟩⟩

/-- The star over one letter reads the character ε along the silent step past the letter, although ε is not in its alphabet,
and its deterministic automaton does not. -/
theorem accepts_epsilon_star : ∃ n d, n = ofRegex (.star (.literal "a")) ∧ n.Constructible ∧ n.start < n.count ∧
    Dfa.ofNfa n = .ok d ∧ String.singleton 'ε' ∉ n.alphabet ∧ n.accepts "ε" = .ok true ∧ d.accepts "ε" = false := by
  have hn := constructible_ofRegex (.star (.literal "a")) {}
  have hstart : (ofRegex (.star (.literal "a"))).start < (ofRegex (.star (.literal "a"))).count := by decide
  have hε := (ofRegex (.star (.literal "a"))).epsilon_notMem_alphabet
  obtain ⟨d, hd, halphabet, -⟩ := Dfa.exists_ofNfa_reached hstart hn.consistent.target_lt {}
  obtain ⟨b, hb, htrail⟩ := acceptsWord_iff_trail hstart (symbols "ε")
  have htrue : b = true := by
    refine htrail.mpr ⟨1, by decide, .symbol (q := 1) ?_ (.here 1)⟩
    decide
  refine ⟨_, d, rfl, hn, hstart, hd, hε, htrue ▸ hb, ?_⟩
  exact Dfa.accepts_eq_false (c := 'ε') (by decide) (halphabet ▸ hε)

end Nfa

end FormalLang
