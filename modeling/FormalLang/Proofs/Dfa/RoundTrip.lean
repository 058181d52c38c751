import FormalLang.Proofs.Automaton.Loading
import FormalLang.Proofs.Automaton.Writing
import FormalLang.Proofs.Dfa.Minimal

/-!
# Deterministic automata and their texts

The text of an automaton shows its transitions and not its alphabet, so a symbol without transitions is lost. An automaton
without missing transitions has one on every symbol from its start, and nothing of it is lost. As for nondeterministic automata,
the numbers of states must have at most 4300 digits.

* `Dfa.exists_load_dump`: an automaton whose symbols are letters and digits is read back from its text.
* `Dfa.load_dump_tables`: what is read back, and that the automata of expressions are read back with their alphabets.
-/

namespace FormalLang

namespace Dfa

variable {d e m : Dfa} {p q : Nat} {a : Symbol}

/-- The automaton `e` has the states and the transitions of `d`, and those symbols that have transitions. -/
structure ReadBack (d e : Dfa) : Prop where
  count_eq : e.count = d.count
  start_eq : e.start = d.start
  accept_eq : e.accept = d.accept
  target_eq : ∀ p a, e.target? p a = d.target? p a
  mem_alphabet_iff : ∀ a, a ∈ e.alphabet ↔ ∃ p q, d.target? p a = some q

/-! ## Reading back -/

theorem read_dump (hcount : d.count < 10 ^ Text.maxDigits) (hsymbol : ∀ t ∈ d.transitions, Line.IsWritable t.2.1) :
    AutomatonText.read d.dump = .ok ⟨d.count, d.start, d.accept.toList, AutomatonText.numbered 3 d.transitions⟩ := by
  refine AutomatonText.read_automatonText hcount d.start_lt d.accept_lt fun t ht => ?_
  obtain ⟨hp, hq⟩ := ends_lt_count ht
  exact ⟨hp, hsymbol t ht, hq⟩

/-- The transitions that numbered lines give. -/
theorem exists_gives_numbered_iff {k : Nat} {ts : List (Nat × Symbol × Nat)} :
    (∃ x ∈ AutomatonText.numbered k ts, x.Gives p a q) ↔ (p, a, q) ∈ ts := by
  constructor
  · rintro ⟨x, hx, rfl, rfl, rfl⟩
    exact AutomatonText.mem_of_mem_numbered hx
  · intro ht
    rw [← AutomatonText.map_numbered k ts] at ht
    obtain ⟨x, hx, hxt⟩ := List.mem_map.mp ht
    obtain ⟨hp, hxt⟩ := Prod.mk.inj hxt
    obtain ⟨ha, hq⟩ := Prod.mk.inj hxt
    exact ⟨x, hx, hp, ha, hq⟩

/-- An automaton whose symbols are ASCII letters and digits is read back from its text. -/
theorem exists_load_dump (hcount : d.count < 10 ^ Text.maxDigits)
    (hsymbol : ∀ t ∈ d.transitions, ∃ c : Char, c.isAlphanum = true ∧ t.2.1 = String.singleton c) (flags : BuildFlags) :
    ∃ e, load d.dump flags = .ok e ∧ d.ReadBack e := by
  have hread := read_dump hcount fun t ht => .inr (hsymbol t ht)
  have hr := AutomatonText.inRange_of_read hread
  have hgives : ∀ p a q, (∃ x ∈ AutomatonText.numbered 3 d.transitions, x.Gives p a q) ↔ d.target? p a = some q :=
    fun p a q => exists_gives_numbered_iff.trans mem_transitions
  have hlines : ∀ x ∈ AutomatonText.numbered 3 d.transitions,
      x.symbol ≠ epsilon ∧ d.target? x.source x.symbol = some x.target := by
    intro x hx
    obtain ⟨c, hc, hxc⟩ : ∃ c : Char, c.isAlphanum = true ∧ x.symbol = String.singleton c :=
      hsymbol _ (AutomatonText.mem_of_mem_numbered hx)
    refine ⟨?_, (hgives _ _ _).mp ⟨x, hx, rfl, rfl, rfl⟩⟩
    rw [hxc]
    exact singleton_ne_epsilon_of_isAlphanum hc
  obtain ⟨rows, hrows, hhas⟩ := hr.exists_hasRows hlines
  obtain ⟨e, he, hdfa⟩ := hr.exists_dfa hhas flags
  refine ⟨e, ?_, hdfa.count_eq, hdfa.start_eq, OrderedSet.ext hdfa.accept_iff, fun p a => ?_, fun a => ?_⟩
  · refine bind_eq_ok_iff.mpr ⟨_, hread, bind_eq_ok_iff.mpr ⟨rows, hrows, ?_⟩⟩
    exact mapError_eq_ok_iff.mpr he
  · exact Option.ext fun q => (hdfa.target_iff p a q).trans (hgives p a q)
  · rw [hdfa.mem_alphabet_iff]
    constructor
    · rintro ⟨x, hx, rfl⟩
      exact ⟨_, _, (hgives _ _ _).mp ⟨x, hx, rfl, rfl, rfl⟩⟩
    · rintro ⟨p, q, hq⟩
      obtain ⟨x, hx, -, ha, -⟩ := (hgives p a q).mpr hq
      exact ⟨x, hx, ha⟩

/-- Nothing of an automaton without missing transitions is lost: every symbol has a transition from the start. -/
theorem ReadBack.sameTables (h : d.ReadBack e) (htotal : d.Total) : e.SameTables d where
  count_eq := h.count_eq
  start_eq := h.start_eq
  accept_eq := h.accept_eq
  alphabet_eq := OrderedSet.ext fun a => by
    rw [h.mem_alphabet_iff]
    constructor
    · rintro ⟨p, q, hq⟩
      exact mem_alphabet_of_target? hq
    · intro ha
      obtain ⟨q, hq⟩ := htotal d.start d.start_lt a ha
      exact ⟨d.start, q, hq⟩
  target_eq := h.target_eq

/-! ## Automata of expressions -/

/-- The automaton of an expression that is read, and the minimal one, have letters and digits for symbols and leave no
transition out. The minimal one has no more states. -/
theorem exists_total_ofRegex {pattern : String} {r : Regex} (hr : Regex.read pattern = .ok r) (flags : BuildFlags) :
    ∃ d m, ofNfa (Nfa.ofRegex r flags) = .ok d ∧ d.minimize = .ok m ∧ d.Total ∧ m.Total ∧ m.count ≤ d.count ∧
      (∀ a ∈ d.alphabet, ∃ c : Char, c.isAlphanum = true ∧ a = String.singleton c) ∧ m.alphabet = d.alphabet := by
  have hplain := Regex.isPlain_of_read hr
  have hstart : (Nfa.ofRegex r flags).start < (Nfa.ofRegex r flags).count := Nfa.start_build_lt hplain.ne_epsilon { flags }
  obtain ⟨d, hd, halphabet, htotal, hreached⟩ :=
    exists_ofNfa_reached hstart (Nfa.targetsInRange_ofRegex r flags) (Nfa.ofRegex r flags).flags
  obtain ⟨m, hm, hma, hcanonical, hwords⟩ := exists_minimize_canonical htotal hreached d.flags
  refine ⟨d, m, hd, hm, htotal, hcanonical.total, hcanonical.count_le htotal hma hwords, fun a ha => ?_, hma⟩
  rw [halphabet, Nfa.mem_alphabet_ofRegex_iff hplain] at ha
  exact Regex.isAlphanumeric_of_shape (Regex.read_iff_shape.mp hr) a ha

/-- An automaton without missing transitions whose alphabet is letters and digits is read back with all its tables. -/
theorem exists_load_dump_of_total (hcount : d.count < 10 ^ Text.maxDigits) (htotal : d.Total)
    (halphabet : ∀ a ∈ d.alphabet, ∃ c : Char, c.isAlphanum = true ∧ a = String.singleton c) (flags : BuildFlags) :
    ∃ e, load d.dump flags = .ok e ∧ e.SameTables d := by
  obtain ⟨e, he, hback⟩ := exists_load_dump hcount
    (fun t ht => halphabet _ (mem_alphabet_of_target? (mem_transitions.mp ht : d.target? t.1 t.2.1 = some t.2.2))) flags
  exact ⟨e, he, hback.sameTables htotal⟩

/-- An automaton whose symbols are ASCII letters and digits is read back from its text with the symbols that have transitions. The
automaton of an expression, and the minimal one, are read back with their alphabets. -/
theorem load_dump_tables :
    (∀ (d : Dfa) (flags : BuildFlags), d.count < 10 ^ Text.maxDigits →
      (∀ t ∈ d.transitions, ∃ c : Char, c.isAlphanum = true ∧ t.2.1 = String.singleton c) →
        ∃ e, load d.dump flags = .ok e ∧ e.count = d.count ∧ e.start = d.start ∧ e.accept = d.accept ∧
          (∀ p a, e.target? p a = d.target? p a) ∧ ∀ a, a ∈ e.alphabet ↔ ∃ p q, d.target? p a = some q) ∧
    ∀ (pattern : String) (r : Regex) (f flags : BuildFlags), Regex.read pattern = .ok r →
      ∃ d m, ofNfa (Nfa.ofRegex r f) = .ok d ∧ d.minimize = .ok m ∧ (d.count < 10 ^ Text.maxDigits →
        ∃ d' m', load d.dump flags = .ok d' ∧ d'.SameTables d ∧ load m.dump flags = .ok m' ∧ m'.SameTables m) := by
  refine ⟨fun d flags hcount hsymbol => ?_, fun pattern r f flags hr => ?_⟩
  · obtain ⟨e, he, hback⟩ := exists_load_dump hcount hsymbol flags
    exact ⟨e, he, hback.count_eq, hback.start_eq, hback.accept_eq, hback.target_eq, hback.mem_alphabet_iff⟩
  · obtain ⟨d, m, hd, hm, hdt, hmt, hle, hda, hma⟩ := exists_total_ofRegex hr f
    refine ⟨d, m, hd, hm, fun hcount => ?_⟩
    obtain ⟨d', hd', hsame⟩ := exists_load_dump_of_total hcount hdt hda flags
    obtain ⟨m', hm', hsame'⟩ := exists_load_dump_of_total (Nat.lt_of_le_of_lt hle hcount) hmt (hma ▸ hda) flags
    exact ⟨d', m', hd', hsame, hm', hsame'⟩

/-- An automaton with missing transitions and a symbol that has none, which is lost, and the automata of an expression. -/
theorem load_dump_tables_partial :
    ∃ d e, ofTables ⟨2, 0, [1], [.ofList [("b", 1), ("a", 0)], ∅], some ["a", "b", "c"]⟩ = .ok d ∧
      d.count < 10 ^ Text.maxDigits ∧ load d.dump = .ok e ∧ e.target? 0 "b" = some 1 ∧ "c" ∈ d.alphabet ∧ "c" ∉ e.alphabet ∧
      ∃ r k m k' m', Regex.read "a*b" = .ok r ∧ ofNfa (Nfa.ofRegex r) = .ok k ∧ k.minimize = .ok m ∧
        k.count < 10 ^ Text.maxDigits ∧ load k.dump = .ok k' ∧ k'.SameTables k ∧ load m.dump = .ok m' ∧ m'.SameTables m := by
  have hbound : ∀ i < Text.maxDigits, i < 10 ^ Text.maxDigits := fun i hi => Nat.lt_trans hi (Nat.lt_pow_self (by decide))
  obtain ⟨d, hd⟩ : ∃ d, ofTables ⟨2, 0, [1], [.ofList [("b", 1), ("a", 0)], ∅], some ["a", "b", "c"]⟩ = .ok d := ⟨_, rfl⟩
  obtain ⟨hdc, hdt, hdq, hda, hda'⟩ : d.count < Text.maxDigits ∧ d.transitions = [(0, "a", 0), (0, "b", 1)] ∧
      d.target? 0 "b" = some 1 ∧ "c" ∈ d.alphabet ∧ ∀ t ∈ d.transitions, t.2.1 ≠ "c" := by
    obtain rfl := Except.ok.inj hd
    decide
  have hsymbol : ∀ t ∈ d.transitions, ∃ c : Char, c.isAlphanum = true ∧ t.2.1 = String.singleton c := by
    rw [hdt]
    simp only [List.forall_mem_cons]
    exact ⟨⟨'a', rfl, rfl⟩, ⟨'b', rfl, rfl⟩, fun t ht => absurd ht List.not_mem_nil⟩
  obtain ⟨e, he, -, -, -, htarget, hmem⟩ := load_dump_tables.1 d {} (hbound _ hdc) hsymbol
  have hlost : "c" ∉ e.alphabet := by
    rw [hmem]
    rintro ⟨p, q, hq⟩
    exact hda' _ (mem_transitions.mpr hq) rfl
  have hr : Regex.read "a*b" = .ok (.concat (.star (.literal "a")) (.literal "b")) := rfl
  obtain ⟨k, m, hk, hm, hback⟩ := load_dump_tables.2 "a*b" _ {} {} hr
  have hkc : k.count < Text.maxDigits := by
    obtain rfl := Except.ok.inj hk
    decide
  obtain ⟨k', m', hk', hsame, hm', hsame'⟩ := hback (hbound _ hkc)
  exact ⟨d, e, hd, hbound _ hdc, he, (htarget 0 "b").trans hdq, hda, hlost,
    _, k, m, k', m', hr, hk, hm, hbound _ hkc, hk', hsame, hm', hsame'⟩

end Dfa

end FormalLang
