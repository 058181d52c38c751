import FormalLang.Proofs.Automaton.Writing
import FormalLang.Proofs.Nfa.Rebuilding

/-!
# Nondeterministic automata and their texts

The text of an automaton lists its transitions in the order of its rows, so reading it back gives the same rows. A number of
a text has at most 4300 digits, so the states of an automaton must have no longer numbers. That excludes no automaton whose
rows fit a memory.

* `Nfa.load_dump`: an automaton whose symbols are letters and digits is read back from its text; one with another symbol is
  refused.
-/

namespace FormalLang

namespace Nfa

variable {n : Nfa}

theorem read_dump (h : n.WellFormed) (hstart : n.start < n.count) (hcount : n.count < 10 ^ Text.maxDigits)
    (hsymbol : ∀ t ∈ n.transitions, Line.IsWritable t.2.1) : AutomatonText.read n.dump =
      .ok ⟨n.count, n.start, n.accept.toList, AutomatonText.numbered 3 n.transitions⟩ := by
  refine AutomatonText.read_automatonText hcount hstart h.accept_lt fun t ht => ?_
  obtain ⟨hp, hq⟩ := h.ends_lt t ht
  exact ⟨hp, hsymbol t ht, hq⟩

theorem load_dump_of_isWritable (h : n.WellFormed) (hstart : n.start < n.count) (hcount : n.count < 10 ^ Text.maxDigits)
    (hsymbol : ∀ t ∈ n.transitions, Line.IsWritable t.2.1) (flags : BuildFlags) :
    load n.dump flags = .ok { n with flags } := by
  have htransitions : (AutomatonText.numbered 3 n.transitions).map (fun e => ((e.source : Int), e.symbol, (e.target : Int))) =
      n.transitions.map intTransition := by
    conv_rhs => rw [← AutomatonText.map_numbered 3 n.transitions, List.map_map]
    rfl
  refine bind_eq_ok_iff.mpr ⟨_, read_dump h hstart hcount hsymbol, mapError_eq_ok_iff.mpr ?_⟩
  dsimp only
  rw [htransitions]
  exact ofTables_parts h hstart flags

/-- A well-formed automaton, as every constructible one is, is read back from its text with all its rows if its symbols other
than ε are ASCII letters and digits, and so with the same alphabet and the same text. One with any other character for a symbol
gives a text that is not in the format. -/
theorem load_dump (h : n.WellFormed) (hstart : n.start < n.count) (hcount : n.count < 10 ^ Text.maxDigits)
    (hsymbol : ∀ t ∈ n.transitions, t.2.1 = epsilon ∨ ∃ c, t.2.1 = String.singleton c) (flags : BuildFlags) :
    ((∀ t ∈ n.transitions, t.2.1 ≠ epsilon → ∃ c : Char, c.isAlphanum = true ∧ t.2.1 = String.singleton c) →
      ∃ m, load n.dump flags = .ok m ∧ m = { n with flags } ∧ m.alphabet = n.alphabet ∧ m.dump = n.dump) ∧
    ((∃ t ∈ n.transitions, t.2.1 ≠ epsilon ∧ ∀ c : Char, c.isAlphanum = true → t.2.1 ≠ String.singleton c) →
      ∃ fault line, load n.dump flags = .error (.format fault line)) := by
  constructor
  · intro halphanum
    refine ⟨_, load_dump_of_isWritable h hstart hcount (fun t ht => ?_) flags, rfl, rfl, rfl⟩
    rw [Line.IsWritable, or_iff_not_imp_left]
    exact halphanum t ht
  · rintro ⟨t, ht, hne, hc⟩
    have hbad : ∃ t ∈ n.transitions, ¬ Line.IsWritable t.2.1 := by
      refine ⟨t, ht, ?_⟩
      rintro (hε | ⟨c, hc', h⟩)
      · exact hne hε
      · exact hc c hc' h
    have hends : ∀ t ∈ n.transitions, t.1 < 10 ^ Text.maxDigits ∧ t.2.2 < 10 ^ Text.maxDigits := fun t ht => by
      obtain ⟨hp, hq⟩ := h.ends_lt t ht
      exact ⟨hp.trans hcount, hq.trans hcount⟩
    obtain ⟨l, k, hread⟩ : ∃ l k, AutomatonText.read n.dump = .error (.format (.malformedLine l) (some k)) :=
      AutomatonText.read_automatonText_eq_error hends hsymbol hbad
    refine ⟨.malformedLine l, some k, ?_⟩
    rw [load, hread]
    rfl

/-- Rows that list `b` before `a`, and a symbol that ends a line. -/
theorem load_dump_unordered : ∃ n m, ofTables 3 0 [2] [(0, "b", 2), (0, epsilon, 1), (0, "a", 1), (0, "b", 1)] = .ok n ∧
    n.WellFormed ∧ n.start < n.count ∧ n.count < 10 ^ Text.maxDigits ∧ load n.dump = .ok n ∧
    ofTables 2 1 [0] [(0, "a", 1), (1, "\u2028", 0)] = .ok m ∧
    m.WellFormed ∧ m.start < m.count ∧ m.count < 10 ^ Text.maxDigits ∧
    ∃ fault line, load m.dump = .error (.format fault line) := by
  obtain ⟨n, hn⟩ : ∃ n, ofTables 3 0 [2] [(0, "b", 2), (0, epsilon, 1), (0, "a", 1), (0, "b", 1)] = .ok n := ⟨_, rfl⟩
  obtain ⟨m, hm⟩ : ∃ m, ofTables 2 1 [0] [(0, "a", 1), (1, "\u2028", 0)] = .ok m := ⟨_, rfl⟩
  have hbound : ∀ k < Text.maxDigits, k < 10 ^ Text.maxDigits := fun k hk => Nat.lt_trans hk (Nat.lt_pow_self (by decide))
  have hnw : n.WellFormed := (Consistent.ofTables hn).toWellFormed
  have hmw : m.WellFormed := (Consistent.ofTables hm).toWellFormed
  obtain ⟨hns, hnc, hnt, hnf⟩ : n.start < n.count ∧ n.count < Text.maxDigits ∧
      n.transitions = [(0, "b", 1), (0, "b", 2), (0, epsilon, 1), (0, "a", 1)] ∧ n.flags = {} := by
    obtain rfl := Except.ok.inj hn
    decide
  obtain ⟨hms, hmc, hmt⟩ : m.start < m.count ∧ m.count < Text.maxDigits ∧
      m.transitions = [(0, "a", 1), (1, "\u2028", 0)] := by
    obtain rfl := Except.ok.inj hm
    decide
  have hnsymbol : ∀ t ∈ n.transitions, t.2.1 = epsilon ∨ ∃ c : Char, c.isAlphanum = true ∧ t.2.1 = String.singleton c := by
    rw [hnt]
    simp only [List.forall_mem_cons]
    exact ⟨.inr ⟨'b', rfl, rfl⟩, .inr ⟨'b', rfl, rfl⟩, .inl trivial, .inr ⟨'a', rfl, rfl⟩, fun t ht => absurd ht List.not_mem_nil⟩
  have hmsymbol : ∀ t ∈ m.transitions, t.2.1 = epsilon ∨ ∃ c, t.2.1 = String.singleton c := by
    rw [hmt]
    simp only [List.forall_mem_cons]
    exact ⟨.inr ⟨'a', rfl⟩, .inr ⟨'\u2028', rfl⟩, fun t ht => absurd ht List.not_mem_nil⟩
  have hload : load n.dump = .ok n := by
    have hsingle : ∀ t ∈ n.transitions, t.2.1 = epsilon ∨ ∃ c, t.2.1 = String.singleton c := fun t ht =>
      (hnsymbol t ht).imp_right fun ⟨c, _, hc⟩ => ⟨c, hc⟩
    obtain ⟨k, hk, rfl, -⟩ := (load_dump hnw hns (hbound _ hnc) hsingle {}).1 fun t ht => (hnsymbol t ht).resolve_left
    rw [hk, ← hnf]
  have hrefused : ∃ fault line, load m.dump = .error (.format fault line) := by
    refine (load_dump hmw hms (hbound _ hmc) hmsymbol {}).2 ⟨(1, "\u2028", 0), ?_, by decide, fun c hc h => ?_⟩
    · rw [hmt]
      exact .tail _ (.head _)
    · obtain rfl : c = '\u2028' := by simpa using congrArg String.toList h.symm
      exact absurd hc (by decide)
  exact ⟨n, m, hn, hnw, hns, hbound _ hnc, hload, hm, hmw, hms, hbound _ hmc, hrefused⟩

end Nfa

end FormalLang
