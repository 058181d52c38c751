import FormalLang.Grammar.RightLinear
import FormalLang.Proofs.Dfa.Marking
import FormalLang.Proofs.Grammar.Words

/-!
# What right-linear grammars derive

A derivation from a state writes the symbols of a run and then, in an accepting state, ε.

* `Grammar.mem_productions_ofDfa`: the productions are the transitions and the ends of runs.
* `Grammar.yields_ofDfa_iff`: a state yields the words accepted from it, each with an ε behind it.
* `Grammar.generates_ofDfa_iff`: without ε, the nonterminals derive what is accepted from the states.
-/

namespace FormalLang

namespace Dfa

/-- The symbols of a word that is accepted stand on transitions. -/
theorem exists_target_of_acceptsFrom {d : Dfa} {q : Nat} {w : List Symbol} (h : d.acceptsFrom q w = true) :
    ∀ a ∈ w, ∃ p r, d.target? p a = some r := by
  induction w generalizing q with
  | nil => nofun
  | cons a w ih =>
    rw [acceptsFrom_cons, Option.any_eq_true] at h
    obtain ⟨r, hr, h⟩ := h
    exact List.forall_mem_cons.mpr ⟨⟨q, r, hr⟩, ih h⟩

end Dfa

namespace Grammar

variable {d : Dfa} {q : Nat} {w : List Symbol}

/-- The productions are the transitions, and for each accepting state an end. -/
theorem mem_productions_ofDfa {p : Production} : p ∈ (ofDfa d).productions ↔
    (∃ (q : Nat) (a : Symbol) (r : Nat), d.target? q a = some r ∧ p = ⟨q, [.terminal a, .nonterminal r]⟩) ∨
      ∃ q ∈ d.accept, p = ⟨q, [.terminal epsilon]⟩ := by
  simp only [ofDfa, Dfa.stateProductions, List.mem_flatMap, List.mem_append, List.mem_range, List.mem_map,
    Prod.exists, Dfa.mem_moves]
  constructor
  · rintro ⟨q, -, ⟨a, r, ht, rfl⟩ | hend⟩
    · exact .inl ⟨q, a, r, ht, rfl⟩
    · split at hend
      · next hq => exact .inr ⟨q, hq, List.mem_singleton.mp hend⟩
      · cases hend
  · rintro (⟨q, a, r, ht, rfl⟩ | ⟨q, hq, rfl⟩)
    · refine ⟨q, Nat.lt_of_not_le fun h => ?_, .inl ⟨a, r, ht, rfl⟩⟩
      rw [Dfa.target?_of_count_le h] at ht
      cases ht
    · refine ⟨q, d.accept_lt q hq, .inr ?_⟩
      rw [if_pos hq]
      exact .head _

/-- A state yields the symbol of a transition and then what its target yields, or if it accepts, ε. -/
theorem yields_state_iff : (ofDfa d).Yields [.nonterminal q] w ↔
    (∃ a r w', d.target? q a = some r ∧ w = a :: w' ∧ (ofDfa d).Yields [.nonterminal r] w') ∨
      q ∈ d.accept ∧ w = [epsilon] := by
  rw [yields_nonterminal_iff]
  constructor
  · rintro ⟨p, hp, hhead, hbody⟩
    rcases mem_productions_ofDfa.mp hp with ⟨q', a, r, ht, rfl⟩ | ⟨q', hq, rfl⟩
    · obtain rfl := Int.natCast_inj.mp hhead
      obtain ⟨w', rfl, hr⟩ := yields_terminal_cons_iff.mp hbody
      exact .inl ⟨a, r, w', ht, rfl, hr⟩
    · obtain rfl := Int.natCast_inj.mp hhead
      obtain ⟨w', rfl, hnil⟩ := yields_terminal_cons_iff.mp hbody
      obtain rfl := yields_nil_iff.mp hnil
      exact .inr ⟨hq, rfl⟩
  · rintro (⟨a, r, w', ht, rfl, hr⟩ | ⟨hq, rfl⟩)
    · exact ⟨_, mem_productions_ofDfa.mpr (.inl ⟨q, a, r, ht, rfl⟩), rfl, .terminal hr⟩
    · exact ⟨_, mem_productions_ofDfa.mpr (.inr ⟨q, hq, rfl⟩), rfl, .terminal .nil⟩

/-- A state yields the words that are accepted from it, each with an ε behind it. The word decides how the derivation
goes on, as it does for the run: both directions are by induction on it. -/
theorem yields_ofDfa_iff :
    (ofDfa d).Yields [.nonterminal q] w ↔ ∃ v, w = v ++ [epsilon] ∧ d.acceptsFrom q v = true := by
  constructor
  · intro h
    induction w generalizing q with
    | nil => rcases yields_state_iff.mp h with ⟨_, _, _, _, hw, _⟩ | ⟨_, hw⟩ <;> cases hw
    | cons a w ih =>
      rcases yields_state_iff.mp h with ⟨b, r, w', ht, hw, hr⟩ | ⟨hq, hw⟩
      · obtain ⟨rfl, rfl⟩ := List.cons.inj hw
        obtain ⟨v, rfl, hv⟩ := ih hr
        refine ⟨a :: v, rfl, ?_⟩
        rw [Dfa.acceptsFrom_cons, ht]
        exact hv
      · refine ⟨[], hw, ?_⟩
        rw [Dfa.acceptsFrom_nil]
        exact decide_eq_true hq
  · rintro ⟨v, rfl, hv⟩
    induction v generalizing q with
    | nil =>
      rw [Dfa.acceptsFrom_nil] at hv
      exact yields_state_iff.mpr (.inr ⟨of_decide_eq_true hv, rfl⟩)
    | cons a v ih =>
      rw [Dfa.acceptsFrom_cons, Option.any_eq_true] at hv
      obtain ⟨r, ht, hv⟩ := hv
      exact yields_state_iff.mpr (.inl ⟨a, r, _, ht, rfl, ih hv⟩)

/-- Without ε, the nonterminals derive what is accepted from the states, if ε stands on no transition. -/
theorem generates_ofDfa_iff (hd : ∀ p a r, d.target? p a = some r → a ≠ epsilon) :
    (ofDfa d).Generates [.nonterminal q] w ↔ d.acceptsFrom q w = true := by
  have hvisible : ∀ v, d.acceptsFrom q v = true → (v ++ [epsilon]).filter (· ≠ epsilon) = v := by
    intro v hv
    have hfilter : v.filter (· ≠ epsilon) = v := List.filter_eq_self.mpr fun a ha => by
      obtain ⟨p, r, ht⟩ := Dfa.exists_target_of_acceptsFrom hv a ha
      simpa using hd p a r ht
    rw [List.filter_append, hfilter]
    simp
  simp only [generates_iff, derives_iff_yields, yields_ofDfa_iff]
  constructor
  · rintro ⟨_, ⟨v, rfl, hv⟩, rfl⟩
    rwa [hvisible v hv]
  · exact fun hw => ⟨_, ⟨w, rfl, hw⟩, hvisible w hw⟩

/-- The grammar of an automaton whose transitions have single characters other than ε on them derives from each state,
with ε erased, the words that the automaton accepts from it. From its start it derives the texts that the automaton
accepts and nothing else. -/
theorem generates_ofDfa_exact
    (hd : ∀ p a r, d.target? p a = some r → a ≠ epsilon ∧ ∃ c : Char, a = String.singleton c) :
    (∀ (q : Nat) w, (ofDfa d).Generates [.nonterminal q] w ↔ d.acceptsFrom q w = true) ∧
      (∀ text, (ofDfa d).Generates [.nonterminal (ofDfa d).start] (symbols text) ↔ d.accepts text = true) ∧
      ∀ w, (ofDfa d).Generates [.nonterminal (ofDfa d).start] w → ∃ text, symbols text = w := by
  have hstates (q : Nat) (w : List Symbol) := generates_ofDfa_iff (q := q) (w := w) fun p a r h => (hd p a r h).1
  refine ⟨hstates, fun text => hstates d.start _, fun w hw => exists_symbols_eq fun a ha => ?_⟩
  obtain ⟨p, r, ht⟩ := Dfa.exists_target_of_acceptsFrom ((hstates d.start w).mp hw) a ha
  exact (hd p a r ht).2

/-- An automaton that accepts where it starts, after two symbols again, and from one of its states, which has no
production, nothing at all. -/
theorem generates_ofDfa_exact_partial :
    ∃ d, Dfa.ofTables ⟨3, 0, [0], [.ofList [("a", 1), ("b", 2)], .ofList [("a", 0)], ∅], none⟩ = .ok d ∧
      (∀ p a r, d.target? p a = some r → a ≠ epsilon ∧ ∃ c : Char, a = String.singleton c) ∧
      (ofDfa d).Generates [.nonterminal (ofDfa d).start] (symbols "aa") ∧
      ¬ (ofDfa d).Generates [.nonterminal (ofDfa d).start] (symbols "ba") ∧
      (ofDfa d).Generates [.nonterminal 1] ["a"] ∧ ¬ (ofDfa d).Generates [.nonterminal 2] [] := by
  obtain ⟨d, hd⟩ : ∃ d,
    Dfa.ofTables ⟨3, 0, [0], [.ofList [("a", 1), ("b", 2)], .ofList [("a", 0)], ∅], none⟩ = .ok d := ⟨_, rfl⟩
  have hsymbols : ∀ p a r, d.target? p a = some r → a ≠ epsilon ∧ ∃ c : Char, a = String.singleton c := by
    have hlabels : ∀ t ∈ d.transitions, t.2.1 = "a" ∨ t.2.1 = "b" := by
      obtain rfl := Except.ok.inj hd
      decide
    intro p a r ht
    rcases hlabels _ (Dfa.mem_transitions.mpr ht) with rfl | rfl
    · exact ⟨by decide, 'a', rfl⟩
    · exact ⟨by decide, 'b', rfl⟩
  obtain ⟨hstates, htexts, -⟩ := generates_ofDfa_exact hsymbols
  refine ⟨d, hd, hsymbols, (htexts "aa").mpr ?_, fun h => absurd ((htexts "ba").mp h) ?_, (hstates 1 _).mpr ?_,
    fun h => absurd ((hstates 2 _).mp h) ?_⟩
  all_goals
    obtain rfl := Except.ok.inj hd
    decide

end Grammar

end FormalLang
