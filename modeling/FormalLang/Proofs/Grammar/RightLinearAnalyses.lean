import FormalLang.Proofs.Grammar.Follow
import FormalLang.Proofs.Grammar.RightLinear
import FormalLang.Proofs.Grammar.Useful

/-!
# Analyses of right-linear grammars

A state derives the symbols of a run with the state that the run leads to behind them, or with ε if that state accepts, and
nothing else. In particular nothing ever stands behind a nonterminal. The analyses are exact in what they say of derivations,
and so each of them comes down to which states lead to which.

* `Grammar.derives_ofDfa_iff`: what a state derives.
* `Grammar.begins_ofDfa_iff`, `Grammar.follows_ofDfa_iff`: what comes first, and what comes behind a state.
* `Grammar.mem_generators_ofDfa`, `Grammar.mem_reachable_ofDfa`: the states that accept something, and those that are reached.
* `Grammar.useful_ofDfa_iff`: a production is useful if its head is reached and its body can become a word.
* `Grammar.analyses_ofDfa`: the analyses agree with the automaton.
-/

namespace FormalLang

namespace Dfa

/-- The state leads to one that accepts. -/
def CanAccept (d : Dfa) (q : Nat) : Prop := ∃ r ∈ d.accept, d.Leads q r

theorem canAccept_iff {d : Dfa} {q : Nat} : d.CanAccept q ↔ ∃ w, d.acceptsFrom q w = true := by
  simp only [acceptsFrom, Option.any_eq_true, decide_eq_true_eq]
  constructor
  · rintro ⟨r, hr, w, hw⟩
    exact ⟨w, r, hw, hr⟩
  · rintro ⟨w, r, hw, hr⟩
    exact ⟨r, hr, w, hw⟩

end Dfa

namespace Grammar

variable {d : Dfa} {q : Nat} {n : Int} {a : Symbol} {l : Letter} {v x y : List Letter} {w : List Symbol} {p : Production}

/-! ## What a state derives -/

/-- Of terminals and one more letter, only the last can be a nonterminal. -/
theorem append_nonterminal_eq_iff :
    x ++ .nonterminal n :: y = w.map .terminal ++ [l] ↔ x = w.map .terminal ∧ l = .nonterminal n ∧ y = [] := by
  constructor
  · intro h
    rcases append_eq_append_cons h.symm with ⟨m, hw, -⟩ | ⟨m, rfl, hm⟩
    · refine absurd ?_ (Letter.nonterminal_not_mem_map_terminal n w)
      rw [hw]
      simp
    · obtain ⟨rfl, hl, rfl⟩ : m = [] ∧ l = .nonterminal n ∧ y = [] := by
        cases m <;> simp_all
      exact ⟨List.append_nil _, hl, rfl⟩
  · rintro ⟨rfl, rfl, rfl⟩
    rfl

/-- The symbols of a run are derived, with the state that the run leads to behind them. -/
theorem derives_of_run? {r : Nat} (h : d.run? q w = some r) :
    (ofDfa d).Derives [.nonterminal q] (w.map .terminal ++ [.nonterminal r]) := by
  induction w generalizing q with
  | nil =>
    obtain rfl := Option.some.inj h
    exact .refl _
  | cons a w ih =>
    rw [Dfa.run?_cons, Option.bind_eq_some_iff] at h
    obtain ⟨p, ht, h⟩ := h
    have hstep : (ofDfa d).Derives [.nonterminal q] [.terminal a, .nonterminal p] :=
      .production (mem_productions_ofDfa.mpr (.inl ⟨q, a, p, ht, rfl⟩))
    exact hstep.trans ((Derives.refl [.terminal a]).append (ih h))

/-- A state derives the symbols of each run, with the state behind them that the run leads to, or with ε if that state
accepts. -/
theorem derives_ofDfa_iff : (ofDfa d).Derives [.nonterminal q] v ↔ ∃ w r, d.run? q w = some r ∧
    ∃ l, v = w.map .terminal ++ [l] ∧ (l = .nonterminal r ∨ r ∈ d.accept ∧ l = .terminal epsilon) := by
  constructor
  · intro h
    induction h with
    | refl => exact ⟨[], q, rfl, _, rfl, .inl rfl⟩
    | @step x y p _ hp ih =>
      obtain ⟨w, r, hw, l, hv, hl⟩ := ih
      -- The last letter is replaced, and so the production goes on with the run or ends it.
      obtain ⟨rfl, rfl, rfl⟩ := append_nonterminal_eq_iff.mp hv
      have hr : (r : Int) = p.head := by simpa [eq_comm] using hl
      rcases mem_productions_ofDfa.mp hp with ⟨q', a, r', ht, rfl⟩ | ⟨q', hq', rfl⟩
      · obtain rfl := Int.natCast_inj.mp hr
        refine ⟨w ++ [a], r', ?_, _, by simp, .inl rfl⟩
        rw [Dfa.run?_append, hw, Option.bind_some, Dfa.run?_cons, ht]
        rfl
      · obtain rfl := Int.natCast_inj.mp hr
        exact ⟨w, r, hw, _, by simp, .inr ⟨hq', rfl⟩⟩
  · rintro ⟨w, r, hw, l, rfl, rfl | ⟨hr, rfl⟩⟩
    · exact derives_of_run? hw
    · have hend : (ofDfa d).Derives [.nonterminal r] [.terminal epsilon] :=
        .production (mem_productions_ofDfa.mpr (.inr ⟨r, hr, rfl⟩))
      exact (derives_of_run? hw).trans ((Derives.refl _).append hend)

/-- A nonterminal that a state derives is the last letter, and a state that the first one leads to. -/
theorem derives_append_nonterminal_iff : (ofDfa d).Derives [.nonterminal q] (x ++ .nonterminal n :: y) ↔
    ∃ (w : List Symbol) (r : Nat), d.run? q w = some r ∧ n = r ∧ x = w.map .terminal ∧ y = [] := by
  rw [derives_ofDfa_iff]
  constructor
  · rintro ⟨w, r, hw, l, hv, hl⟩
    obtain ⟨rfl, rfl, rfl⟩ := append_nonterminal_eq_iff.mp hv
    exact ⟨w, r, hw, by simpa using hl, rfl, rfl⟩
  · rintro ⟨w, r, hw, rfl, rfl, rfl⟩
    exact ⟨w, r, hw, _, rfl, .inl rfl⟩

/-! ## Marks and search -/

theorem mem_nullable_ofDfa (hd : ∀ p a r, d.target? p a = some r → a ≠ epsilon) :
    (q : Int) ∈ (ofDfa d).nullable ↔ q ∈ d.accept := by
  rw [mem_nullable_iff, Vanishes, generates_ofDfa_iff hd, Dfa.acceptsFrom_nil, decide_eq_true_eq]

theorem mem_generators_ofDfa : (q : Int) ∈ (ofDfa d).generators ↔ d.CanAccept q := by
  simp only [mem_generators_iff, derives_iff_yields, yields_ofDfa_iff, Dfa.canAccept_iff]
  constructor
  · rintro ⟨_, v, -, hv⟩
    exact ⟨v, hv⟩
  · rintro ⟨v, hv⟩
    exact ⟨_, v, rfl, hv⟩

theorem mem_reachable_ofDfa : (q : Int) ∈ (ofDfa d).reachable ↔ d.Leads d.start q := by
  rw [mem_reachable_iff_derives]
  constructor
  · rintro ⟨x, y, h⟩
    obtain ⟨w, r, hw, hr, -⟩ := derives_append_nonterminal_iff.mp h
    obtain rfl := Int.natCast_inj.mp hr
    exact ⟨w, hw⟩
  · rintro ⟨w, hw⟩
    exact ⟨_, _, derives_append_nonterminal_iff.mpr ⟨w, q, hw, rfl, rfl, rfl⟩⟩

/-! ## First and follow sets -/

/-- What a state derives begins with the symbols of its transitions, if ε stands on no transition. -/
theorem begins_ofDfa_iff (hd : ∀ p a r, d.target? p a = some r → a ≠ epsilon) :
    (ofDfa d).Begins [.nonterminal q] a ↔ ∃ r, d.target? q a = some r := by
  constructor
  · rintro ⟨v, hv, hhead⟩
    obtain ⟨w, r, hw, l, rfl, hl⟩ := derives_ofDfa_iff.mp hv
    cases w with
    | nil => rcases hl with rfl | ⟨-, rfl⟩ <;> simp [Letter.erase, Letter.isEpsilon] at hhead
    | cons b w =>
      rw [Dfa.run?_cons, Option.bind_eq_some_iff] at hw
      obtain ⟨r', ht, -⟩ := hw
      obtain rfl : b = a := by simpa [Letter.erase, hd q b r' ht] using hhead
      exact ⟨r', ht⟩
  · rintro ⟨r, ht⟩
    refine ⟨_, .production (mem_productions_ofDfa.mpr (.inl ⟨q, a, r, ht, rfl⟩)), ?_⟩
    simp [Letter.erase, hd q a r ht]

/-- Nothing stands behind a nonterminal in the body of a production. -/
theorem eq_nil_of_mem_productions_ofDfa (hp : p ∈ (ofDfa d).productions) (hbody : p.body = x ++ .nonterminal n :: y) :
    y = [] := by
  have hlast : ∃ (w : List Symbol) (l : Letter), p.body = w.map .terminal ++ [l] := by
    rcases mem_productions_ofDfa.mp hp with ⟨q, a, r, -, rfl⟩ | ⟨q, -, rfl⟩
    · exact ⟨[a], _, rfl⟩
    · exact ⟨[], _, rfl⟩
  obtain ⟨w, l, hl⟩ := hlast
  exact (append_nonterminal_eq_iff.mp (hbody.symm.trans hl)).2.2

/-- Only the end marker follows anything: it follows the start, and the head of a production hands it on to the state at the
end of the body. -/
theorem follows_ofDfa_iff : (ofDfa d).Follows n a ↔ a = endMarker ∧ n ∈ (ofDfa d).reachable := by
  constructor
  · intro h
    induction h with
    | start => exact ⟨rfl, reaches_start _ _ (.head _)⟩
    | begins hp hbody hb =>
      rw [eq_nil_of_mem_productions_ofDfa hp hbody] at hb
      exact absurd hb not_begins_nil
    | inherited hp hbody _ _ ih => exact ⟨ih.1, mem_reachable_of_mem hp ih.2 (by simp [hbody])⟩
  · rintro ⟨rfl, hn⟩
    rw [mem_reachable_iff] at hn
    induction hn with
    | seed h =>
      rw [List.mem_singleton.mp h]
      exact .start
    | step _ hs ih =>
      obtain ⟨p, hp, rfl, hn⟩ := mem_successors.mp hs
      obtain ⟨x, y, hbody⟩ := List.append_of_mem hn
      obtain rfl := eq_nil_of_mem_productions_ofDfa hp hbody
      exact .inherited hp hbody (vanishes_nil _) ih

/-! ## Useful productions -/

/-- A production is useful if its head is reached and its body can become a word: only terminals stand before the head. -/
theorem useful_ofDfa_iff (hp : p ∈ (ofDfa d).productions) : (ofDfa d).Useful p ↔
    p.head ∈ (ofDfa d).reachable ∧ ∀ n, .nonterminal n ∈ p.body → n ∈ (ofDfa d).generators := by
  constructor
  · rintro ⟨x, y, w, hd, hw⟩
    obtain ⟨w', hw', -⟩ := generates_iff.mp hw
    obtain ⟨hproductive, -⟩ := mem_productive_of_step hp (canFinish_generators_iff.mpr ⟨w', hw'⟩)
    exact ⟨mem_reachable_iff_derives.mpr ⟨x, y, hd⟩, (mem_productive.mp hproductive).2.2⟩
  · rintro ⟨hhead, hbody⟩
    obtain ⟨x, y, hd⟩ := mem_reachable_iff_derives.mp hhead
    obtain ⟨w, r, -, -, rfl, rfl⟩ := derives_append_nonterminal_iff.mp hd
    have hfinish : canFinish (ofDfa d).generators (w.map .terminal ++ p.body ++ []) = true :=
      (letterwise_canFinish _ _).mpr ⟨fun n hn => hbody n (by simpa using hn), fun _ _ => trivial⟩
    obtain ⟨w', hw'⟩ := canFinish_generators_iff.mp hfinish
    exact ⟨_, _, _, hd, generates_iff.mpr ⟨w', hw', rfl⟩⟩

/-- The production is that of a transition from a state that is reached to one that can accept, or it ends a run in a state
that is reached. -/
def IsLive (d : Dfa) (p : Production) : Prop :=
  (∃ (q : Nat) (a : Symbol) (r : Nat), d.target? q a = some r ∧ d.Leads d.start q ∧ d.CanAccept r ∧
      p = ⟨q, [.terminal a, .nonterminal r]⟩) ∨
    ∃ q ∈ d.accept, d.Leads d.start q ∧ p = ⟨q, [.terminal epsilon]⟩

theorem mem_removeUseless_ofDfa : p ∈ (ofDfa d).removeUseless.productions ↔ IsLive d p := by
  rw [mem_removeUseless_iff_useful]
  constructor
  · rintro ⟨hp, huseful⟩
    obtain ⟨hhead, hbody⟩ := (useful_ofDfa_iff hp).mp huseful
    rcases mem_productions_ofDfa.mp hp with ⟨q, a, r, ht, rfl⟩ | ⟨q, hq, rfl⟩
    · have hr : (r : Int) ∈ (ofDfa d).generators := hbody r (by simp)
      exact .inl ⟨q, a, r, ht, mem_reachable_ofDfa.mp hhead, mem_generators_ofDfa.mp hr, rfl⟩
    · exact .inr ⟨q, hq, mem_reachable_ofDfa.mp hhead, rfl⟩
  · rintro (⟨q, a, r, ht, hq, hr, rfl⟩ | ⟨q, haccept, hq, rfl⟩)
    · have hp := mem_productions_ofDfa.mpr (.inl ⟨q, a, r, ht, rfl⟩)
      refine ⟨hp, (useful_ofDfa_iff hp).mpr ⟨mem_reachable_ofDfa.mpr hq, fun n hn => ?_⟩⟩
      obtain rfl : n = r := by simpa using hn
      exact mem_generators_ofDfa.mpr hr
    · have hp := mem_productions_ofDfa.mpr (.inr ⟨q, haccept, rfl⟩)
      exact ⟨hp, (useful_ofDfa_iff hp).mpr ⟨mem_reachable_ofDfa.mpr hq, by simp⟩⟩

/-! ## All analyses -/

/-- What the analyses of a grammar find out about a nonterminal is what the automaton has about the state. -/
structure Agrees (g : Grammar) (d : Dfa) (q : Nat) : Prop where
  nullable_iff : (q : Int) ∈ g.nullable ↔ q ∈ d.accept
  generator_iff : (q : Int) ∈ g.generators ↔ d.CanAccept q
  reachable_iff : (q : Int) ∈ g.reachable ↔ d.Leads d.start q
  first_iff : ∃ s, (FirstFollow.ofGrammar g).firstOf (.nonterminal q) = .ok s ∧
    ∀ a, a ∈ s ↔ (∃ r, d.target? q a = some r) ∨ a = epsilon ∧ q ∈ d.accept
  follow_iff : ∃ s, (FirstFollow.ofGrammar g).followOf q = .ok s ∧ ∀ a, a ∈ s ↔ a = endMarker ∧ d.Leads d.start q

/-- The analyses of the grammar of an automaton without ε agree with the automaton on each state that is a nonterminal: a state
is nullable if it accepts, a generator if it leads to a state that accepts, and reachable if the start leads to it; its first
set has the symbols of its transitions, and ε if it accepts, and its follow set has the end marker if it is reached. When the
useless productions are removed, those of transitions from a reached state to one that can accept are left, and the ends of
runs in reached states, all in their order. -/
theorem analyses_ofDfa (hd : ∀ p a r, d.target? p a = some r → a ≠ epsilon) :
    (∀ q : Nat, (q : Int) ∈ (ofDfa d).nonterminals → (ofDfa d).Agrees d q) ∧
      (∃ keep : Production → Bool, (ofDfa d).removeUseless.productions = (ofDfa d).productions.filter keep) ∧
      ∀ p, p ∈ (ofDfa d).removeUseless.productions ↔ IsLive d p := by
  refine ⟨fun q hq => ?_, ⟨_, List.filter_filter⟩, fun p => mem_removeUseless_ofDfa⟩
  have hnullable := mem_nullable_ofDfa (q := q) hd
  obtain ⟨s, hs⟩ := Option.isSome_iff_exists.mp (Table.get?_isSome_iff.mpr (FirstFollow.mem_keys_firstTable.mpr hq))
  exact {
    nullable_iff := hnullable
    generator_iff := mem_generators_ofDfa
    reachable_iff := mem_reachable_ofDfa
    first_iff := by
      refine ⟨s, by simp only [FirstFollow.firstOf, FirstFollow.lookUp, FirstFollow.ofGrammar, hs], fun a => ?_⟩
      rw [FirstFollow.mem_of_get?_firstTable hs, begins_ofDfa_iff hd, ← mem_nullable_iff, hnullable]
    follow_iff := by
      refine ⟨_, FirstFollow.lookUp_eq_ok ((FirstFollow.within_followRounds _).mem_keys.mpr hq), fun a => ?_⟩
      rw [← mem_reachable_ofDfa, ← follows_ofDfa_iff]
      exact FirstFollow.mem_followRounds_iff }

/-- An automaton with a state that leads nowhere and an accepting one that nothing leads to. -/
theorem analyses_ofDfa_dead :
    ∃ d, Dfa.ofTables ⟨4, 0, [1, 3], [.ofList [("a", 1), ("b", 2)], .ofList [("a", 0)], ∅, .ofList [("a", 1)]], none⟩ = .ok d ∧
      (∀ p a r, d.target? p a = some r → a ≠ epsilon) ∧ (2 : Int) ∈ (ofDfa d).nonterminals ∧
      (3 : Int) ∈ (ofDfa d).nonterminals ∧ ¬ d.CanAccept 2 ∧ d.CanAccept 3 ∧ d.Leads d.start 2 ∧ ¬ d.Leads d.start 3 ∧
      (FirstFollow.ofGrammar (ofDfa d)).followOf 2 = .ok (.singleton endMarker) ∧
      (FirstFollow.ofGrammar (ofDfa d)).followOf 3 = .ok ∅ ∧
      (ofDfa d).removeUseless.productions =
        [⟨0, [.terminal "a", .nonterminal 1]⟩, ⟨1, [.terminal "a", .nonterminal 0]⟩, ⟨1, [.terminal epsilon]⟩] ∧
      IsLive d ⟨1, [.terminal epsilon]⟩ ∧ ¬ IsLive d ⟨3, [.terminal epsilon]⟩ := by
  obtain ⟨d, hd⟩ : ∃ d, Dfa.ofTables ⟨4, 0, [1, 3],
    [.ofList [("a", 1), ("b", 2)], .ofList [("a", 0)], ∅, .ofList [("a", 1)]], none⟩ = .ok d := ⟨_, rfl⟩
  have hsymbols : ∀ p a r, d.target? p a = some r → a ≠ epsilon := by
    have hlabels : ∀ t ∈ d.transitions, t.2.1 ≠ epsilon := by
      obtain rfl := Except.ok.inj hd
      decide
    exact fun p a r ht => hlabels _ (Dfa.mem_transitions.mpr ht)
  have hnonterminals : (2 : Int) ∈ (ofDfa d).nonterminals ∧ (3 : Int) ∈ (ofDfa d).nonterminals := by
    obtain rfl := Except.ok.inj hd
    decide
  have hmarks : (2 : Int) ∉ (ofDfa d).generators ∧ (3 : Int) ∈ (ofDfa d).generators ∧ (2 : Int) ∈ (ofDfa d).reachable ∧
      (3 : Int) ∉ (ofDfa d).reachable := by
    obtain rfl := Except.ok.inj hd
    decide +kernel
  have hkept : (ofDfa d).removeUseless.productions =
      [⟨0, [.terminal "a", .nonterminal 1]⟩, ⟨1, [.terminal "a", .nonterminal 0]⟩, ⟨1, [.terminal epsilon]⟩] := by
    obtain rfl := Except.ok.inj hd
    decide +kernel
  obtain ⟨hstates, -, hlive⟩ := analyses_ofDfa hsymbols
  have hdead := hstates 2 hnonterminals.1
  have hunreached := hstates 3 hnonterminals.2
  have hleads := hdead.reachable_iff.mp hmarks.2.2.1
  have hnotLeads := fun h => hmarks.2.2.2 (hunreached.reachable_iff.mpr h)
  obtain ⟨s, hs, hmem⟩ := hdead.follow_iff
  obtain ⟨s', hs', hmem'⟩ := hunreached.follow_iff
  refine ⟨d, hd, hsymbols, hnonterminals.1, hnonterminals.2, fun h => hmarks.1 (hdead.generator_iff.mpr h),
    hunreached.generator_iff.mp hmarks.2.1, hleads, hnotLeads, ?_, ?_, hkept, (hlive _).mp (by simp [hkept]),
    fun h => absurd ((hlive _).mpr h) (by simp [hkept])⟩
  · have hset : s = .singleton endMarker := OrderedSet.ext fun a => by
      rw [hmem, OrderedSet.mem_singleton, and_iff_left hleads]
    exact hset ▸ hs
  · have hset : s' = ∅ := OrderedSet.ext fun a => by
      rw [hmem']
      exact iff_of_false (fun h => hnotLeads h.2) (OrderedSet.not_mem_empty a)
    exact hset ▸ hs'

end Grammar

end FormalLang
