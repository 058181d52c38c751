import FormalLang.Proofs.Item.Query

/-!
# The collection as an automaton

The states of the collection are discovered one after the other, and the list of them grows while it is read. In the end
they are distinct closed sets, each of them is reached from the first one, and from each of them every letter that stands
after a dot leads to exactly one of them. An item gets into a state only if the dot has been advanced in a start item, or
in a production that was predicted, so that it is known what the items look like.

* `Memo.IsAutomaton`: what is required of the states and transitions.
* `Grammar.IsCollection.exists_run?_of_lt`: every state is reached.
* `Grammar.IsCollection.isClosed_of_mem`: every state is closed.
* `Grammar.Reached.hasOneDot`, `Grammar.Reached.advanced_or_dots`: the items that are reached have one dot, and come from
  start items or productions.
* `Memo.isAutomaton_collect`: the collection of dotted productions over the letters of a grammar.
-/

namespace FormalLang

open Relation

variable {g : Grammar} {i j : Item} {l : Letter} {γ : List Letter} {s t : ItemSet} {p : Production} {k : Nat}

namespace Item

/-- Advancing the dot of one item makes the other. -/
def Advances (i j : Item) : Prop := i.advance = .ok j

end Item

/-- The collection is the part of the deterministic automaton of the items that is reached from the closure of the start
items `s`. -/
structure Memo.IsAutomaton (m : Memo) (s : ItemSet) (c : Collection) : Prop where
  /-- The first state is the closure of the start items. -/
  start : ∃ t, (m.closure s).1 = .ok t ∧ c.states[0]? = some t
  /-- No state is listed twice. -/
  nodup_states : c.states.Nodup
  /-- Each state is its own closure. -/
  closure_state : ∀ t ∈ c.states, (m.closure t).1 = .ok t
  /-- A state and a letter have one transition at most. -/
  nodup_keys : (c.transitions.map fun e => (e.1, e.2.1)).Nodup
  /-- There is a transition for each letter that stands after a dot, and for no other. -/
  exists_transition_iff : ∀ k l, (∃ n, (k, l, n) ∈ c.transitions) ↔
    ∃ t, c.states[k]? = some t ∧ ∃ i ∈ t, i.nextLetter = .ok (some l)
  /-- A transition leads to the closure of the items in which the dot has passed its letter. -/
  transition : ∀ k l n, (k, l, n) ∈ c.transitions → ∃ t u v, c.states[k]? = some t ∧ t.goto l = .ok u ∧
    (m.closure u).1 = .ok v ∧ c.states[n]? = some v
  /-- Each state is reached from the first one. -/
  reached : ∀ k < c.states.length, ∃ γ, c.run? 0 γ = some k
  /-- Each item has exactly one dot. -/
  hasOneDot : ∀ t ∈ c.states, ∀ i ∈ t, i.HasOneDot
  /-- Each item is a start item whose dot has been advanced, or a dotted production of the grammar. -/
  advanced_or_dots : ∀ t ∈ c.states, ∀ i ∈ t,
    (∃ i₀ ∈ s, ReflTransGen Item.Advances i₀ i) ∨ ∃ p ∈ m.grammar.productions, i.Dots p

/-! ## Items that are reached -/

namespace Item

theorem nextLetter_eq_some_iff : i.nextLetter = .ok (some l) ↔ i.next? = some l := by
  unfold nextLetter
  split
  · simp
  · next h => simp_all [hasDot, next?]

theorem advances_shift (h : i.next? = some l) : i.Advances i.shift := by
  simp [Advances, advance, isComplete, nextLetter_eq_some_iff.mpr h, bind, Except.bind, pure, Except.pure]

end Item

namespace Grammar

theorem Reached.hasOneDot (hg : g.Undotted) (hs : ∀ i ∈ s, i.HasOneDot) (h : g.Reached s γ i) : i.HasOneDot := by
  induction h with
  | seed h => exact hs _ h
  | shift _ _ ih => exact ih.shift
  | predict _ hij =>
    obtain ⟨n, rest, b, p, -, -, hp, -, rfl⟩ := predicts_iff.mp hij
    exact (Item.dots_initialItem p b).hasOneDot (hg p hp)

/-- The dot is advanced in start items and in dotted productions, and what is predicted is a dotted production. -/
theorem Reached.advanced_or_dots (hg : g.Undotted) (h : g.Reached s γ i) :
    (∃ i₀ ∈ s, ReflTransGen Item.Advances i₀ i) ∨ ∃ p ∈ g.productions, i.Dots p := by
  induction h with
  | seed h => exact .inl ⟨_, h, .refl⟩
  | shift _ hl ih =>
    rcases ih with ⟨i₀, hi₀, h⟩ | ⟨p, hp, h⟩
    · exact .inl ⟨i₀, hi₀, h.tail (Item.advances_shift hl)⟩
    · exact .inr ⟨p, hp, h.shift (hg p hp)⟩
  | predict _ hij =>
    obtain ⟨n, rest, b, p, -, -, hp, -, rfl⟩ := predicts_iff.mp hij
    exact .inr ⟨p, hp, Item.dots_initialItem p b⟩

/-! ## States that are reached -/

namespace IsCollection

variable {c : Collection}

/-- A state is reached along the letters by which it was discovered. -/
theorem exists_run?_of_mem (hc : g.IsCollection s c) (ht : t ∈ c.states) :
    ∃ γ k, c.run? 0 γ = some k ∧ c.states[k]? = some t := by
  replace ht := hc.reach t ht
  induction ht with
  | seed h =>
    rw [List.mem_singleton.mp h]
    exact ⟨[], 0, rfl, hc.states_zero⟩
  | @step t u hr hu ih =>
    obtain ⟨l, hl, rfl⟩ := List.mem_map.mp hu
    obtain ⟨γ, k, hk, ht⟩ := ih
    have hmem := hc.after_mem t (List.mem_of_getElem? ht) l hl
    refine ⟨γ ++ [l], _, ?_, List.getElem?_idxOf hmem⟩
    rw [Collection.run?_concat, hk, Option.bind_some, hc.target?_eq_some ht hl]

/-- Every state is reached, since a state has only one number. -/
theorem exists_run?_of_lt (hc : g.IsCollection s c) (hk : k < c.states.length) : ∃ γ, c.run? 0 γ = some k := by
  obtain ⟨γ, m, hm, hstate⟩ := hc.exists_run?_of_mem (List.getElem_mem hk)
  rw [← List.getElem?_eq_getElem hk] at hstate
  obtain rfl := (List.getElem?_inj hk hc.nodup_states).mp hstate.symm
  exact ⟨γ, hm⟩

theorem exists_mem_transitions_iff (hc : g.IsCollection s c) :
    (∃ n, (k, l, n) ∈ c.transitions) ↔ ∃ t, c.states[k]? = some t ∧ l ∈ t.nextLetters := by
  simp only [hc.mem_transitions]
  constructor
  · rintro ⟨n, t, ht, hl, -⟩
    exact ⟨t, ht, hl⟩
  · rintro ⟨t, ht, hl⟩
    exact ⟨_, t, ht, hl, rfl⟩

theorem exists_state_of_mem_transitions (hc : g.IsCollection s c) {n : Nat} (h : (k, l, n) ∈ c.transitions) :
    ∃ t, c.states[k]? = some t ∧ c.states[n]? = some (t.after g l) := by
  obtain ⟨t, ht, hl, hn⟩ := (hc.mem_transitions _).mp h
  obtain rfl : n = c.states.idxOf (t.after g l) := hn
  exact ⟨t, ht, List.getElem?_idxOf (hc.after_mem t (List.mem_of_getElem? ht) l hl)⟩

variable (hs : ∀ i ∈ s, i.Fits g) (hc : g.IsCollection (g.closedSet s) c)
include hs hc

/-- Every state holds what some sequence leads to. -/
theorem exists_reached_of_mem (ht : t ∈ c.states) : ∃ γ, ∀ i, i ∈ t ↔ g.Reached s γ i := by
  obtain ⟨γ, k, hk, hstate⟩ := hc.exists_run?_of_mem ht
  obtain ⟨u, hu, hmem⟩ := hc.mem_state_iff hs hk
  obtain rfl : t = u := Option.some.inj (hstate.symm.trans hu)
  exact ⟨γ, hmem⟩

theorem isClosed_of_mem (ht : t ∈ c.states) : g.IsClosed t := by
  obtain ⟨γ, hmem⟩ := hc.exists_reached_of_mem hs ht
  exact fun i hi j hp => (hmem j).mpr (.predict ((hmem i).mp hi) hp)

end IsCollection

end Grammar

/-! ## The collection of a grammar -/

/-- The canonical collection from dotted productions over the letters of a grammar, with or without lookaheads, has no
fault and is the automaton of the items that are reached, as long as the dot is not a letter of the grammar. What is kept
of the tables, if anything is, has to be that of the grammar. -/
theorem Memo.isAutomaton_collect (m : Memo) (hm : m.Coherent) (s : ItemSet)
    (hdot : ∀ p ∈ m.grammar.productions, dot ∉ p.body)
    (hs : ∀ i ∈ s, ∃ p : Production, i.Dots p ∧ dot ∉ p.body ∧
      ∀ n, Letter.nonterminal n ∈ p.body → n ∈ m.grammar.nonterminals) :
    ∃ c, (m.collect s).1 = .ok c ∧ m.IsAutomaton s c := by
  have hfits : ∀ i ∈ s, i.Fits m.grammar := fun i hi => by
    obtain ⟨p, hp, -, hn⟩ := hs i hi
    exact hp.fits hn
  have honedot : ∀ i ∈ s, i.HasOneDot := fun i hi => by
    obtain ⟨p, hp, hdot, -⟩ := hs i hi
    exact hp.hasOneDot hdot
  obtain ⟨c, hcollect, hc⟩ := Grammar.exists_collect hfits
  refine ⟨c, hm.collect_eq_ok hcollect, ?_⟩
  exact {
    start := ⟨m.grammar.closedSet s, hm.closure_eq_ok hfits, hc.states_zero⟩
    nodup_states := hc.nodup_states
    closure_state t ht := by
      rw [hm.closure_eq_ok (hc.fits t ht), (hc.isClosed_of_mem hfits ht).closedSet_eq (hc.fits t ht)]
    nodup_keys := hc.nodup_keys
    exists_transition_iff k l := by
      simp only [hc.exists_mem_transitions_iff, ItemSet.mem_nextLetters, Item.nextLetter_eq_some_iff]
    transition k l n h := by
      obtain ⟨t, ht, hn⟩ := hc.exists_state_of_mem_transitions h
      have hfits := hc.fits t (List.mem_of_getElem? ht)
      refine ⟨t, t.shifted l, t.after m.grammar l, ht, ?_, ?_, hn⟩
      · exact ItemSet.goto_eq_ok (fun i hi => (hfits i hi).hasDot) l
      · exact hm.closure_eq_ok fun i hi => ItemSet.fits_of_mem_shifted hfits hi
    reached k hk := hc.exists_run?_of_lt hk
    hasOneDot t ht i hi := by
      obtain ⟨γ, hmem⟩ := hc.exists_reached_of_mem hfits ht
      exact ((hmem i).mp hi).hasOneDot hdot honedot
    advanced_or_dots t ht i hi := by
      obtain ⟨γ, hmem⟩ := hc.exists_reached_of_mem hfits ht
      exact ((hmem i).mp hi).advanced_or_dots hdot }

/-- Brackets that are nested. -/
def nested : Memo where
  grammar := {
    start := 0
    productions := [⟨0, [.terminal "a", .nonterminal 0, .terminal "b"]⟩, ⟨0, [.terminal epsilon]⟩] }

/-- A whole with nothing known of what may follow, and brackets of which the first is open, with the end after them. -/
def nestedStart : ItemSet := OrderedSet.ofList
  [⟨1, [dot, .nonterminal 0], none⟩, ⟨0, [.terminal "a", dot, .nonterminal 0, .terminal "b"], some endMarker⟩]

/-- There are six states. After an inner bracket the dot has been advanced in a production, with and without a lookahead,
and the start items do not get there. -/
theorem Memo.isAutomaton_collect_nested :
    nested.Coherent ∧ (∀ p ∈ nested.grammar.productions, dot ∉ p.body) ∧
    (∀ i ∈ nestedStart, ∃ p : Production, i.Dots p ∧ dot ∉ p.body ∧
      ∀ n, Letter.nonterminal n ∈ p.body → n ∈ nested.grammar.nonterminals) ∧
    ∃ c, (nested.collect nestedStart).1 = .ok c ∧ nested.IsAutomaton nestedStart c ∧ c.states.length = 6 ∧
      c.run? 0 [.terminal "a", .nonterminal 0] = some 4 ∧ c.run? 0 [.terminal "b"] = none ∧
      c.states[4]? = some (OrderedSet.ofList
        [⟨0, [.terminal "a", .nonterminal 0, dot, .terminal "b"], none⟩,
          ⟨0, [.terminal "a", .nonterminal 0, dot, .terminal "b"], some "b"⟩]) := by
  have hm : nested.Coherent := ⟨nofun, nofun⟩
  have hdot : ∀ p ∈ nested.grammar.productions, dot ∉ p.body := by decide
  have hs : ∀ i ∈ nestedStart, ∃ p : Production, i.Dots p ∧ dot ∉ p.body ∧
      ∀ n, Letter.nonterminal n ∈ p.body → n ∈ nested.grammar.nonterminals := by
    intro i hi
    obtain rfl | rfl : i = ⟨1, [dot, .nonterminal 0], none⟩ ∨
        i = ⟨0, [.terminal "a", dot, .nonterminal 0, .terminal "b"], some endMarker⟩ := by
      simpa [nestedStart] using hi
    · exact ⟨⟨1, [.nonterminal 0]⟩, by decide, by decide, by simp; decide⟩
    · exact ⟨⟨0, [.terminal "a", .nonterminal 0, .terminal "b"]⟩, by decide, by decide, by simp; decide⟩
  obtain ⟨c, hc, hautomaton⟩ := Memo.isAutomaton_collect nested hm nestedStart hdot hs
  have hvalue : (nested.collect nestedStart).1.map (fun c => (c.states.length,
      c.run? 0 [.terminal "a", .nonterminal 0], c.run? 0 [.terminal "b"], c.states[4]?)) =
      .ok (6, some 4, none, some (OrderedSet.ofList
        [⟨0, [.terminal "a", .nonterminal 0, dot, .terminal "b"], none⟩,
          ⟨0, [.terminal "a", .nonterminal 0, dot, .terminal "b"], some "b"⟩])) := by
    decide +kernel
  rw [hc] at hvalue
  refine ⟨hm, hdot, hs, c, hc, hautomaton, ?_⟩
  simpa using Except.ok.inj hvalue

end FormalLang
