import FormalLang.Proofs.Grammar.Alike
import FormalLang.Proofs.Grammar.History
import FormalLang.Proofs.Item.Collection

/-!
# Collections of grammars that list the same productions

The order of the productions decides in which order a closure finds its items, and their number bounds its visits. But the
closure is the set of what the items lead to, and there is none if one of these has a fault, so that it depends on neither.
The states are found by following their letters in ascending order, so that their numbers depend on the closures only.

No item need fit the grammar here: an item may lack a dot, or have nonterminals that the first sets do not know.

* `Grammar.Alike.toOption_result_close_eq`: the closures are the same, or there is none.
* `Grammar.Alike.discover_eq`: the states are the same, and in the same order.
* `Grammar.Alike.collect_eq_ok_iff`: the collections are the same, or there is none.
* `Memo.collect_alike`: the collection does not depend on how productions and start items are listed.
-/

namespace FormalLang

open FirstFollow

variable {i j : Item} {s t : ItemSet}

namespace Grammar

namespace Alike

variable {g h : Grammar} (hgh : g.Alike h)
include hgh

/-! ## Closures -/

theorem lookaheads_eq (rest : List Letter) (a : Option Symbol) :
    (ofGrammar g).lookaheads rest a = (ofGrammar h).lookaheads rest a := by
  cases a with
  | none => rfl
  | some a => rw [lookaheads, lookaheads, hgh.firstOfSequence_eq]

theorem demands_eq (i : Item) : i.demands (ofGrammar g) = i.demands (ofGrammar h) := by
  simp only [Item.demands, hgh.lookaheads_eq]

theorem fault?_eq (i : Item) : i.fault? (ofGrammar g) = i.fault? (ofGrammar h) := by
  rw [Item.fault?, Item.fault?, hgh.demands_eq]

theorem mem_predicted_iff : j ∈ i.predicted g (ofGrammar g) ↔ j ∈ i.predicted h (ofGrammar h) := by
  simp only [Item.predicted, Item.demanded, hgh.demands_eq, List.mem_flatMap, mem_initialItems, hgh.mem_productions]

/-- The closures are the same, or there is none for both grammars. -/
theorem toOption_result_close_eq (s : ItemSet) :
    (g.close (ofGrammar g) s).result.toOption = (h.close (ofGrammar h) s).result.toOption := by
  have hreach : ∀ i, Search.Reach (Item.predicted g (ofGrammar g)) s.toList i ↔
      Search.Reach (Item.predicted h (ofGrammar h)) s.toList i := fun i =>
    Search.reach_congr (fun _ => Iff.rfl) fun _ _ => hgh.mem_predicted_iff
  refine Option.ext fun t => ?_
  rw [toOption_eq_some_iff, toOption_eq_some_iff, result_close_eq_ok_iff, result_close_eq_ok_iff]
  simp only [hreach, hgh.fault?_eq]

theorem result_close_eq_ok_iff : (g.close (ofGrammar g) s).result = .ok t ↔ (h.close (ofGrammar h) s).result = .ok t := by
  rw [← toOption_eq_some_iff, ← toOption_eq_some_iff, hgh.toOption_result_close_eq]

/-! ## States -/

theorem nextStates_eq : g.nextStates (ofGrammar g) = h.nextStates (ofGrammar h) := by
  funext s
  simp only [nextStates, closings, List.filterMap_map, Function.comp_def, hgh.toOption_result_close_eq]

/-- The states are discovered in the same order, for their bounds are both large enough. -/
theorem discover_eq (s : ItemSet) : g.discover (ofGrammar g) s = h.discover (ofGrammar h) s := by
  obtain ⟨trace, htrace, hg⟩ := exists_finishes_discover g (ofGrammar g) s
  obtain ⟨trace', htrace', hh⟩ := exists_finishes_discover h (ofGrammar h) s
  rw [← hgh.nextStates_eq] at htrace'
  rw [hg, hh, htrace.unique htrace']

theorem collectionOf_eq (states : List ItemSet) :
    g.collectionOf (ofGrammar g) states = h.collectionOf (ofGrammar h) states := by
  simp only [collectionOf, closings, List.filterMap_map, Function.comp_def, hgh.toOption_result_close_eq]

/-- The collections are the same, or there is none for both grammars. -/
theorem collect_eq_ok_iff {c : Collection} :
    g.collect (ofGrammar g) s = .ok c ↔ h.collect (ofGrammar h) s = .ok c := by
  rw [Grammar.collect_eq_ok_iff, Grammar.collect_eq_ok_iff]
  simp only [hgh.result_close_eq_ok_iff, hgh.discover_eq, hgh.collectionOf_eq]

end Alike

end Grammar

/-! ## The collection of a grammar -/

/-- Two grammars that list the same productions have the same states in the same order, and the same transitions, from start
items that have been listed in any way, or there is no collection of either. What is kept of the tables, if anything is, has
to be that of the grammar. -/
theorem Memo.collect_alike {m n : Memo} (hm : m.Coherent) (hn : n.Coherent) (h : m.grammar.Alike n.grammar)
    {l l' : List Item} (hl : ∀ i, i ∈ l ↔ i ∈ l') :
    (∃ c, (m.collect (.ofList l)).1 = .ok c ∧ (n.collect (.ofList l')).1 = .ok c) ∨
      ∃ e e', (m.collect (.ofList l)).1 = .error (.fault e) ∧ (n.collect (.ofList l')).1 = .error (.fault e') := by
  have hseeds : OrderedSet.ofList l = OrderedSet.ofList l' := OrderedSet.ext fun i => by
    rw [OrderedSet.mem_ofList, OrderedSet.mem_ofList, hl]
  rw [hseeds, hm.collect_eq, hn.collect_eq]
  cases hc : m.grammar.collect (ofGrammar m.grammar) (.ofList l') with
  | ok c => exact .inl ⟨c, rfl, by rw [h.collect_eq_ok_iff.mp hc]; rfl⟩
  | error e =>
    cases hc' : n.grammar.collect (ofGrammar n.grammar) (.ofList l') with
    | ok c => rw [h.collect_eq_ok_iff.mpr hc'] at hc; cases hc
    | error e' => exact .inr ⟨e, e', rfl, rfl⟩

/-- Sequences of a letter. -/
def letters : Memo where
  grammar := {
    start := 0
    productions := [⟨0, [.nonterminal 1, .nonterminal 0]⟩, ⟨0, [.terminal epsilon]⟩, ⟨1, [.terminal "a"]⟩] }

/-- The same productions in another order, one of them twice. -/
def lettersAgain : Memo where
  grammar := {
    start := 0
    productions := [⟨1, [.terminal "a"]⟩, ⟨0, [.terminal epsilon]⟩, ⟨1, [.terminal "a"]⟩,
      ⟨0, [.nonterminal 1, .nonterminal 0]⟩] }

/-- A whole after which the end comes, and one of which nothing is known. -/
def letterItems : List Item := [⟨2, [dot, .nonterminal 0], some endMarker⟩, ⟨2, [dot, .nonterminal 0], none⟩]

/-- There are five states for both grammars, and there is no collection for either from an item without a dot. -/
theorem Memo.collect_alike_letters :
    letters.Coherent ∧ lettersAgain.Coherent ∧ letters.grammar.Alike lettersAgain.grammar ∧
      (∃ c, (letters.collect (.ofList letterItems)).1 = .ok c ∧
        (lettersAgain.collect (.ofList letterItems.reverse)).1 = .ok c ∧ c.states.length = 5) ∧
      ∃ e e', (letters.collect (.ofList (⟨0, [], none⟩ :: letterItems))).1 = .error (.fault e) ∧
        (lettersAgain.collect (.ofList (letterItems ++ [⟨0, [], none⟩]))).1 = .error (.fault e') := by
  have hm : letters.Coherent := coherent_fresh _
  have hn : lettersAgain.Coherent := coherent_fresh _
  have h : letters.grammar.Alike lettersAgain.grammar := ⟨rfl, fun p => by simp [letters, lettersAgain]; tauto⟩
  refine ⟨hm, hn, h, ?_, ?_⟩
  · have hlist : ∀ i, i ∈ letterItems ↔ i ∈ letterItems.reverse := fun i => List.mem_reverse.symm
    have hvalue : (letters.collect (.ofList letterItems)).1.map (·.states.length) = .ok 5 := by decide +kernel
    rcases Memo.collect_alike hm hn h hlist with ⟨c, hc, hc'⟩ | ⟨e, e', he, -⟩
    · rw [hc] at hvalue
      exact ⟨c, hc, hc', Except.ok.inj hvalue⟩
    · rw [he] at hvalue
      cases hvalue
  · have hlist : ∀ i, i ∈ ⟨0, [], none⟩ :: letterItems ↔ i ∈ letterItems ++ [⟨0, [], none⟩] := fun i => by
      simp [or_comm]
    have hvalue : (letters.collect (.ofList (⟨0, [], none⟩ :: letterItems))).1.toOption = none := by decide +kernel
    rcases Memo.collect_alike hm hn h hlist with ⟨c, hc, -⟩ | hfaults
    · rw [hc] at hvalue
      cases hvalue
    · exact hfaults

end FormalLang
