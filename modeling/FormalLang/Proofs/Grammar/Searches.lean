import FormalLang.Proofs.Grammar.Units
import FormalLang.Search.Run

/-!
# The searches of a grammar

What is found from a nonterminal is found among the nonterminals of the grammar, of which there are finitely many. So the
searches for reachable nonterminals and for chains of unit productions come to an end, with cycles of productions too, and
each nonterminal that they find is visited once. The order in which the nonterminals next to one are listed decides only in
which order they are found.

* `Grammar.adjacent_eq_successors`: the adjacency leads where the productions lead.
* `Grammar.exists_finishes_reach`: a search among the nonterminals comes to an end, in whatever order it goes on.
* `Grammar.generators_reachable_exact`: the nonterminals that derive words, and those that the start derives.
* `Grammar.unitPairs_exact`: the pairs that chains of unit productions lead through.
-/

namespace FormalLang

namespace Grammar

variable {g : Grammar} {n : Int}

/-! ## Adjacency -/

/-- The nonterminals of the bodies that the adjacency lists for one. -/
def adjacent (g : Grammar) (n : Int) : List Int :=
  ((g.adjacency.lookup n).getD []).flatMap fun body => body.filterMap Letter.nonterminal?

theorem productionsOf_eq_nil (hn : n ∉ g.nonterminals) : g.productionsOf n = [] := by
  refine List.filter_eq_nil_iff.mpr fun p hp h => hn ?_
  obtain rfl := of_decide_eq_true h
  exact mem_nonterminals.mpr (.inr ⟨p, hp, .inl rfl⟩)

/-- The adjacency leads where the productions lead. What it does not list has no productions. -/
theorem adjacent_eq_successors (g : Grammar) : g.adjacent = g.successors := by
  funext n
  by_cases hn : n ∈ g.nonterminals
  · rw [adjacent, adjacency, List.lookup_graph _ (OrderedSet.mem_def.mp hn), Option.getD_some, List.flatMap_map]
    rfl
  · have hlookup : g.adjacency.lookup n = none := by
      refine List.lookup_eq_none_iff.mpr fun e he => ?_
      obtain ⟨k, hk, rfl⟩ := List.mem_map.mp he
      refine bne_iff_ne.mpr ?_
      rintro rfl
      exact hn hk
    simp [adjacent, hlookup, successors, productionsOf_eq_nil hn]

/-! ## The end of a search -/

/-- A search that stays among the nonterminals comes to an end, and finds the same ones in whatever order those next to one
are listed. -/
theorem exists_finishes_reach {next listed : Int → List Int} (hnext : ∀ k, ∀ m ∈ next k, m ∈ g.nonterminals)
    (hlisted : ∀ k m, m ∈ listed k ↔ m ∈ next k) (hn : n ∈ g.nonterminals) :
    ∃ t, Search.Finishes .depthFirst listed [n] t ∧ t.visited.Perm t.found ∧ .ofList t.found = g.reach next n := by
  have hseed : [n] ⊆ g.nonterminals.toList := List.cons_subset.mpr ⟨hn, List.nil_subset _⟩
  have hstay : ∀ k ∈ g.nonterminals.toList, listed k ⊆ g.nonterminals.toList :=
    fun k _ m hm => hnext k m ((hlisted k m).mp hm)
  obtain ⟨t, hfinishes, hvisited, hfound⟩ := Search.exists_finishes .depthFirst hseed hstay
  refine ⟨t, hfinishes, hvisited, OrderedSet.ext fun m => ?_⟩
  rw [OrderedSet.mem_ofList, hfound, mem_reach_iff hnext hn]
  exact Search.reach_congr (fun _ => .rfl) hlisted

/-! ## Generators and reachable nonterminals -/

/-- The generators are the nonterminals that derive a word of terminals, and the reachable ones those that stand somewhere
in what the start derives. Whatever the productions are, the rounds that mark the generators come to an end without a limit
on their number, and so does the search along the adjacency: each round but the last marks a nonterminal, and each
nonterminal is visited once. -/
theorem generators_reachable_exact (g : Grammar) :
    (∀ n, n ∈ g.generators ↔ ∃ w : List Symbol, g.Derives [.nonterminal n] (w.map .terminal)) ∧
      (∀ n, n ∈ g.reachable ↔ ∃ x y, g.Derives [.nonterminal g.start] (x ++ .nonterminal n :: y)) ∧
      (∃ t, Settles (fun _ => g.markRound canFinish) 0 ∅ t ∧ t.state = g.generators ∧
        t.rounds ≤ g.generators.size + 1) ∧
      ∃ t, Search.Finishes .depthFirst g.adjacent [g.start] t ∧ t.visited.Perm t.found ∧
        .ofList t.found = g.reachable := by
  refine ⟨fun n => mem_generators_iff, fun n => mem_reachable_iff_derives, settles_mark g canFinish, ?_⟩
  rw [adjacent_eq_successors]
  exact exists_finishes_reach (fun _ _ => mem_nonterminals_of_mem_successors) (fun _ _ => .rfl)
    (mem_nonterminals.mpr (.inl rfl))

/-- A cycle, a nonterminal without productions and one that nothing leads to. -/
example :
    let g : Grammar := ⟨0, [⟨0, [.nonterminal 1]⟩, ⟨1, [.nonterminal 0, .nonterminal 2]⟩, ⟨1, [.terminal "a"]⟩,
      ⟨3, [.terminal "b"]⟩]⟩
    g.generators = .ofList [0, 1, 3] ∧ g.reachable = .ofList [0, 1, 2] := by decide

/-! ## Chains of unit productions -/

/-- The pairs are those of a nonterminal of the grammar and of one that it derives by unit productions. From each
nonterminal the search along unit productions comes to an end, in whatever order those of a nonterminal are listed. -/
theorem unitPairs_exact (g : Grammar) :
    (∀ n m, (n, m) ∈ g.unitPairs ↔ n ∈ g.nonterminals ∧ g.UnitDerives n m) ∧
      ∀ listed : Int → List Int, (∀ k m, m ∈ listed k ↔ ∃ p ∈ g.productions, p.head = k ∧ p.body = [.nonterminal m]) →
        ∀ n ∈ g.nonterminals, ∃ t, Search.Finishes .depthFirst listed [n] t ∧ t.visited.Perm t.found ∧
          .ofList t.found = g.unitTargets n := by
  refine ⟨fun n m => ?_, fun listed hlisted n hn => ?_⟩
  · rw [mem_unitPairs]
    exact and_congr_right fun hn => mem_unitTargets_iff hn
  · refine exists_finishes_reach (fun _ _ => mem_nonterminals_of_mem_unitSuccessors) (fun k m => ?_) hn
    rw [hlisted, mem_unitSuccessors]

/-- Two nonterminals on a cycle derive each other, and one of them itself by a production too. A nonterminal without
productions derives itself. The search goes on in the other order than the productions. -/
theorem unitPairs_exact_chained :
    chained.unitPairs = [(0, 0), (0, 1), (1, 0), (1, 1), (2, 2), (2, 3), (3, 3)] ∧
      (1, 1) ∈ chained.unitPairs ∧ chained.UnitDerives 1 1 ∧ 0 ∈ chained.nonterminals ∧
      (∀ k m, m ∈ (chained.unitSuccessors k).reverse ↔
        ∃ p ∈ chained.productions, p.head = k ∧ p.body = [.nonterminal m]) ∧
      ∃ t, Search.Finishes .depthFirst (fun k => (chained.unitSuccessors k).reverse) [0] t ∧
        t.visited.Perm t.found ∧ .ofList t.found = OrderedSet.ofList [0, 1] := by
  obtain ⟨hpairs, hsearch⟩ := unitPairs_exact chained
  have hvalue : chained.unitPairs = [(0, 0), (0, 1), (1, 0), (1, 1), (2, 2), (2, 3), (3, 3)] := by decide +kernel
  have hmem : (1, 1) ∈ chained.unitPairs := by
    rw [hvalue]
    decide
  have hlisted : ∀ k m, m ∈ (chained.unitSuccessors k).reverse ↔
      ∃ p ∈ chained.productions, p.head = k ∧ p.body = [.nonterminal m] := by
    intro k m
    rw [List.mem_reverse, mem_unitSuccessors]
  have hstart : 0 ∈ chained.nonterminals := mem_nonterminals.mpr (.inl rfl)
  obtain ⟨t, hfinishes, hvisited, hfound⟩ := hsearch _ hlisted 0 hstart
  have htargets : chained.unitTargets 0 = .ofList [0, 1] := by decide +kernel
  exact ⟨hvalue, hmem, ((hpairs 1 1).mp hmem).2, hstart, hlisted, t, hfinishes, hvisited, hfound.trans htargets⟩

end Grammar

end FormalLang
