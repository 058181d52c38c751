import FormalLang.Grammar.Analysis

/-!
# Simplified grammars

Productions that no derivation of a word can use are dropped, and unit productions are replaced by copies of what
they lead to.

* `Grammar.removeUseless`: first the productions with a nonterminal that derives no word are dropped, and then those
  with one that can no longer be reached. The other order would leave some.
* `Grammar.removeUnits`: the productions are grouped by head, and none is written twice.
* `Grammar.mem_retain`, `Grammar.mem_removeUnits`: the productions of the results.
-/

namespace FormalLang

namespace Grammar

/-! ## Useless productions -/

/-- Keep the productions whose nonterminals are all in a set. -/
def retain (g : Grammar) (keep : OrderedSet Int) : Grammar where
  start := g.start
  productions := g.productions.filter fun p => p.head ∈ keep && p.nonterminals.all (· ∈ keep)

/-- The grammar without the productions that derive no word. -/
def productive (g : Grammar) : Grammar := g.retain g.generators

/-- The grammar without useless productions. -/
def removeUseless (g : Grammar) : Grammar := g.productive.retain g.productive.reachable

theorem mem_retain {g : Grammar} {keep : OrderedSet Int} {p : Production} :
    p ∈ (g.retain keep).productions ↔
      p ∈ g.productions ∧ p.head ∈ keep ∧ ∀ n ∈ p.nonterminals, n ∈ keep := by
  simp [retain]

/-! ## Unit productions -/

/-- The productions of a nonterminal that are not unit productions. -/
def properProductions (g : Grammar) (n : Int) : List Production :=
  (g.productionsOf n).filter fun p => !p.isUnit

/-- The productions that replace those of `n`: its own ones first, and then those of the nonterminals that it derives
by unit productions, with `n` as head. -/
def expansion (g : Grammar) (n : Int) : List Production :=
  let others := (g.unitTargets n).filter (· ≠ n)
  let copies := others.toList.flatMap fun m => (g.properProductions m).map fun p => { p with head := n }
  (g.properProductions n ++ copies).eraseDups

/-- The grammar without unit productions. -/
def removeUnits (g : Grammar) : Grammar where
  start := g.start
  productions := g.nonterminals.toList.flatMap g.expansion

theorem mem_properProductions {g : Grammar} {n : Int} {p : Production} :
    p ∈ g.properProductions n ↔ (p ∈ g.productions ∧ p.head = n) ∧ p.isUnit = false := by
  simp [properProductions, mem_productionsOf]

theorem mem_expansion {g : Grammar} {n : Int} {p : Production} :
    p ∈ g.expansion n ↔ p.head = n ∧
      ∃ q, q.isUnit = false ∧ q ∈ g.productions ∧ q.body = p.body ∧
        (q.head = n ∨ q.head ∈ g.unitTargets n) := by
  simp only [expansion, List.mem_eraseDups, List.mem_append, List.mem_flatMap, List.mem_map,
    mem_properProductions, ← OrderedSet.mem_def, OrderedSet.mem_filter, decide_eq_true_eq]
  constructor
  · rintro (⟨⟨hp, rfl⟩, hu⟩ | ⟨m, ⟨hm, _⟩, q, ⟨⟨hq, rfl⟩, hu⟩, rfl⟩)
    · exact ⟨rfl, p, hu, hp, rfl, .inl rfl⟩
    · exact ⟨rfl, q, hu, hq, rfl, .inr hm⟩
  · rintro ⟨rfl, q, hu, hq, hb, h⟩
    by_cases hn : q.head = p.head
    · obtain rfl : q = p := by cases q; cases p; simp_all
      exact .inl ⟨⟨hq, rfl⟩, hu⟩
    · refine .inr ⟨q.head, ⟨h.resolve_left hn, hn⟩, q, ⟨⟨hq, rfl⟩, hu⟩, ?_⟩
      rw [hb]

theorem mem_removeUnits {g : Grammar} {p : Production} :
    p ∈ g.removeUnits.productions ↔ p.head ∈ g.nonterminals ∧ p ∈ g.expansion p.head := by
  simp only [removeUnits, List.mem_flatMap, ← OrderedSet.mem_def]
  constructor
  · rintro ⟨n, hn, hp⟩
    obtain rfl := (mem_expansion.mp hp).1
    exact ⟨hn, hp⟩
  · rintro ⟨hn, hp⟩
    exact ⟨_, hn, hp⟩

end Grammar

end FormalLang
