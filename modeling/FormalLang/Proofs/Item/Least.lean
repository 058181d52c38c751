import FormalLang.Proofs.Grammar.History
import FormalLang.Proofs.Item.Shift
import Mathlib.Order.Bounds.Basic

/-!
# Closures are least sets

The visits of a closure go on until nothing waits, in whatever order the items are given. They skip the nonterminals and
lookaheads that have been met, which loses nothing: what was predicted then is still there, even if it was given and is not
visited again. So the closure holds what the items lead to, and every set that holds the items and what its own items
predict holds it too.

* `Grammar.Visits`: the visits without a bound.
* `Grammar.visits_of_runs`: they are those of a search along the predictions, in which no nonterminal is skipped.
* `Grammar.isLeast_closedSet`: the closure is the least set that holds all that its items predict.
* `Grammar.closedSet_closedSet`, `closedSet_union`: closures of closures and of unions.
* `Grammar.closure_isLeast`: the closure of a grammar, whatever is remembered of it.
-/

namespace FormalLang

open FirstFollow Relation

variable {g : Grammar} {i : Item} {s s' : ItemSet} {f : FirstFollow} {found waiting : List Item} {t : Search.Trace Item}

/-- An item with exactly one dot fits the grammar that its nonterminals are those of. -/
theorem Item.HasOneDot.fits (h : i.HasOneDot) (hn : ∀ n, Letter.nonterminal n ∈ i.body → n ∈ g.nonterminals) :
    i.Fits g where
  hasDot := Item.hasDot_iff.mpr (List.count_pos_iff.mp (h ▸ Nat.one_pos))
  mem_nonterminals := hn

namespace Grammar

/-! ## Visits without a bound -/

/-- The visits of a closure, which go on until nothing waits. A visited item has no fault. What it demands and has not been
met is entered, and the items found by this wait. -/
inductive Visits (g : Grammar) (f : FirstFollow) :
    List (Int × Option Symbol) → List Item → List Item → Search.Trace Item → Prop where
  | stop (met : List (Int × Option Symbol)) (found : List Item) : Visits g f met found [] ⟨found, []⟩
  | visit {met new : List (Int × Option Symbol)} {found waiting fresh : List Item} {i : Item}
      {demands : List (Int × Option Symbol)} {t : Search.Trace Item} :
      i.demands f = .ok demands → new = Search.unseen met demands →
      fresh = Search.unseen found (new.flatMap g.initialItems) →
      Visits g f (met ++ new) (found ++ fresh) (fresh.reverse ++ waiting) t →
      Visits g f met found (i :: waiting) ⟨t.found, i :: t.visited⟩

/-- The visits are those of a search along the predictions, if no visited item has a fault. -/
theorem visits_of_runs (h : Search.Runs .depthFirst (Item.predicted g f) found waiting t)
    (hfault : ∀ i ∈ t.visited, i.fault? f = none) {met : List (Int × Option Symbol)}
    (hmet : ∀ d ∈ met, g.initialItems d ⊆ found) : g.Visits f met found waiting t := by
  induction h generalizing met with
  | stop found => exact .stop met found
  | @visit found waiting i t _ ih =>
    obtain ⟨hi, hrest⟩ := List.forall_mem_cons.mp hfault
    obtain ⟨l, hl⟩ := Item.exists_demands_of_fault? hi
    have hdemanded : i.demanded f = l := by rw [Item.demanded, hl]; rfl
    refine .visit hl rfl rfl ?_
    rw [← hdemanded]
    rw [← unseen_initialItems hmet] at ih
    exact ih hrest (initialItems_subset_of_met hmet _)

/-- However the items are listed, the visits come to an end, and find the closure. -/
theorem exists_visits (hs : ∀ i ∈ s, i.Fits g) {l : List Item} (hl : l.Nodup) (hmem : ∀ i, i ∈ l ↔ i ∈ s) :
    ∃ t, g.Visits (ofGrammar g) [] l l.reverse t ∧ OrderedSet.ofList t.found = g.closedSet s := by
  have hsub : ∀ i ∈ l, i ∈ s := fun i hi => (hmem i).mp hi
  have hfinishes := finishes_predicted (g := g) (ofGrammar g) hsub
  have hreach : ∀ i, Search.Reach (Item.predicted g (ofGrammar g)) l i ↔ i ∈ g.closedSet s := by
    intro i
    rw [mem_closedSet_iff hs, ← reach_predicted_iff hs]
    exact Search.reach_congr hmem fun _ _ => Iff.rfl
  have hfault : ∀ i ∈ (search .depthFirst (Item.predicted g (ofGrammar g)) (g.itemBound (ofGrammar g) s) l).visited,
      i.fault? (ofGrammar g) = none := by
    intro i hi
    have hfound := (mem_found_iff (ofGrammar g) hsub).mp (hfinishes.visited_perm.mem_iff.mp hi)
    exact Item.fault?_eq_none (fits_of_mem_closedSet hs ((hreach i).mp hfound))
  have hunseen : Search.unseen [] l = l := Search.unseen_eq_self hl fun _ _ => List.not_mem_nil
  rw [Search.Finishes, hunseen, Search.Discipline.enqueue, List.append_nil] at hfinishes
  refine ⟨_, visits_of_runs hfinishes hfault fun d hd => absurd hd List.not_mem_nil, OrderedSet.ext fun i => ?_⟩
  rw [OrderedSet.mem_ofList, mem_found_iff (ofGrammar g) hsub, hreach]

/-! ## Least sets -/

/-- The sets that hold the given items and all that their own items predict. -/
def closedSupersets (g : Grammar) (s : ItemSet) : Set (Set Item) :=
  {T | (∀ i ∈ s, i ∈ T) ∧ ∀ i ∈ T, ∀ j, g.Predicts i j → j ∈ T}

/-- The closure is the least set that holds the items and all that its own items predict. -/
theorem isLeast_closedSet (hs : ∀ i ∈ s, i.Fits g) : IsLeast (g.closedSupersets s) {i | i ∈ g.closedSet s} := by
  have hmem : ∀ i, i ∈ {i | i ∈ g.closedSet s} ↔ ∃ i₀ ∈ s, ReflTransGen g.Predicts i₀ i := by
    intro i
    rw [Set.mem_ofPred_eq, mem_closedSet_iff hs]
  generalize {i | i ∈ g.closedSet s} = T at hmem ⊢
  refine ⟨⟨fun i hi => (hmem i).mpr ⟨i, hi, .refl⟩, fun i hi j hj => ?_⟩, fun T' hT' i hi => ?_⟩
  · obtain ⟨i₀, hi₀, h⟩ := (hmem i).mp hi
    exact (hmem j).mpr ⟨i₀, hi₀, h.tail hj⟩
  · obtain ⟨i₀, hi₀, h⟩ := (hmem i).mp hi
    clear hi
    induction h with
    | refl => exact hT'.1 i₀ hi₀
    | tail _ hj ih => exact hT'.2 _ ih _ hj

/-- A closure is its own closure. -/
theorem closedSet_closedSet (hs : ∀ i ∈ s, i.Fits g) : g.closedSet (g.closedSet s) = g.closedSet s :=
  IsClosed.closedSet_eq (isClosed_closedSet hs) fun _ hi => fits_of_mem_closedSet hs hi

/-- What a union leads to is what its parts lead to. -/
theorem closedSet_union (hs : ∀ i ∈ s, i.Fits g) (hs' : ∀ i ∈ s', i.Fits g) :
    g.closedSet (s.union s') = (g.closedSet s).union (g.closedSet s') := by
  have hunion : ∀ i ∈ s.union s', i.Fits g := fun i hi => (OrderedSet.mem_union.mp hi).elim (hs i) (hs' i)
  refine OrderedSet.ext fun i => ?_
  rw [OrderedSet.mem_union, mem_closedSet_iff hunion, mem_closedSet_iff hs, mem_closedSet_iff hs']
  simp only [OrderedSet.mem_union, or_and_right, exists_or]

/-- The closure of items that fit the grammar, such as those with one dot and its nonterminals, exists. It is the least set
that holds the items and all that its own items predict, and it is its own closure. The closure of a union is the union
of the closures. The visits end, and find the closure in whatever order the items are listed. What is kept of the tables, if
anything is, has to be that of the grammar. -/
theorem closure_isLeast (hs : ∀ i ∈ s, i.Fits g) (hs' : ∀ i ∈ s', i.Fits g) :
    ∃ t t', IsLeast (g.closedSupersets s) {i | i ∈ t} ∧ IsLeast (g.closedSupersets s') {i | i ∈ t'} ∧
      (∀ m : Memo, m.Coherent → m.grammar = g → (m.closure s).1 = .ok t ∧ (m.closure s').1 = .ok t' ∧
        (m.closure t).1 = .ok t ∧ (m.closure (s.union s')).1 = .ok (t.union t')) ∧
      ∀ l : List Item, l.Nodup → (∀ i, i ∈ l ↔ i ∈ s) →
        ∃ trace, g.Visits (ofGrammar g) [] l l.reverse trace ∧ OrderedSet.ofList trace.found = t := by
  refine ⟨g.closedSet s, g.closedSet s', isLeast_closedSet hs, isLeast_closedSet hs', fun m hm hg => ?_,
    fun l hl hmem => exists_visits hs hl hmem⟩
  subst hg
  have hclosed : ∀ i ∈ m.grammar.closedSet s, i.Fits m.grammar := fun _ hi => fits_of_mem_closedSet hs hi
  have hunion : ∀ i ∈ s.union s', i.Fits m.grammar := fun i hi => (OrderedSet.mem_union.mp hi).elim (hs i) (hs' i)
  refine ⟨?_, ?_, ?_, ?_⟩
  · exact hm.closure_eq_ok hs
  · exact hm.closure_eq_ok hs'
  · rw [hm.closure_eq_ok hclosed, closedSet_closedSet hs]
  · rw [hm.closure_eq_ok hunion, closedSet_union hs hs']

/-- A nonterminal that begins with itself, followed by one that can only vanish. -/
def leftRecursive : Grammar where
  start := 0
  productions := [⟨0, [.nonterminal 0, .nonterminal 1, .terminal "a"]⟩, ⟨0, [.terminal "b"]⟩, ⟨1, [.terminal epsilon]⟩]

/-- A whole after which the end comes, one of which nothing is known, and an item that the first one leads to. -/
def leftRecursiveItems : ItemSet := OrderedSet.ofList
  [⟨2, [dot, .nonterminal 0, .nonterminal 1], some endMarker⟩, ⟨2, [dot, .nonterminal 0], none⟩,
    ⟨0, [dot, .nonterminal 0, .nonterminal 1, .terminal "a"], some "a"⟩]

/-- The items that begin the productions of the start, with a lookahead. -/
def leftRecursiveStarts (a : Option Symbol) : ItemSet :=
  OrderedSet.ofList [⟨0, [dot, .nonterminal 0, .nonterminal 1, .terminal "a"], a⟩, ⟨0, [dot, .terminal "b"], a⟩]

/-- An item before a nonterminal that can only vanish. -/
def vanishingItems : ItemSet := OrderedSet.singleton ⟨0, [.terminal "b", dot, .nonterminal 1], some "c"⟩

/-- The end is inherited where what follows vanishes, the recursion adds "a", and items without a lookahead are kept
apart. -/
theorem closure_isLeast_leftRecursive :
    (∀ i ∈ leftRecursiveItems, i.Fits leftRecursive) ∧ (∀ i ∈ vanishingItems, i.Fits leftRecursive) ∧
      ∃ t t' : ItemSet, IsLeast (leftRecursive.closedSupersets leftRecursiveItems) {i | i ∈ t} ∧
        t = OrderedSet.unions [leftRecursiveItems, leftRecursiveStarts (some endMarker), leftRecursiveStarts (some "a"),
          leftRecursiveStarts none] ∧
        t' = vanishingItems.insert ⟨1, [dot], some "c"⟩ ∧ (({ grammar := leftRecursive } : Memo).closure t).1 = .ok t := by
  have hs : ∀ i ∈ leftRecursiveItems, i.Fits leftRecursive := by
    intro i hi
    obtain rfl | rfl | rfl : i = ⟨2, [dot, .nonterminal 0, .nonterminal 1], some endMarker⟩ ∨
        i = ⟨2, [dot, .nonterminal 0], none⟩ ∨
        i = ⟨0, [dot, .nonterminal 0, .nonterminal 1, .terminal "a"], some "a"⟩ := by
      simpa [leftRecursiveItems] using hi
    all_goals exact Item.HasOneDot.fits (by unfold Item.HasOneDot; decide) (by simp [dot]; decide)
  have hs' : ∀ i ∈ vanishingItems, i.Fits leftRecursive := by
    intro i hi
    obtain rfl := OrderedSet.mem_singleton.mp hi
    exact Item.HasOneDot.fits (by unfold Item.HasOneDot; decide) (by simp [dot]; decide)
  obtain ⟨t, t', hleast, -, hclosure, -⟩ := closure_isLeast hs hs'
  obtain ⟨ht, ht', hidempotent, -⟩ := hclosure { grammar := leftRecursive } (Memo.coherent_fresh _) rfl
  have hvalue : (({ grammar := leftRecursive } : Memo).closure leftRecursiveItems).1 =
      .ok (OrderedSet.unions [leftRecursiveItems, leftRecursiveStarts (some endMarker), leftRecursiveStarts (some "a"),
        leftRecursiveStarts none]) := by decide +kernel
  have hvalue' : (({ grammar := leftRecursive } : Memo).closure vanishingItems).1 =
      .ok (vanishingItems.insert ⟨1, [dot], some "c"⟩) := by decide +kernel
  exact ⟨hs, hs', t, t', hleast, Except.ok.inj (ht.symm.trans hvalue), Except.ok.inj (ht'.symm.trans hvalue'), hidempotent⟩

end Grammar

end FormalLang
