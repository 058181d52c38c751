import FormalLang.Proofs.UnionFind.History
import FormalLang.Proofs.UnionFind.Strict

/-!
# Ranks of union-find

A head of rank `r` has at least `2 ^ r` items below it. Its rank grows only when the tree of another head of the same rank,
which has as many items, comes under it. So ranks are small, and since they rise on the way up, trees are flat. Path
compression changes neither ranks nor which items are below a head; the ranks of the items below it are left as they are.

* `UnionFind.Walks`: the way up without a bound on its length; `Walks.add_length_le` bounds it by ranks.
* `UnionFind.Weighty`: the sizes of the trees; `Weighty.makeSet`, `Weighty.find` and `Weighty.union` keep it.
* `UnionFind.Balanced`: what every operation keeps.
* `UnionFind.run_balanced`: ranks, counts and ways up after any history.
-/

namespace FormalLang

namespace UnionFind

variable {α : Type} [DecidableEq α] {u v : UnionFind α} {x y r : α} {l : List α}

/-! ## The way up -/

/-- A walk from an item along the parents, which goes on until an item is its own parent. A parent that is missing is not
passed over. -/
inductive Walks (u : UnionFind α) : α → List α → Prop where
  | root {x : α} : u.parents.get? x = some x → Walks u x [x]
  | step {x y : α} {l : List α} : u.parents.get? x = some y → y ≠ x → Walks u y l → Walks u x (x :: l)

theorem mem_items_of_get?_parents (h : u.parents.get? x = some y) : x ∈ u.items := Table.get?_isSome_iff.mp (h ▸ rfl)

theorem parent_eq_of_get?_parents (h : u.parents.get? x = some y) : u.parent x = y := by
  rw [parent, Table.getD, h, Option.getD_some]

namespace Walks

theorem unique {m : List α} (h : u.Walks x l) (k : u.Walks x m) : l = m := by
  induction h generalizing m with
  | root hx =>
    cases k with
    | root => rfl
    | step hy hne => exact absurd (Option.some.inj (hy.symm.trans hx)) hne
  | step hy hne _ ih =>
    cases k with
    | root hx => exact absurd (Option.some.inj (hy.symm.trans hx)) hne
    | step hy' _ k =>
      obtain rfl := Option.some.inj (hy.symm.trans hy')
      rw [ih k]

/-- Each step of a walk is a step up in rank. -/
theorem add_length_le (hu : u.Inv) (h : u.Walks x l) (hr : l.getLast? = some r) : u.rank x + l.length ≤ u.rank r + 1 := by
  induction h with
  | root =>
    obtain rfl := Option.some.inj hr
    exact Nat.le_refl _
  | @step x y l hy hne hl ih =>
    have hparent := parent_eq_of_get?_parents hy
    have hlt := hu.rank_lt x (hparent ▸ hne)
    have hlast : l.getLast? = some r := by
      cases hl <;> simpa using hr
    have := ih hlast
    rw [hparent] at hlt
    rw [List.length_cons]
    omega

end Walks

theorem walks_of_ascent? {n : Nat} (h : u.ascent? n x = some l) : u.Walks x l := by
  induction n generalizing x l with
  | zero =>
    rw [ascent?] at h
    contradiction
  | succ n ih =>
    unfold ascent? at h
    cases hy : u.parents.get? x with
    | none =>
      rw [hy] at h
      contradiction
    | some y =>
      rw [hy] at h
      dsimp only at h
      by_cases hyx : y = x
      · rw [if_pos hyx] at h
        obtain rfl := Option.some.inj h
        exact .root (hyx ▸ hy)
      · rw [if_neg hyx] at h
        obtain ⟨m, hm, rfl⟩ := Option.map_eq_some_iff.mp h
        exact .step hy hyx (ih hm)

/-- The way up from an item ends, at its root. -/
theorem walks_path (hu : u.Inv) (hx : x ∈ u.items) : u.Walks x (u.path x) :=
  walks_of_ascent? (ascent?_eq_some hu hx (length_path_le hu hx))

theorem getLast?_path (hu : u.Inv) (hx : x ∈ u.items) : (u.path x).getLast? = some (u.root x) := by
  have hne : u.path x ≠ [] := by
    cases hl : u.path x <;> cases hl ▸ walks_path hu hx <;> simp
  rw [root, List.getLast?_eq_some_getLast hne]
  rfl

/-! ## The sizes of trees -/

/-- The number of items with the given root. -/
def weight (u : UnionFind α) (r : α) : Nat := u.items.countP (u.root · = r)

/-- A head of rank `r` is the root of at least `2 ^ r` items. -/
def Weighty (u : UnionFind α) : Prop := ∀ x ∈ u.items, u.root x = x → 2 ^ u.rank x ≤ u.weight x

theorem weighty_empty : (empty : UnionFind α).Weighty := fun _ hx => absurd hx List.not_mem_nil

theorem weight_le_size (u : UnionFind α) (x : α) : u.weight x ≤ u.size := by
  have hsize : u.items.length = u.size := List.length_map _
  exact hsize ▸ List.countP_le_length

theorem rank_find (u : UnionFind α) (x y : α) : (u.find x).2.rank y = (u.makeSet x).rank y := by
  unfold find
  split
  · next h =>
    rw [makeSet, if_pos h]
    rfl
  · rfl

namespace Weighty

/-- Only items, roots and ranks count. -/
theorem congr (h : u.Weighty) (hitems : v.items = u.items) (hroot : ∀ x, v.root x = u.root x)
    (hrank : ∀ x, v.rank x = u.rank x) : v.Weighty := by
  intro x hx hxr
  rw [hitems] at hx
  rw [hroot] at hxr
  rw [hrank, weight, hitems, funext hroot]
  exact h x hx hxr

theorem makeSet (hu : u.Inv) (h : u.Weighty) (x : α) : (u.makeSet x).Weighty := by
  by_cases hx : x ∈ u.items
  · rwa [UnionFind.makeSet, if_pos (contains_iff_mem_items.mpr hx)]
  · have hitems : (u.makeSet x).items = u.items ++ [x] := by rw [items_makeSet, if_neg hx]
    have hself : u.root x = x := (root_eq_self_iff hu).mpr (parent_of_notMem hx)
    intro y hy hyr
    rw [root_makeSet hu] at hyr
    have hweight : (u.makeSet x).weight y = u.weight y + if x = y then 1 else 0 := by
      simp [weight, hitems, funext (root_makeSet hu x), List.countP_cons, hself]
    rw [hweight]
    rcases mem_items_makeSet.mp hy with hy | rfl
    · rw [rank_makeSet_of_mem hy]
      exact Nat.le_add_right_of_le (h y hy hyr)
    · have hrank : (u.makeSet y).rank y = 0 := by
        rw [UnionFind.makeSet, if_neg fun h => hx (contains_iff_mem_items.mp h), rank, Table.getD, Table.get?_insert,
          if_pos rfl, Option.getD_some]
      rw [hrank, if_pos rfl]
      exact Nat.le_add_left _ _

theorem find (hu : u.Inv) (h : u.Weighty) (x : α) : (u.find x).2.Weighty := by
  have hx := find_spec hu x
  exact (h.makeSet hu x).congr hx.items_eq (fun y => (hx.root_eq y).trans (root_makeSet hu x y).symm) (rank_find u x)

end Weighty

/-! ### Links -/

section Link

variable {p c : α} (hu : u.Inv) (hp : u.isHead p = true) (hc : u.isHead c = true) (hne : p ≠ c) (hr : u.rank c ≤ u.rank p)
include hu hp hc hne hr

theorem weight_link (x : α) : (u.link p c).weight x = u.items.countP fun y => (if u.root y = c then p else u.root y) = x := by
  obtain ⟨hpi, hpp⟩ := isHead_iff.mp hp
  obtain ⟨hci, hcc⟩ := isHead_iff.mp hc
  rw [weight, items_link hci, funext (root_link hpp hcc hne hu hpi hci hr)]

theorem weight_link_self : (u.link p c).weight p = u.weight p + u.weight c := by
  rw [weight_link hu hp hc hne hr, weight, weight]
  generalize u.items = l
  induction l with
  | nil => rfl
  | cons y l ih =>
    simp only [List.countP_cons, ih]
    by_cases hy : u.root y = c
    · simp [hy, Ne.symm hne, Nat.add_assoc]
    · simp [hy]
      omega

theorem weight_link_of_ne (hxp : x ≠ p) (hxc : x ≠ c) : (u.link p c).weight x = u.weight x := by
  rw [weight_link hu hp hc hne hr]
  refine List.countP_congr fun y _ => ?_
  rw [decide_eq_true_eq, decide_eq_true_eq]
  split
  · next hy => exact iff_of_false (Ne.symm hxp) (hy ▸ Ne.symm hxc)
  · exact Iff.rfl

/-- If the rank of the head that takes another tree grows, the other tree is of the same rank, and so the number of items
that the rank asks for doubles. -/
theorem Weighty.link (h : u.Weighty) : (u.link p c).Weighty := by
  obtain ⟨hpi, hpp⟩ := isHead_iff.mp hp
  obtain ⟨hci, hcc⟩ := isHead_iff.mp hc
  have hpw := h p hpi ((root_eq_self_iff hu).mpr hpp)
  have hcw := h c hci ((root_eq_self_iff hu).mpr hcc)
  intro x hx hxr
  rw [items_link hci] at hx
  rw [root_link hpp hcc hne hu hpi hci hr] at hxr
  rw [rank_link]
  by_cases hxp : x = p
  · subst hxp
    rw [weight_link_self hu hp hc hne hr]
    split
    · next heq =>
      rw [← heq.1] at hcw
      rw [Nat.pow_succ]
      omega
    · omega
  · have hxc : x ≠ c := by
      rintro rfl
      rw [(root_eq_self_iff hu).mpr hcc, if_pos rfl] at hxr
      exact hxp hxr.symm
    have hself : u.root x = x := by
      split at hxr
      · exact absurd hxr.symm hxp
      · exact hxr
    rw [weight_link_of_ne hu hp hc hne hr hxp hxc, if_neg fun h => hxp h.2]
    exact h x hx hself

end Link

theorem Weighty.union (hu : u.Inv) (h : u.Weighty) (x y : α) : (u.union x y).2.Weighty := by
  have hw := (h.find hu x).find (find_spec hu x).inv y
  rcases union_cases hu x y with ⟨-, he⟩ | ⟨-, p, c, -, hp, hc, hne, hr, he⟩
  · rwa [he]
  · rw [he]
    exact hw.link (compared_find hu x y).inv hp hc hne hr

/-! ## Histories -/

/-- What every operation keeps: ranks rise along the parents, every item has one, and trees are as heavy as the ranks of
their heads ask for. -/
structure Balanced (u : UnionFind α) : Prop where
  inv : u.Inv
  ranked : u.Ranked
  weighty : u.Weighty

namespace Balanced

theorem apply (h : u.Balanced) (o : Operation α) : (u.apply o).Balanced := by
  cases o with
  | makeSet x => exact ⟨inv_makeSet h.inv x, h.ranked.makeSet x, h.weighty.makeSet h.inv x⟩
  | find x => exact ⟨(find_spec h.inv x).inv, h.ranked.find h.inv x, h.weighty.find h.inv x⟩
  | union x y => exact ⟨(union_spec h.inv x y).inv, h.ranked.union h.inv x y, h.weighty.union h.inv x y⟩

theorem run (ops : List (Operation α)) : (run ops).Balanced :=
  List.foldlRecOn (motive := Balanced) ops _ ⟨inv_empty, ranked_empty, weighty_empty⟩ fun _ h o _ => h.apply o

/-- No item has a rank above that of its root, whose tree is no heavier than the forest. -/
theorem rank_le (h : u.Balanced) (hx : x ∈ u.items) : u.rank x ≤ Nat.log2 u.size := by
  have hroot := root_mem_items h.inv hx
  have hheavy : 2 ^ u.rank (u.root x) ≤ u.size :=
    (h.weighty _ hroot ((root_eq_self_iff h.inv).mpr (parent_root h.inv x))).trans (weight_le_size u _)
  have hle : u.rank x ≤ u.rank (u.root x) := by
    by_cases hne : x = u.root x
    · rw [← hne]
    · exact ((climbs_root h.inv x).rank_lt h.inv hne).le
  have hsize : u.size ≠ 0 := by
    have := Nat.one_le_two_pow (n := u.rank (u.root x))
    omega
  exact hle.trans ((Nat.le_log2 hsize).mpr hheavy)

end Balanced

/-- The tree of a head has the items to which the merged pairs connect it. -/
theorem Partitions.weight_eq {pairs : List (α × α)} (h : u.Partitions pairs) (hx : u.root x = x) :
    u.weight x = {y | y ∈ u.items ∧ Connected pairs x y}.ncard := by
  have hnodup : (u.items.filter (u.root · = x)).Nodup := u.parents.nodup.filter _
  have hset : {y | y ∈ u.items ∧ Connected pairs x y} = ((u.items.filter (u.root · = x)).toFinset : Set α) := by
    ext y
    rw [Finset.mem_coe, List.mem_toFinset, List.mem_filter, decide_eq_true_eq, Set.mem_ofPred_eq, ← h.root_eq_iff, hx,
      eq_comm]
  rw [hset, Set.ncard_coe_finset, List.toFinset_card_of_nodup hnodup, weight, List.countP_eq_length_filter]

/-- The items on the way up from an item point at its root after a search. -/
theorem get?_parents_find (hx : x ∈ u.items) (hy : y ∈ u.path x) : (u.find x).2.parents.get? y = some (u.root x) := by
  rw [find, if_pos (contains_iff_mem_items.mpr hx), parents_redirect_get?, if_pos hy]

/-- There is one way up from an item, with no more steps than the rank of its root. -/
theorem Balanced.exists_walk (h : u.Balanced) (hx : x ∈ u.items) :
    ∃ l r, (∀ m, u.Walks x m ↔ m = l) ∧ l.length ≤ Nat.log2 u.size + 1 ∧ l.getLast? = some r ∧ (u.find x).1 = r ∧
      ∀ y ∈ l, (u.find x).2.parents.get? y = some r := by
  have hwalk := walks_path h.inv hx
  have hlast := getLast?_path h.inv hx
  refine ⟨_, _, fun m => ⟨fun hm => hm.unique hwalk, fun hm => hm ▸ hwalk⟩, ?_, hlast, (find_spec h.inv x).answer_eq,
    fun y => get?_parents_find hx⟩
  have hlength := hwalk.add_length_le h.inv hlast
  have hrank := h.rank_le (root_mem_items h.inv hx)
  omega

theorem find_of_notMem (hx : x ∉ u.items) : (u.find x).1 = x ∧ (u.find x).2.parents.get? x = some x := by
  have hnew : ¬ u.parents.contains x = true := fun hc => hx (contains_iff_mem_items.mp hc)
  rw [find, if_neg hnew, makeSet, if_neg hnew]
  exact ⟨rfl, by rw [Table.get?_insert, if_pos rfl]⟩

/-- After any operations, ranks rise along every parent but that of a root. A root of rank `r` stands for at least `2 ^ r`
items, no rank is above the logarithm of the number of items, and the count is the number of items that are their own parents.
From an item there is one way up, with no more steps than that logarithm; it ends at the root that is found, and the
items on it point at that root after the search. An item that is new is its own root. -/
theorem run_balanced (ops : List (Operation α)) :
    (∀ x y, (run ops).parents.get? x = some y → y ≠ x →
      ∃ i j, (run ops).ranks.get? x = some i ∧ (run ops).ranks.get? y = some j ∧ i < j) ∧
    (∀ x, (run ops).parents.get? x = some x →
      ∃ r, (run ops).ranks.get? x = some r ∧ 2 ^ r ≤ {y | y ∈ mentioned ops ∧ Connected (merged ops) x y}.ncard) ∧
    (∀ x ∈ mentioned ops, ∃ r, (run ops).ranks.get? x = some r ∧ r ≤ Nat.log2 (run ops).size) ∧
    (run ops).count = (run ops).items.countP (fun x => (run ops).parents.get? x = some x) ∧
    (∀ x ∈ mentioned ops, ∃ l r, (∀ m, (run ops).Walks x m ↔ m = l) ∧ l.length ≤ Nat.log2 (run ops).size + 1 ∧
      l.getLast? = some r ∧ ((run ops).find x).1 = r ∧ ∀ y ∈ l, ((run ops).find x).2.parents.get? y = some r) ∧
    ∀ x ∉ mentioned ops, ((run ops).find x).1 = x ∧ ((run ops).find x).2.parents.get? x = some x := by
  have h := describes_run ops
  have hb := Balanced.run ops
  refine ⟨fun x y hxy hne => ?_, fun x hxx => ?_, fun x hx => ?_, ?_, fun x hx => hb.exists_walk ((h.mem_items x).mpr hx),
    fun x hx => find_of_notMem fun hi => hx ((h.mem_items x).mp hi)⟩
  · have hx := mem_items_of_get?_parents hxy
    obtain rfl := parent_eq_of_get?_parents hxy
    exact ⟨_, _, get?_ranks hb.ranked hx, get?_ranks hb.ranked (hb.inv.parent_mem x hx), hb.inv.rank_lt x hne⟩
  · have hx := mem_items_of_get?_parents hxx
    have hroot := (root_eq_self_iff hb.inv).mpr (parent_eq_of_get?_parents hxx)
    have hset : {y | y ∈ mentioned ops ∧ Connected (merged ops) x y} =
        {y | y ∈ (run ops).items ∧ Connected (merged ops) x y} :=
      Set.ext fun y => and_congr_left' (h.mem_items y).symm
    refine ⟨_, get?_ranks hb.ranked hx, ?_⟩
    rw [hset, ← h.partitions.weight_eq hroot]
    exact hb.weighty x hx hroot
  · have hx := (h.mem_items x).mpr hx
    exact ⟨_, get?_ranks hb.ranked hx, hb.rank_le hx⟩
  · rw [h.counted, List.countP_eq_length_filter]
    rfl

/-- Two pairs, and then a union of the pairs: the two roots have one rank, and the way up from the last item has three items. -/
def pairedOperations : List (Operation Nat) := [.union 1 2, .union 3 4, .union 2 4]

/-- The root has rank 2 and stands for at least 4 items, and the last item points at it after it was searched for. -/
theorem run_balanced_pairedOperations :
    4 ≤ {y | y ∈ mentioned pairedOperations ∧ Connected (merged pairedOperations) 1 y}.ncard ∧
      (run pairedOperations).parents.get? 4 = some 3 ∧ (run pairedOperations).Walks 4 [4, 3, 1] ∧
      ((run pairedOperations).find 4).2.parents.get? 4 = some 1 := by
  obtain ⟨-, hweight, -, -, hwalks, -⟩ := run_balanced pairedOperations
  obtain ⟨r, hr, hle⟩ := hweight 1 (by decide)
  obtain ⟨l, s, hl, -, hlast, -, hfind⟩ := hwalks 4 (by decide)
  have hwalk : (run pairedOperations).Walks 4 [4, 3, 1] :=
    .step (by decide : _ = some 3) (by decide) (.step (by decide : _ = some 1) (by decide) (.root (by decide)))
  obtain rfl := (hl _).mp hwalk
  obtain rfl := Option.some.inj hlast
  have hrank : (run pairedOperations).ranks.get? 1 = some 2 := by decide
  obtain rfl := Option.some.inj (hr.symm.trans hrank)
  exact ⟨hle, by decide, hwalk, hfind 4 (by decide)⟩

end UnionFind

end FormalLang
