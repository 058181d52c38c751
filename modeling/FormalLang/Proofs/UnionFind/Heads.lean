import FormalLang.Proofs.UnionFind.Partition
import Mathlib.Data.Set.Card

/-!
# Counting classes

Every tree has one head, the item that is its own parent, and the heads stand for the classes. The count that is kept
beside the forest is the number of heads: a new item adds a head, a search keeps them all, and a union of two trees makes
one of the two heads point at the other.

* `UnionFind.Counted`: the count is the number of heads; `Counted.makeSet`, `Counted.find` and `Counted.union` keep it.
* `UnionFind.Partitions.ncard_parts`: there are as many classes as heads.
-/

namespace FormalLang

namespace UnionFind

variable {α : Type} [DecidableEq α] {u v : UnionFind α} {x y : α}

/-! ## Heads -/

/-- The heads of the trees, in the order in which they were entered. -/
def heads (u : UnionFind α) : List α := u.items.filter u.isHead

/-- The heads are the items that are their own roots. -/
theorem heads_eq (hu : u.Inv) : u.heads = u.items.filter fun x => u.root x = x := by
  refine List.filter_congr fun x hx => ?_
  rw [Bool.eq_iff_iff, isHead_iff, decide_eq_true_eq, root_eq_self_iff hu]
  exact and_iff_right hx

theorem mem_heads (hu : u.Inv) : x ∈ u.heads ↔ x ∈ u.items ∧ u.root x = x := by
  rw [heads_eq hu, List.mem_filter, decide_eq_true_eq]

theorem nodup_heads (u : UnionFind α) : u.heads.Nodup := u.parents.nodup.filter _

theorem heads_congr (hu : u.Inv) (hv : v.Inv) (hitems : v.items = u.items) (hroot : ∀ x, v.root x = u.root x) :
    v.heads = u.heads := by
  rw [heads_eq hu, heads_eq hv, hitems]
  exact List.filter_congr fun x _ => by rw [hroot]

/-! ## The count -/

/-- The count is the number of heads. -/
def Counted (u : UnionFind α) : Prop := u.count = u.heads.length

theorem counted_empty : (empty : UnionFind α).Counted := rfl

theorem Counted.makeSet (hu : u.Inv) (h : u.Counted) (x : α) : (u.makeSet x).Counted := by
  by_cases hx : x ∈ u.items
  · rwa [UnionFind.makeSet, if_pos (contains_iff_mem_items.mpr hx)]
  · have hitems : (u.makeSet x).items = u.items ++ [x] := by rw [items_makeSet, if_neg hx]
    have hroot : u.root x = x := (root_eq_self_iff hu).mpr (parent_of_notMem hx)
    have hheads : (u.makeSet x).heads = u.heads ++ [x] := by
      simp only [heads_eq (inv_makeSet hu x), heads_eq hu, hitems, root_makeSet hu, List.filter_append]
      simp [hroot]
    have hcount : (u.makeSet x).count = u.count + 1 := by
      rw [UnionFind.makeSet, if_neg fun h => hx (contains_iff_mem_items.mp h)]
    rw [Counted, hheads, hcount, List.length_append, h, List.length_singleton]

theorem count_find (u : UnionFind α) (x : α) : (u.find x).2.count = (u.makeSet x).count := by
  unfold UnionFind.find
  split
  · next h =>
    rw [UnionFind.makeSet, if_pos h]
    rfl
  · rfl

theorem Counted.find (hu : u.Inv) (h : u.Counted) (x : α) : (u.find x).2.Counted := by
  have hx := find_spec hu x
  have hheads : (u.find x).2.heads = (u.makeSet x).heads :=
    heads_congr (inv_makeSet hu x) hx.inv hx.items_eq fun y => by rw [hx.root_eq, root_makeSet hu]
  rw [Counted, hheads, count_find]
  exact h.makeSet hu x

/-- A link takes one head away. -/
theorem Counted.link {p c : α} (hu : u.Inv) (h : u.Counted) (hp : u.isHead p = true) (hc : u.isHead c = true)
    (hne : p ≠ c) (hr : u.rank c ≤ u.rank p) : (u.link p c).Counted := by
  obtain ⟨hpi, hpp⟩ := isHead_iff.mp hp
  obtain ⟨hci, hcc⟩ := isHead_iff.mp hc
  have hpr := (root_eq_self_iff hu).mpr hpp
  have hcr := (root_eq_self_iff hu).mpr hcc
  have hheads : (u.link p c).heads = u.heads.erase c := by
    rw [heads_eq (inv_link hpp hcc hne hu hpi hci hr), (nodup_heads u).erase_eq_filter, heads_eq hu, items_link hci,
      List.filter_filter]
    refine List.filter_congr fun x _ => ?_
    rw [root_link hpp hcc hne hu hpi hci hr]
    by_cases hxc : x = c
    · subst hxc
      simp [hcr, hne]
    · by_cases hx : u.root x = c
      · have hxp : p ≠ x := by
          rintro rfl
          exact hxc (hpr.symm.trans hx)
        simp [hx, hxp, Ne.symm hxc]
      · simp [hx, hxc]
  have hmem : c ∈ u.heads := (mem_heads hu).mpr ⟨hci, hcr⟩
  rw [Counted, hheads, List.length_erase_of_mem hmem, ← h]
  rfl

theorem Counted.union (hu : u.Inv) (h : u.Counted) (x y : α) : (u.union x y).2.Counted := by
  have hw := (h.find hu x).find (find_spec hu x).inv y
  rcases union_cases hu x y with ⟨-, he⟩ | ⟨-, p, c, -, hp, hc, hne, hr, he⟩
  · rwa [he]
  · rw [he]
    exact hw.link (compared_find hu x y).inv hp hc hne hr

/-! ## Heads and classes -/

namespace Partitions

variable {pairs : List (α × α)} (h : u.Partitions pairs)
include h

/-- There are as many classes as heads, since each class has one. -/
theorem ncard_parts : (parts pairs {x | x ∈ u.items}).ncard = u.heads.length := by
  have himage : parts pairs {x | x ∈ u.items} =
      (fun r => {y | y ∈ u.items ∧ Connected pairs r y}) '' (u.heads.toFinset : Set α) := by
    ext c
    constructor
    · rintro ⟨x, hx, rfl⟩
      refine ⟨u.root x, ?_, Set.ext fun y => and_congr_right fun _ => ?_⟩
      · rw [Finset.mem_coe, List.mem_toFinset, mem_heads h.inv]
        exact ⟨root_mem_items h.inv hx, (root_eq_self_iff h.inv).mpr (parent_root h.inv x)⟩
      · rw [← h.root_eq_iff, ← h.root_eq_iff, (root_eq_self_iff h.inv).mpr (parent_root h.inv x)]
    · rintro ⟨r, hr, rfl⟩
      rw [Finset.mem_coe, List.mem_toFinset, mem_heads h.inv] at hr
      exact ⟨r, hr.1, rfl⟩
  have hinj : Set.InjOn (fun r => {y | y ∈ u.items ∧ Connected pairs r y}) (u.heads.toFinset : Set α) := by
    intro r hr s hs he
    rw [Finset.mem_coe, List.mem_toFinset, mem_heads h.inv] at hr hs
    have hmem : s ∈ {y | y ∈ u.items ∧ Connected pairs r y} := by
      rw [show {y | y ∈ u.items ∧ Connected pairs r y} = _ from he]
      exact ⟨hs.1, .refl s⟩
    have hroot := (h.root_eq_iff r s).mpr hmem.2
    rwa [hr.2, hs.2] at hroot
  rw [himage, hinj.ncard_image, Set.ncard_coe_finset, List.toFinset_card_of_nodup (nodup_heads u)]

end Partitions

end UnionFind

end FormalLang
