import FormalLang.Proofs.UnionFind.Partition
import FormalLang.UnionFind.Strict

/-!
# Strict union-find never fails

The parents of items are items, and every item has a rank. So whatever is looked up on the way from an item to its root, and at
the two roots of a union, is there. Ranks grow on the way up, so it ends.

* `UnionFind.Ranked`: every item has a rank; `Ranked.find`, `Ranked.union` keep it.
* `UnionFind.find?_eq_some`, `union?_eq_some`: the strict operations do what the others do.
-/

namespace FormalLang

namespace UnionFind

variable {α : Type} [DecidableEq α] {u : UnionFind α} {x y : α} {l : List α}

/-- Every item has a rank. -/
def Ranked (u : UnionFind α) : Prop := ∀ x ∈ u.items, ∃ k, u.ranks.get? x = some k

theorem ranked_empty : (empty : UnionFind α).Ranked := fun _ hx => absurd hx List.not_mem_nil

namespace Ranked

theorem makeSet (h : u.Ranked) (x : α) : (u.makeSet x).Ranked := by
  unfold UnionFind.makeSet
  split
  · exact h
  · intro y hy
    have hy : y ∈ (u.parents.insert x x).keys := hy
    show ∃ k, (u.ranks.insert x 0).get? y = some k
    rw [Table.get?_insert]
    split
    · exact ⟨0, rfl⟩
    · next hne =>
      refine h y ?_
      rw [Table.keys_insert] at hy
      split at hy
      · exact hy
      · exact (List.mem_append.mp hy).resolve_right fun h => hne (List.mem_singleton.mp h)

theorem ofList (l : List α) : (UnionFind.ofList l).Ranked :=
  List.foldlRecOn (motive := Ranked) l _ ranked_empty fun _ h x _ => h.makeSet x

theorem find (hu : u.Inv) (h : u.Ranked) (x : α) : (u.find x).2.Ranked := by
  unfold UnionFind.find
  split
  · next hx =>
    have hitems : (u.redirect (u.path x) (u.root x)).items = u.items :=
      items_redirect (ascent_subset hu (contains_iff_mem_items.mp hx) _)
    exact fun y hy => h y (hitems ▸ hy)
  · exact h.makeSet x

theorem link {p c : α} (h : u.Ranked) (hc : c ∈ u.items) : (u.link p c).Ranked := by
  intro y hy
  rw [items_link hc] at hy
  show ∃ k, (if u.rank p = u.rank c then u.ranks.insert p (u.rank p + 1) else u.ranks).get? y = some k
  split
  · rw [Table.get?_insert]
    split
    · exact ⟨_, rfl⟩
    · exact h y hy
  · exact h y hy

theorem union (hu : u.Inv) (h : u.Ranked) (x y : α) : (u.union x y).2.Ranked := by
  have hw := (h.find hu x).find (find_spec hu x).inv y
  rcases union_cases hu x y with ⟨-, he⟩ | ⟨-, p, c, -, -, hc, -, -, he⟩
  · rwa [he]
  · rw [he]
    exact hw.link (isHead_iff.mp hc).1

end Ranked

/-! ## The operations -/

theorem get?_parents (hx : x ∈ u.items) : u.parents.get? x = some (u.parent x) := by
  obtain ⟨y, hy⟩ := Option.isSome_iff_exists.mp (Table.get?_isSome_iff.mpr hx)
  rw [parent, Table.getD, hy]
  rfl

/-- A way up with no more items than look-ups ends at a root. -/
theorem ascent?_eq_some (hu : u.Inv) (hx : x ∈ u.items) {n : Nat} (hn : (u.ascent n x).length ≤ n) :
    u.ascent? n x = some (u.ascent n x) := by
  induction n generalizing x with
  | zero => exact absurd hn (Nat.not_succ_le_zero 0)
  | succ n ih =>
    rw [ascent] at hn ⊢
    rw [ascent?, get?_parents hx]
    dsimp only
    split at hn
    · next hroot => rw [if_pos hroot, if_pos hroot]
    · next hne =>
      rw [if_neg hne, if_neg hne, ih (hu.parent_mem x hx) (Nat.le_of_succ_le_succ hn)]
      rfl

theorem find?_eq_some (hu : u.Inv) (x : α) : u.find? x = some (u.find x) := by
  unfold find? find
  split
  · next hx =>
    have hmem := contains_iff_mem_items.mp hx
    rw [ascent?_eq_some hu hmem (length_path_le hu hmem)]
    rfl
  · rfl

theorem get?_ranks (h : u.Ranked) (hx : x ∈ u.items) : u.ranks.get? x = some (u.rank x) := by
  obtain ⟨k, hk⟩ := h x hx
  rw [rank, Table.getD, hk]
  rfl

theorem union?_eq_some (hu : u.Inv) (h : u.Ranked) (x y : α) : u.union? x y = some (u.union x y) := by
  have hx := find_spec hu x
  have hw := compared_find hu x y
  have hranked := (h.find hu x).find hx.inv y
  have ha : (u.find x).1 = u.root x := hx.answer_eq
  have hb : ((u.find x).2.find y).1 = u.root y := (find_spec hx.inv y).answer_eq.trans (hx.root_eq y)
  unfold union? union
  rw [find?_eq_some hu x]
  dsimp only [Option.bind_eq_bind, Option.bind_some]
  rw [find?_eq_some hx.inv y]
  dsimp only [Option.bind_some]
  rw [ha, hb]
  split
  · rfl
  · rw [get?_ranks hranked (isHead_iff.mp hw.isHead_left).1, get?_ranks hranked (isHead_iff.mp hw.isHead_right).1]
    dsimp only [Option.bind_some]
    split <;> rfl

end UnionFind

end FormalLang
