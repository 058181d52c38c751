import FormalLang.UnionFind.Basic
import Mathlib.Data.List.Nodup

/-!
# Trees of union-find

Ranks rise along the parents, so the way up from an item ends at a root after fewer steps than there are items. Path
compression keeps every root, and a link moves the items below one root to the other.

* `UnionFind.Inv`: parents are items, and ranks rise along them.
* `UnionFind.root_eq_iff`: the root of an item is where the way up from it ends.
* `UnionFind.find_spec`, `union_cases`, `union_spec`, `root_union_eq_iff`: the forest and the roots after the operations.
-/

namespace FormalLang

namespace UnionFind

variable {α : Type} [DecidableEq α] {u : UnionFind α} {x y z r s : α} {l : List α}

/-- Parents of items are items, and the rank of an item that is no root is below that of its parent. -/
structure Inv (u : UnionFind α) : Prop where
  parent_mem : ∀ x ∈ u.items, u.parent x ∈ u.items
  rank_lt : ∀ x, u.parent x ≠ x → u.rank x < u.rank (u.parent x)

/-- The way up from an item ends at a root. -/
inductive Climbs (u : UnionFind α) : α → α → Prop where
  | root {x : α} : u.parent x = x → Climbs u x x
  | step {x r : α} : u.parent x ≠ x → Climbs u (u.parent x) r → Climbs u x r

theorem contains_iff_mem_items : u.parents.contains x = true ↔ x ∈ u.items := Table.get?_isSome_iff

theorem parent_of_notMem (h : x ∉ u.items) : u.parent x = x := by
  unfold parent Table.getD
  cases hx : u.parents.get? x with
  | none => rfl
  | some y =>
    have : x ∈ u.items := Table.get?_isSome_iff.mp (hx ▸ rfl)
    exact absurd this h

theorem mem_items_of_parent_ne (h : u.parent x ≠ x) : x ∈ u.items := by
  by_contra hx
  exact h (parent_of_notMem hx)

/-! ## The way up -/

namespace Climbs

theorem parent_eq (h : Climbs u x r) : u.parent r = r := by
  induction h with
  | root h => exact h
  | step _ _ ih => exact ih

theorem unique (h : Climbs u x r) (k : Climbs u x s) : r = s := by
  induction h with
  | root hx =>
    cases k with
    | root => rfl
    | step hne _ => exact absurd hx hne
  | step hne _ ih =>
    cases k with
    | root hx => exact absurd hx hne
    | step _ k => exact ih k

theorem rank_lt (hu : u.Inv) (h : Climbs u x r) (hne : x ≠ r) : u.rank x < u.rank r := by
  induction h with
  | root => exact absurd rfl hne
  | @step x r hx h ih =>
    have hlt := hu.rank_lt x hx
    by_cases hp : u.parent x = r
    · exact hp ▸ hlt
    · exact Nat.lt_trans hlt (ih hp)

theorem mem_items (hu : u.Inv) (h : Climbs u x r) (hx : x ∈ u.items) : r ∈ u.items := by
  induction h with
  | root => exact hx
  | step _ _ ih => exact ih (hu.parent_mem _ hx)

end Climbs

/-! ## The items on the way -/

theorem rank_le_of_mem_ascent (hu : u.Inv) {n : Nat} (h : y ∈ u.ascent n x) : u.rank x ≤ u.rank y := by
  induction n generalizing x with
  | zero => exact Nat.le_of_eq (congrArg _ (List.mem_singleton.mp h).symm)
  | succ n ih =>
    rw [ascent] at h
    split at h
    · exact Nat.le_of_eq (congrArg _ (List.mem_singleton.mp h).symm)
    · next hx =>
      rcases List.mem_cons.mp h with rfl | h
      · exact Nat.le_refl _
      · exact Nat.le_trans (Nat.le_of_lt (hu.rank_lt x hx)) (ih h)

theorem nodup_ascent (hu : u.Inv) (n : Nat) (x : α) : (u.ascent n x).Nodup := by
  induction n generalizing x with
  | zero => exact List.nodup_singleton x
  | succ n ih =>
    rw [ascent]
    split
    · exact List.nodup_singleton x
    · next hx =>
      refine List.nodup_cons.mpr ⟨fun h => ?_, ih _⟩
      have := rank_le_of_mem_ascent hu h
      have := hu.rank_lt x hx
      omega

theorem ascent_subset (hu : u.Inv) (hx : x ∈ u.items) (n : Nat) : u.ascent n x ⊆ u.items := by
  induction n generalizing x with
  | zero => exact List.cons_subset.mpr ⟨hx, List.nil_subset _⟩
  | succ n ih =>
    rw [ascent]
    split
    · exact List.cons_subset.mpr ⟨hx, List.nil_subset _⟩
    · exact List.cons_subset.mpr ⟨hx, ih (hu.parent_mem x hx)⟩

/-- No item is met twice on the way up, so it has no more items than the forest. -/
theorem length_path_le (hu : u.Inv) (hx : x ∈ u.items) : (u.path x).length ≤ u.size := by
  have hle := (nodup_ascent hu u.size x).length_le_of_subset (ascent_subset hu hx u.size)
  have hsize : u.items.length = u.size := List.length_map _
  rwa [hsize] at hle

/-- After enough steps the way up ends at a root; otherwise all steps have been made. -/
private theorem climbs_or_length_ascent (n : Nat) (x : α) :
    ∃ r, (u.ascent n x).getLast? = some r ∧ (u.Climbs x r ∨ (u.ascent n x).length = n + 1) := by
  induction n generalizing x with
  | zero => exact ⟨x, rfl, .inr rfl⟩
  | succ n ih =>
    rw [ascent]
    split
    · next hx => exact ⟨x, rfl, .inl (.root hx)⟩
    · next hx =>
      obtain ⟨r, hr, h⟩ := ih (u.parent x)
      refine ⟨r, ?_, h.imp (.step hx) fun h => by rw [List.length_cons, h]⟩
      rw [List.getLast?_cons, hr]
      rfl

/-- The way up from an item ends at its root: it is too short to pass through more items than there are. -/
theorem climbs_root (hu : u.Inv) (x : α) : u.Climbs x (u.root x) := by
  by_cases hx : x ∈ u.items
  · obtain ⟨r, hr, h⟩ := climbs_or_length_ascent (u := u) u.size x
    have hroot : u.root x = r := by
      rw [root, path, hr]
      rfl
    rw [hroot]
    refine h.resolve_right fun hlen => ?_
    have hle : (u.ascent u.size x).length ≤ u.size := length_path_le hu hx
    omega
  · have hp := parent_of_notMem hx
    have hpath : u.path x = [x] := by
      unfold path
      cases u.size with
      | zero => rfl
      | succ n => exact if_pos hp
    rw [root, hpath]
    exact .root hp

theorem root_eq_iff (hu : u.Inv) : u.root x = r ↔ u.Climbs x r :=
  ⟨fun h => h ▸ climbs_root hu x, fun h => (climbs_root hu x).unique h⟩

theorem root_eq_self_iff (hu : u.Inv) : u.root x = x ↔ u.parent x = x :=
  ⟨fun h => ((root_eq_iff hu).mp h).parent_eq, fun h => (root_eq_iff hu).mpr (.root h)⟩

theorem parent_root (hu : u.Inv) (x : α) : u.parent (u.root x) = u.root x := (climbs_root hu x).parent_eq

theorem root_mem_items (hu : u.Inv) (hx : x ∈ u.items) : u.root x ∈ u.items := (climbs_root hu x).mem_items hu hx

/-- The heads are the items that are their own parents. -/
theorem isHead_iff : u.isHead x = true ↔ x ∈ u.items ∧ u.parent x = x := by
  rw [isHead, decide_eq_true_eq, parent, Table.getD, items, ← Table.get?_isSome_iff]
  cases u.parents.get? x <;> simp

theorem isHead_root (hu : u.Inv) (hx : x ∈ u.items) : u.isHead (u.root x) = true :=
  isHead_iff.mpr ⟨root_mem_items hu hx, parent_root hu x⟩

theorem climbs_of_mem_ascent {n : Nat} (h : u.Climbs x r) (hy : y ∈ u.ascent n x) : u.Climbs y r := by
  induction n generalizing x with
  | zero =>
    rw [List.mem_singleton.mp hy]
    exact h
  | succ n ih =>
    rw [ascent] at hy
    split at hy
    · rw [List.mem_singleton.mp hy]
      exact h
    · next hx =>
      rcases List.mem_cons.mp hy with rfl | hy
      · exact h
      · cases h with
        | root hp => exact absurd hp hx
        | step _ h => exact ih h hy

/-! ## Path compression -/

theorem parents_redirect_get? : (u.redirect l r).parents.get? x = if x ∈ l then some r else u.parents.get? x := by
  unfold redirect
  dsimp only
  generalize u.parents = t
  induction l generalizing t with
  | nil => simp
  | cons y l ih =>
    rw [List.foldl_cons, ih, Table.get?_insert]
    by_cases hl : x ∈ l
    · simp [hl]
    · by_cases hy : x = y
      · simp [hy]
      · simp [hl, hy]

theorem parent_redirect : (u.redirect l r).parent x = if x ∈ l then r else u.parent x := by
  unfold parent Table.getD
  rw [parents_redirect_get?]
  split <;> rfl

@[simp] theorem rank_redirect : (u.redirect l r).rank x = u.rank x := rfl

theorem items_redirect (hl : l ⊆ u.items) : (u.redirect l r).items = u.items := by
  unfold items redirect at *
  dsimp only
  generalize u.parents = t at *
  induction l generalizing t with
  | nil => rfl
  | cons y l ih =>
    obtain ⟨hy, hl⟩ := List.cons_subset.mp hl
    have hk : (t.insert y r).keys = t.keys := by rw [Table.keys_insert, if_pos hy]
    rw [List.foldl_cons, ih _ (hk ▸ hl), hk]

/-- Items that point at the root of their tree afterwards keep it, and so do all others. -/
theorem climbs_redirect (hl : ∀ y ∈ l, u.Climbs y r) (h : u.Climbs x s) : (u.redirect l r).Climbs x s := by
  induction h with
  | @root x hx =>
    refine .root ?_
    rw [parent_redirect]
    split
    · next hxl => exact (hl x hxl).unique (.root hx)
    · exact hx
  | @step x s hx h ih =>
    by_cases hxl : x ∈ l
    · obtain rfl : r = s := (hl x hxl).unique (.step hx h)
      have hr := h.parent_eq
      have hp : (u.redirect l r).parent x = r := by rw [parent_redirect, if_pos hxl]
      refine .step ?_ ?_
      · rw [hp]
        rintro rfl
        exact hx hr
      · rw [hp]
        refine .root ?_
        rw [parent_redirect, hr, ite_self]
    · have hp : (u.redirect l r).parent x = u.parent x := by rw [parent_redirect, if_neg hxl]
      refine .step ?_ ?_
      · rwa [hp]
      · rwa [hp]

theorem inv_redirect (hu : u.Inv) (hl : ∀ y ∈ l, u.Climbs y r) (hi : l ⊆ u.items) : (u.redirect l r).Inv where
  parent_mem x hx := by
    rw [items_redirect hi] at hx ⊢
    rw [parent_redirect]
    split
    · next hxl => exact (hl x hxl).mem_items hu hx
    · exact hu.parent_mem x hx
  rank_lt x hx := by
    rw [parent_redirect] at hx ⊢
    simp only [rank_redirect]
    split at hx
    · next hxl =>
      rw [if_pos hxl]
      exact (hl x hxl).rank_lt hu (Ne.symm hx)
    · next hxl =>
      rw [if_neg hxl]
      exact hu.rank_lt x hx

/-! ## The operations -/

theorem items_makeSet (u : UnionFind α) (x : α) :
    (u.makeSet x).items = if x ∈ u.items then u.items else u.items ++ [x] := by
  unfold makeSet
  split
  · next h => rw [if_pos (contains_iff_mem_items.mp h)]
  · exact Table.keys_insert u.parents x x

@[simp] theorem parent_makeSet (u : UnionFind α) (x y : α) : (u.makeSet x).parent y = u.parent y := by
  unfold makeSet
  split
  · rfl
  · next h =>
    have hx : x ∉ u.items := fun hx => h (contains_iff_mem_items.mpr hx)
    by_cases hy : y = x
    · subst hy
      rw [parent_of_notMem hx]
      simp [parent, Table.getD, Table.get?_insert]
    · simp [parent, Table.getD, Table.get?_insert, hy]

theorem rank_makeSet_of_mem (hy : y ∈ u.items) : (u.makeSet x).rank y = u.rank y := by
  unfold makeSet
  split
  · rfl
  · next h =>
    have hne : y ≠ x := by
      rintro rfl
      exact h (contains_iff_mem_items.mpr hy)
    simp [rank, Table.getD, Table.get?_insert, hne]

theorem mem_items_makeSet : y ∈ (u.makeSet x).items ↔ y ∈ u.items ∨ y = x := by
  rw [items_makeSet]
  split
  · next h =>
    constructor
    · exact .inl
    · rintro (hy | rfl)
      · exact hy
      · exact h
  · rw [List.mem_append, List.mem_singleton]

theorem climbs_makeSet : (u.makeSet x).Climbs y r ↔ u.Climbs y r := by
  constructor
  · intro h
    induction h with
    | root hy => exact .root (parent_makeSet u x _ ▸ hy)
    | step hy _ ih =>
      rw [parent_makeSet] at hy ih
      exact .step hy ih
  · intro h
    induction h with
    | root hy => exact .root ((parent_makeSet u x _).trans hy)
    | step hy _ ih =>
      rw [← parent_makeSet u x] at hy ih
      exact .step hy ih

theorem inv_makeSet (hu : u.Inv) (x : α) : (u.makeSet x).Inv where
  parent_mem y hy := by
    rw [parent_makeSet]
    rcases mem_items_makeSet.mp hy with hy | rfl
    · exact mem_items_makeSet.mpr (.inl (hu.parent_mem y hy))
    · by_cases hp : u.parent y = y
      · rwa [hp]
      · exact mem_items_makeSet.mpr (.inl (hu.parent_mem y (mem_items_of_parent_ne hp)))
  rank_lt y hy := by
    rw [parent_makeSet] at hy ⊢
    have hi := mem_items_of_parent_ne hy
    rw [rank_makeSet_of_mem hi, rank_makeSet_of_mem (hu.parent_mem y hi)]
    exact hu.rank_lt y hy

theorem root_makeSet (hu : u.Inv) (x y : α) : (u.makeSet x).root y = u.root y :=
  (root_eq_iff (inv_makeSet hu x)).mpr (climbs_makeSet.mpr (climbs_root hu y))

/-- What a search for a root keeps and answers. -/
structure FindSpec (u : UnionFind α) (x : α) (a : α) (v : UnionFind α) : Prop where
  inv : v.Inv
  answer_eq : a = u.root x
  items_eq : v.items = (u.makeSet x).items
  root_eq : ∀ y, v.root y = u.root y

theorem find_spec (hu : u.Inv) (x : α) : FindSpec u x (u.find x).1 (u.find x).2 := by
  unfold find
  split
  · next h =>
    have hx := contains_iff_mem_items.mp h
    have hl : ∀ y ∈ u.path x, u.Climbs y (u.root x) := fun y => climbs_of_mem_ascent (climbs_root hu x)
    have hi : u.path x ⊆ u.items := ascent_subset hu hx _
    refine ⟨inv_redirect hu hl hi, rfl, ?_, fun y => ?_⟩
    · rw [items_redirect hi, items_makeSet, if_pos hx]
    · exact (root_eq_iff (inv_redirect hu hl hi)).mpr (climbs_redirect hl (climbs_root hu y))
  · next h =>
    have hx : x ∉ u.items := fun hx => h (contains_iff_mem_items.mpr hx)
    refine ⟨inv_makeSet hu x, ?_, rfl, root_makeSet hu x⟩
    exact ((root_eq_iff hu).mpr (.root (parent_of_notMem hx))).symm

/-! ### Links -/

section Link

variable {p c : α} (hu : u.Inv) (hp : u.parent p = p) (hc : u.parent c = c) (hne : p ≠ c)

theorem parent_link : (u.link p c).parent x = if x = c then p else u.parent x := by
  unfold parent link Table.getD
  rw [Table.get?_insert]
  split <;> rfl

theorem rank_link : (u.link p c).rank x = if u.rank p = u.rank c ∧ x = p then u.rank p + 1 else u.rank x := by
  show (if u.rank p = u.rank c then u.ranks.insert p (u.rank p + 1) else u.ranks).getD x 0 = _
  by_cases h : u.rank p = u.rank c
  · rw [if_pos h, Table.getD, Table.get?_insert]
    by_cases hx : x = p
    · rw [if_pos hx, if_pos ⟨h, hx⟩]
      rfl
    · rw [if_neg hx, if_neg fun h => hx h.2]
      rfl
  · rw [if_neg h, if_neg fun h' => h h'.1]
    rfl

theorem items_link (hc : c ∈ u.items) : (u.link p c).items = u.items :=
  (Table.keys_insert u.parents c p).trans (if_pos hc)

include hp hc hne

/-- A link moves the items below one root to the other root. -/
theorem climbs_link (h : u.Climbs x s) : (u.link p c).Climbs x (if s = c then p else s) := by
  have hroot : (u.link p c).Climbs p p := .root (by rw [parent_link, if_neg hne, hp])
  induction h with
  | @root x hx =>
    split
    · next h =>
      refine .step ?_ ?_
      · rw [parent_link, if_pos h, h]
        exact hne
      · rw [parent_link, if_pos h]
        exact hroot
    · next h => exact .root (by rw [parent_link, if_neg h, hx])
  | @step x s hx h ih =>
    have hxc : x ≠ c := by
      rintro rfl
      exact hx hc
    refine .step ?_ ?_
    · rwa [parent_link, if_neg hxc]
    · rwa [parent_link, if_neg hxc]

/-- A link under a root of no lower rank keeps the invariant. -/
theorem inv_link (hu : u.Inv) (hpi : p ∈ u.items) (hci : c ∈ u.items) (hr : u.rank c ≤ u.rank p) : (u.link p c).Inv where
  parent_mem x hx := by
    rw [items_link hci] at hx ⊢
    rw [parent_link]
    split
    · exact hpi
    · exact hu.parent_mem x hx
  rank_lt x hx := by
    rw [parent_link] at hx ⊢
    rw [rank_link, rank_link]
    split at hx
    · next h =>
      subst h
      rw [if_pos rfl, if_neg fun h => hne h.2.symm]
      split
      · omega
      · next h =>
        have : u.rank p ≠ u.rank x := fun e => h ⟨e, rfl⟩
        omega
    · next h =>
      have hlt := hu.rank_lt x hx
      have hxp : x ≠ p := by
        rintro rfl
        exact hx hp
      rw [if_neg h, if_neg fun h => hxp h.2]
      split
      · next h =>
        rw [h.2] at hlt
        omega
      · exact hlt

theorem root_link (hu : u.Inv) (hpi : p ∈ u.items) (hci : c ∈ u.items) (hr : u.rank c ≤ u.rank p) (x : α) :
    (u.link p c).root x = if u.root x = c then p else u.root x :=
  (root_eq_iff (inv_link hp hc hne hu hpi hci hr)).mpr (climbs_link hp hc hne (climbs_root hu x))

end Link

theorem items_makeSet_congr {v : UnionFind α} (h : v.items = u.items) (x : α) :
    (v.makeSet x).items = (u.makeSet x).items := by
  rw [items_makeSet, items_makeSet, h]

/-- The forest in which a union compares the roots of its items: both have been found, and no root has changed. -/
structure Compared (u : UnionFind α) (x y : α) (w : UnionFind α) : Prop where
  inv : w.Inv
  items_eq : w.items = ((u.makeSet x).makeSet y).items
  root_eq : ∀ z, w.root z = u.root z

theorem compared_find (hu : u.Inv) (x y : α) : Compared u x y ((u.find x).2.find y).2 := by
  have hx := find_spec hu x
  have hy := find_spec hx.inv y
  exact ⟨hy.inv, hy.items_eq.trans (items_makeSet_congr hx.items_eq y), fun z => (hy.root_eq z).trans (hx.root_eq z)⟩

namespace Compared

variable {w : UnionFind α} (hw : Compared u x y w)
include hw

theorem isHead_left : w.isHead (u.root x) = true := by
  rw [← hw.root_eq]
  refine isHead_root hw.inv ?_
  rw [hw.items_eq]
  exact mem_items_makeSet.mpr (.inl (mem_items_makeSet.mpr (.inr rfl)))

theorem isHead_right : w.isHead (u.root y) = true := by
  rw [← hw.root_eq]
  refine isHead_root hw.inv ?_
  rw [hw.items_eq]
  exact mem_items_makeSet.mpr (.inr rfl)

end Compared

/-- A union leaves the forest with both items found as it is, or links one of two heads under the other. -/
theorem union_cases (hu : u.Inv) (x y : α) :
    let w := ((u.find x).2.find y).2
    (u.root x = u.root y ∧ u.union x y = (false, w)) ∨
      u.root x ≠ u.root y ∧ ∃ p c, (p = u.root x ∧ c = u.root y ∨ p = u.root y ∧ c = u.root x) ∧
        w.isHead p = true ∧ w.isHead c = true ∧ p ≠ c ∧ w.rank c ≤ w.rank p ∧ u.union x y = (true, w.link p c) := by
  have hx := find_spec hu x
  have ha : (u.find x).1 = u.root x := hx.answer_eq
  have hb : ((u.find x).2.find y).1 = u.root y := (find_spec hx.inv y).answer_eq.trans (hx.root_eq y)
  have hw := compared_find hu x y
  unfold union
  dsimp only
  rw [ha, hb]
  split
  · next h => exact .inl ⟨h, rfl⟩
  · next hne =>
    refine .inr ⟨hne, ?_⟩
    split
    · next hlt =>
      exact ⟨_, _, .inr ⟨rfl, rfl⟩, hw.isHead_right, hw.isHead_left, Ne.symm hne, Nat.le_of_lt hlt, rfl⟩
    · next hge =>
      exact ⟨_, _, .inl ⟨rfl, rfl⟩, hw.isHead_left, hw.isHead_right, hne, Nat.le_of_not_lt hge, rfl⟩

/-- What a union keeps, answers and changes: of the roots of the two items, one takes the items below the other. -/
structure UnionSpec (u : UnionFind α) (x y : α) (b : Bool) (v : UnionFind α) : Prop where
  inv : v.Inv
  answer_iff : b = true ↔ u.root x ≠ u.root y
  items_eq : v.items = ((u.makeSet x).makeSet y).items
  root_eq : ∃ p c, (p = u.root x ∧ c = u.root y ∨ p = u.root y ∧ c = u.root x) ∧
    ∀ z, v.root z = if u.root z = c then p else u.root z

theorem union_spec (hu : u.Inv) (x y : α) : UnionSpec u x y (u.union x y).1 (u.union x y).2 := by
  have hw := compared_find hu x y
  rcases union_cases hu x y with ⟨h, he⟩ | ⟨hdiffer, p, c, hpc, hp, hc, hne, hr, he⟩
  · rw [he]
    refine ⟨hw.inv, by simpa using h, hw.items_eq, u.root x, u.root y, .inl ⟨rfl, rfl⟩, fun z => ?_⟩
    rw [hw.root_eq, h]
    split
    · assumption
    · rfl
  · obtain ⟨hpi, hp⟩ := isHead_iff.mp hp
    obtain ⟨hci, hc⟩ := isHead_iff.mp hc
    rw [he]
    refine ⟨inv_link hp hc hne hw.inv hpi hci hr, by simpa using hdiffer, (items_link hci).trans hw.items_eq,
      p, c, hpc, fun z => ?_⟩
    rw [root_link hp hc hne hw.inv hpi hci hr, hw.root_eq]

/-- After a union two items have one root if they had, or if they were below the two roots. -/
theorem root_union_eq_iff (hu : u.Inv) (x y : α) :
    (u.union x y).2.root z = (u.union x y).2.root s ↔ u.root z = u.root s ∨
      (u.root z = u.root x ∧ u.root s = u.root y) ∨ (u.root z = u.root y ∧ u.root s = u.root x) := by
  obtain ⟨p, c, hpc, hroot⟩ := (union_spec hu x y).root_eq
  rw [hroot, hroot]
  rcases hpc with ⟨rfl, rfl⟩ | ⟨rfl, rfl⟩ <;> grind

end UnionFind

end FormalLang
