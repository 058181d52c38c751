import FormalLang.Proofs.UnionFind.Forest
import FormalLang.Search.Reach
import FormalLang.UnionFind.History
import Mathlib.Data.Set.Basic

/-!
# The partition of union-find

Two items have one root exactly if the pairs that were merged connect them, and the classes that are listed are the sets
of items with one root.

* `UnionFind.Partitions.union`, `Partitions.find`, `Partitions.makeSet`: what each operation does to the partition.
* `UnionFind.classes_eq`: the classes, in the order of their first items.
* `UnionFind.classes_find_of_mem`, `classes_find_of_notMem`: a search changes no class, and may add one.
* `UnionFind.Partitions.mem_classes_iff`: the classes are those that the pairs make of the items.
-/

namespace FormalLang

namespace UnionFind

variable {α : Type} [DecidableEq α] {u v : UnionFind α} {x : α} {pairs : List (α × α)}

/-- Two items have one root if the pairs connect them. -/
structure Partitions (u : UnionFind α) (pairs : List (α × α)) : Prop where
  inv : u.Inv
  root_eq_iff : ∀ x y, u.root x = u.root y ↔ Connected pairs x y

theorem inv_empty : (empty : UnionFind α).Inv where
  parent_mem _ hx := absurd hx List.not_mem_nil
  rank_lt _ hx := absurd rfl hx

namespace Partitions

theorem empty : (UnionFind.empty : UnionFind α).Partitions [] where
  inv := inv_empty
  root_eq_iff x y := by
    have hroot : ∀ z : α, (UnionFind.empty : UnionFind α).root z = z := fun z =>
      (UnionFind.root_eq_iff inv_empty).mpr (.root rfl)
    rw [hroot, hroot]
    constructor
    · rintro rfl
      exact .refl x
    · exact connected_nil

theorem makeSet (h : u.Partitions pairs) (x : α) : (u.makeSet x).Partitions pairs where
  inv := inv_makeSet h.inv x
  root_eq_iff y z := by rw [root_makeSet h.inv, root_makeSet h.inv, h.root_eq_iff]

theorem find (h : u.Partitions pairs) (x : α) : (u.find x).2.Partitions pairs where
  inv := (find_spec h.inv x).inv
  root_eq_iff y z := by
    rw [(find_spec h.inv x).root_eq, (find_spec h.inv x).root_eq, h.root_eq_iff]

/-- A union connects the two items and what they were connected to. -/
theorem union (h : u.Partitions pairs) (x y : α) : (u.union x y).2.Partitions (pairs ++ [(x, y)]) where
  inv := (union_spec h.inv x y).inv
  root_eq_iff z w := by
    have hold : ∀ {a b}, Connected pairs a b → Connected (pairs ++ [(x, y)]) a b := fun hab =>
      hab.mono (List.subset_append_left _ _)
    have hnew : Connected (pairs ++ [(x, y)]) x y := .pair (List.mem_append_right _ (List.mem_singleton.mpr rfl))
    constructor
    · rw [root_union_eq_iff h.inv]
      simp only [h.root_eq_iff]
      rintro (hzw | ⟨hzx, hwy⟩ | ⟨hzy, hwx⟩)
      · exact hold hzw
      · exact ((hold hzx).trans hnew).trans (hold hwy).symm
      · exact ((hold hzy).trans hnew.symm).trans (hold hwx).symm
    · intro hzw
      induction hzw with
      | refl => rfl
      | pair hab =>
        rw [root_union_eq_iff h.inv]
        rcases List.mem_append.mp hab with hab | hab
        · exact .inl ((h.root_eq_iff _ _).mpr (.pair hab))
        · cases List.mem_singleton.mp hab
          exact .inr (.inl ⟨rfl, rfl⟩)
      | symm _ ih => exact ih.symm
      | trans _ _ ih₁ ih₂ => exact ih₁.trans ih₂

/-- The partition after the items of a list have been entered. -/
theorem ofList (l : List α) : (UnionFind.ofList l).Partitions [] := by
  suffices ∀ u : UnionFind α, u.Partitions [] → (l.foldl UnionFind.makeSet u).Partitions [] from this _ empty
  induction l with
  | nil => exact fun _ h => h
  | cons x l ih => exact fun u h => ih _ (h.makeSet x)

/-- The partition after the pairs of a list have been merged. -/
theorem foldl_union (h : u.Partitions pairs) (l : List (α × α)) :
    (l.foldl (fun u (p, q) => (u.union p q).2) u).Partitions (pairs ++ l) := by
  induction l generalizing u pairs with
  | nil => rwa [List.append_nil]
  | cons e l ih =>
    have := ih (h.union e.1 e.2)
    rwa [List.append_assoc] at this

end Partitions

/-! ## Items -/

theorem items_ofList {l : List α} (hl : l.Nodup) : (ofList l).items = l := by
  suffices ∀ u : UnionFind α, (u.items ++ l).Nodup → (l.foldl makeSet u).items = u.items ++ l from this empty hl
  clear hl
  induction l with
  | nil => exact fun u _ => (List.append_nil _).symm
  | cons x l ih =>
    intro u hu
    have hx : x ∉ u.items := fun hx => (List.nodup_append.mp hu).2.2 x hx x List.mem_cons_self rfl
    have hitems : (u.makeSet x).items = u.items ++ [x] := by rw [items_makeSet, if_neg hx]
    rw [List.foldl_cons, ih _ (by rwa [hitems, List.append_assoc]), hitems, List.append_assoc]
    rfl

theorem items_foldl_union (hu : u.Inv) {l : List (α × α)} (hl : ∀ e ∈ l, e.1 ∈ u.items ∧ e.2 ∈ u.items) :
    (l.foldl (fun u (p, q) => (u.union p q).2) u).items = u.items := by
  induction l generalizing u with
  | nil => rfl
  | cons e l ih =>
    obtain ⟨⟨hp, hq⟩, hl⟩ := List.forall_mem_cons.mp hl
    have hitems : (u.union e.1 e.2).2.items = u.items := by
      rw [(union_spec hu e.1 e.2).items_eq, items_makeSet, items_makeSet, if_pos hp, if_pos hq]
    rw [List.foldl_cons, ih (union_spec hu e.1 e.2).inv (by rwa [hitems]), hitems]

/-! ## Classes -/

omit [DecidableEq α] in
/-- The classes into which pairs divide some items. -/
def parts (pairs : List (α × α)) (items : Set α) : Set (Set α) :=
  {c | ∃ x ∈ items, c = {y | y ∈ items ∧ Connected pairs x y}}

section Classes

variable [Ord α] [Std.TransOrd α]

/-- The items of a list, collected by their values under `f`. -/
def collect {κ : Type} [DecidableEq κ] (f : α → κ) (t : Table κ (OrderedSet α)) (l : List α) : Table κ (OrderedSet α) :=
  l.foldl (fun t x => t.alter (f x) fun s => (s.getD ∅).insert x) t

section Collect

omit [DecidableEq α]

variable {κ : Type} [DecidableEq κ] {f : α → κ}

theorem keys_collect (t : Table κ (OrderedSet α)) (l : List α) :
    (collect f t l).keys = t.keys ++ Search.unseen t.keys (l.map f) := by
  induction l generalizing t with
  | nil => exact (List.append_nil _).symm
  | cons x l ih =>
    show (collect f (t.alter (f x) fun s => (s.getD ∅).insert x) l).keys = _
    rw [ih, Table.alter, Table.keys_insert, List.map_cons, Search.unseen]
    split
    · rfl
    · rw [List.append_assoc, List.singleton_append]
      congr 2
      exact Search.unseen_congr (fun a => by simp [or_comm]) _

theorem getD_collect (t : Table κ (OrderedSet α)) (l : List α) (k : κ) :
    (collect f t l).getD k ∅ = (t.getD k ∅).insertAll (l.filter (f · = k)) :=
  Table.getD_gather f (fun (s : OrderedSet α) x => s.insert x) ∅

end Collect

/-- The classes are the sets of items with one root, in the order of their first items. -/
theorem classes_eq (hu : u.Inv) :
    u.classes.1 = (Search.unseen [] (u.items.map u.root)).map fun r => OrderedSet.ofList (u.items.filter (u.root · = r)) := by
  -- Finding an item changes no root, so the roots of the forest at the beginning decide.
  have hfold : ∀ (l : List α) (t : Table α (OrderedSet α)) (v : UnionFind α), v.Inv → (∀ x, v.root x = u.root x) →
      (l.foldl (fun acc x => ((acc.1.alter (acc.2.find x).1 fun s => (s.getD ∅).insert x), (acc.2.find x).2)) (t, v)).1 =
        collect u.root t l := by
    intro l
    induction l with
    | nil => exact fun t v _ _ => rfl
    | cons x l ih =>
      intro t v hv hroot
      have hx := find_spec hv x
      rw [List.foldl_cons]
      dsimp only
      rw [ih _ _ hx.inv fun y => (hx.root_eq y).trans (hroot y), hx.answer_eq, hroot]
      rfl
  have hclasses : u.classes.1 = (collect u.root ∅ u.items).values := congrArg Table.values (hfold u.items ∅ u hu fun _ => rfl)
  rw [hclasses, Table.values_eq_map_getD _ ∅, keys_collect]
  refine List.map_congr_left fun r _ => ?_
  rw [getD_collect]
  rfl

/-- The classes that are listed depend on the items and their roots alone. -/
theorem classes_congr (hu : u.Inv) (hv : v.Inv) (hitems : v.items = u.items) (hroot : ∀ x, v.root x = u.root x) :
    v.classes.1 = u.classes.1 := by
  rw [classes_eq hu, classes_eq hv, hitems, funext hroot]

/-- A search for a known item changes no class. -/
theorem classes_find_of_mem (hu : u.Inv) (hx : x ∈ u.items) : (u.find x).2.classes.1 = u.classes.1 := by
  have h := find_spec hu x
  exact classes_congr hu h.inv (by rw [h.items_eq, items_makeSet, if_pos hx]) h.root_eq

/-- A search for a new item adds a class of it alone. -/
theorem classes_find_of_notMem (hu : u.Inv) (hx : x ∉ u.items) :
    (u.find x).2.classes.1 = u.classes.1 ++ [OrderedSet.singleton x] := by
  have h := find_spec hu x
  have hitems : (u.find x).2.items = u.items ++ [x] := by rw [h.items_eq, items_makeSet, if_neg hx]
  have hself : u.root x = x := (root_eq_self_iff hu).mpr (parent_of_notMem hx)
  have hother : ∀ y ∈ u.items, u.root y ≠ x := fun y hy he => hx (he ▸ root_mem_items hu hy)
  have hnew : Search.unseen ([] ++ Search.unseen [] (u.items.map u.root)) ([x].map u.root) = [x] := by
    rw [List.map_singleton, hself, List.nil_append]
    refine Search.unseen_eq_self (List.nodup_singleton x) fun y hy hmem => ?_
    obtain ⟨z, hz, hzy⟩ := List.mem_map.mp (Search.mem_unseen.mp hmem).1
    exact hother z hz (hzy.trans (List.mem_singleton.mp hy))
  have hold : ∀ r ∈ Search.unseen [] (u.items.map u.root),
      (u.items ++ [x]).filter (u.root · = r) = u.items.filter (u.root · = r) := by
    intro r hr
    obtain ⟨y, hy, rfl⟩ := List.mem_map.mp (Search.mem_unseen.mp hr).1
    have hne : u.root x ≠ u.root y := fun he => hother y hy (he.symm.trans hself)
    rw [List.filter_append, List.filter_singleton, decide_eq_false hne]
    exact List.append_nil _
  have hlast : (u.items ++ [x]).filter (u.root · = x) = [x] := by
    rw [List.filter_append, List.filter_eq_nil_iff.mpr fun y hy => by simpa using hother y hy]
    simp [hself]
  rw [classes_eq h.inv, classes_eq hu, hitems, funext h.root_eq, List.map_append, Search.unseen_append, hnew,
    List.map_append, List.map_singleton, hlast]
  congr 1
  exact List.map_congr_left fun r hr => congrArg _ (hold r hr)

variable [Std.LawfulEqOrd α]

/-- No class is listed twice. -/
theorem nodup_classes (hu : u.Inv) : (u.classes.1.map fun s => {x | x ∈ s}).Nodup := by
  rw [classes_eq hu, List.map_map]
  refine (Search.nodup_unseen _ _).map_on fun r hr s hs he => ?_
  obtain ⟨x, hx, rfl⟩ := List.mem_map.mp (Search.mem_unseen.mp hr).1
  have hmem := (Set.ext_iff.mp he x).mp (by simp [hx])
  simpa [hx] using hmem

/-- The classes that are listed are those into which the pairs divide the items. -/
theorem Partitions.mem_classes_iff (h : u.Partitions pairs) {c : Set α} :
    c ∈ u.classes.1.map (fun s => {x | x ∈ s}) ↔ c ∈ parts pairs {x | x ∈ u.items} := by
  have hset (r : α) : {x | x ∈ OrderedSet.ofList (u.items.filter (u.root · = r))} =
      {x | x ∈ u.items ∧ u.root x = r} := Set.ext fun x => by simp
  rw [classes_eq h.inv, List.map_map, List.mem_map]
  constructor
  · rintro ⟨r, hr, rfl⟩
    obtain ⟨x, hx, rfl⟩ := List.mem_map.mp (Search.mem_unseen.mp hr).1
    refine ⟨x, hx, (hset _).trans (Set.ext fun y => and_congr_right fun _ => ?_)⟩
    rw [eq_comm, h.root_eq_iff]
  · rintro ⟨x, hx, rfl⟩
    refine ⟨u.root x, Search.mem_unseen.mpr ⟨List.mem_map_of_mem hx, List.not_mem_nil⟩, ?_⟩
    refine (hset _).trans (Set.ext fun y => and_congr_right fun _ => ?_)
    rw [eq_comm, h.root_eq_iff]

end Classes

end UnionFind

end FormalLang
