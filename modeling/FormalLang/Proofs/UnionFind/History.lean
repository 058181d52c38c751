import FormalLang.Proofs.UnionFind.Heads
import FormalLang.UnionFind.Element

/-!
# Histories of union-find

After any operations the forest stands for the partition of the items mentioned so far that the merged pairs generate, and
its count is the number of classes.

* `UnionFind.Describes.apply`: what an operation adds to the items and pairs.
* `UnionFind.run_partition`: the answers after any history.
-/

namespace FormalLang

namespace UnionFind

variable {α : Type} [DecidableEq α] {u : UnionFind α} {ops : List (Operation α)}

omit [DecidableEq α] in
/-- The items that operations mention. -/
def mentioned (ops : List (Operation α)) : List α := ops.flatMap Operation.items

omit [DecidableEq α] in
/-- The pairs that operations merge. -/
def merged (ops : List (Operation α)) : List (α × α) := ops.flatMap Operation.pairs

/-- The forest describes what operations have done. -/
structure Describes (u : UnionFind α) (ops : List (Operation α)) : Prop where
  partitions : u.Partitions (merged ops)
  counted : u.Counted
  mem_items : ∀ x, x ∈ u.items ↔ x ∈ mentioned ops

theorem mem_items_apply (hu : u.Inv) (o : Operation α) (x : α) : x ∈ (u.apply o).items ↔ x ∈ u.items ∨ x ∈ o.items := by
  cases o with
  | makeSet y => rw [apply, mem_items_makeSet, Operation.items, List.mem_singleton]
  | find y => rw [apply, (find_spec hu y).items_eq, mem_items_makeSet, Operation.items, List.mem_singleton]
  | union y z =>
    rw [apply, (union_spec hu y z).items_eq, mem_items_makeSet, mem_items_makeSet, or_assoc]
    simp [Operation.items]

theorem Partitions.apply {pairs : List (α × α)} (h : u.Partitions pairs) (o : Operation α) :
    (u.apply o).Partitions (pairs ++ o.pairs) := by
  cases o with
  | makeSet x => exact (List.append_nil pairs).symm ▸ h.makeSet x
  | find x => exact (List.append_nil pairs).symm ▸ h.find x
  | union x y => exact h.union x y

theorem Counted.apply (hu : u.Inv) (h : u.Counted) (o : Operation α) : (u.apply o).Counted := by
  cases o with
  | makeSet x => exact h.makeSet hu x
  | find x => exact h.find hu x
  | union x y => exact h.union hu x y

/-- An operation adds its items and its pair to what the forest describes. -/
theorem Describes.apply (h : u.Describes ops) (o : Operation α) : (u.apply o).Describes (ops ++ [o]) where
  partitions := by
    rw [merged, List.flatMap_append, List.flatMap_singleton]
    exact h.partitions.apply o
  counted := h.counted.apply h.partitions.inv o
  mem_items x := by
    rw [mem_items_apply h.partitions.inv, h.mem_items, mentioned, mentioned, List.flatMap_append,
      List.flatMap_singleton, List.mem_append]

theorem describes_empty : (empty : UnionFind α).Describes [] where
  partitions := .empty
  counted := counted_empty
  mem_items _ := Iff.rfl

theorem describes_run (ops : List (Operation α)) : (run ops).Describes ops := by
  induction ops using List.reverseRecOn with
  | nil => exact describes_empty
  | append_singleton ops o ih =>
    rw [run, List.foldl_append]
    exact ih.apply o

/-- Two items are found to have one root. -/
def Agree (u : UnionFind α) (x y : α) : Prop := (u.find x).1 = ((u.find x).2.find y).1

instance (u : UnionFind α) (x y : α) : Decidable (u.Agree x y) :=
  inferInstanceAs (Decidable ((u.find x).1 = ((u.find x).2.find y).1))

theorem agree_iff (hu : u.Inv) (x y : α) : u.Agree x y ↔ u.root x = u.root y := by
  have hx := find_spec hu x
  rw [Agree, hx.answer_eq, (find_spec hx.inv y).answer_eq, hx.root_eq]

/-- After any operations, two items have one root exactly if the merged pairs connect them, a union answers whether it
merges items that were not connected, the count is that of the classes into which the merged pairs divide the items
mentioned, and these classes are listed, each once. A search changes no class; it adds one if its item is new. -/
theorem run_partition [Ord α] [Std.TransOrd α] [Std.LawfulEqOrd α] (ops : List (Operation α)) :
    (∀ x y, (run ops).Agree x y ↔ Connected (merged ops) x y) ∧
      (∀ x y, ((run ops).union x y).1 = true ↔ ¬ Connected (merged ops) x y) ∧
      (run ops).count = (parts (merged ops) {x | x ∈ mentioned ops}).ncard ∧
      ((run ops).classes.1.map fun s => {x | x ∈ s}).Nodup ∧
      (∀ c : Set α, c ∈ (run ops).classes.1.map (fun s => {x | x ∈ s}) ↔
        c ∈ parts (merged ops) {x | x ∈ mentioned ops}) ∧
      (∀ x y z, ((run ops).find x).2.Agree y z ↔ (run ops).Agree y z) ∧
      (∀ x ∈ mentioned ops, ((run ops).find x).2.classes.1 = (run ops).classes.1) ∧
      ∀ x ∉ mentioned ops, ((run ops).find x).2.classes.1 = (run ops).classes.1 ++ [OrderedSet.singleton x] := by
  have h := describes_run ops
  have hinv := h.partitions.inv
  have hitems : {x | x ∈ (run ops).items} = {x | x ∈ mentioned ops} := Set.ext h.mem_items
  refine ⟨fun x y => ?_, fun x y => ?_, ?_, nodup_classes hinv, fun c => ?_, fun x y z => ?_, fun x hx => ?_,
    fun x hx => ?_⟩
  · rw [agree_iff hinv, h.partitions.root_eq_iff]
  · rw [(union_spec hinv x y).answer_iff, Ne, h.partitions.root_eq_iff]
  · rw [h.counted, ← h.partitions.ncard_parts, hitems]
  · rw [h.partitions.mem_classes_iff, hitems]
  · have hx := find_spec hinv x
    rw [agree_iff hinv, agree_iff hx.inv, hx.root_eq, hx.root_eq]
  · exact classes_find_of_mem hinv ((h.mem_items x).mpr hx)
  · exact classes_find_of_notMem hinv fun hi => hx ((h.mem_items x).mp hi)

/-- Integers and texts, of which some are mentioned first by a union, and one is merged with itself. -/
def mixedOperations : List (Operation Element) :=
  [.union (.text "a") (.integer 1), .find (.text "b"), .makeSet (.integer 2), .union (.integer 2) (.text "b"),
    .union (.text "b") (.integer 2), .union (.text "1") (.text "1")]

/-- The classes are those of "a" and 1, of "b" and 2, and of "1" alone. -/
theorem run_partition_mixedOperations :
    (parts (merged mixedOperations) {x | x ∈ mentioned mixedOperations}).ncard = 3 ∧
      Connected (merged mixedOperations) (.integer 1) (.text "a") ∧
      ¬ Connected (merged mixedOperations) (.integer 1) (.text "1") ∧
      {x | x = .text "1"} ∈ parts (merged mixedOperations) {x | x ∈ mentioned mixedOperations} := by
  obtain ⟨hagree, -, hcount, -, hclasses, -⟩ := run_partition mixedOperations
  refine ⟨?_, (hagree _ _).mp (by decide), fun h => absurd ((hagree _ _).mpr h) (by decide), ?_⟩
  · rw [← hcount]
    decide
  · refine (hclasses _).mp (List.mem_map.mpr ⟨OrderedSet.singleton (.text "1"), ?_, ?_⟩)
    · decide
    · exact Set.ext fun x => OrderedSet.mem_singleton

end UnionFind

end FormalLang
