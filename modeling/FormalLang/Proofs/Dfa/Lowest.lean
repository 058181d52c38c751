import FormalLang.Proofs.Dfa.Quotient
import Mathlib.Data.List.Range
import Mathlib.Order.Bounds.Basic

/-!
# The lowest members of classes

A state is the lowest one of its class if no state before it has its root. So the lowest members, and the classes in their order,
depend on which states have one root, and not on which state of a class is the root.

* `Dfa.IsRooting`: roots that tell the classes, those of the forest of the merged pairs among them.
* `Dfa.values_lowest`: the states that no state before them shares its root with.
* `Dfa.IsRooting.classes_eq`: the classes, from the roots.
* `Dfa.isLeast_lowestMembers`: the classes have ascending lowest members.
-/

namespace FormalLang

theorem keys_foldl_insertNew {ε κ ν : Type} [DecidableEq κ] (f : ε → κ) (g : ε → ν) (l : List ε) (t : Table κ ν) :
    (l.foldl (fun t e => t.insertNew (f e) (g e)) t).keys = t.keys ++ Search.unseen t.keys (l.map f) := by
  induction l generalizing t with
  | nil => exact (List.append_nil _).symm
  | cons e l ih =>
    have hcontains : t.contains (f e) = true ↔ f e ∈ t.keys := Table.get?_isSome_iff
    rw [List.foldl_cons, ih, List.map_cons, Search.unseen, Table.insertNew]
    by_cases he : f e ∈ t.keys
    · rw [if_pos (hcontains.mpr he), if_pos he]
    · rw [if_neg fun h => he (hcontains.mp h), if_neg he, Table.keys_insert, if_neg he, List.append_assoc,
        List.singleton_append]
      congr 2
      exact Search.unseen_congr (fun a => by simp [or_comm]) _

namespace Dfa

variable {d : Dfa} {n p q r : Nat} {root root' : Nat → Nat}

/-! ## The lowest state with each root -/

/-- The lowest state with each root, of the states below `n`. -/
def lowest (n : Nat) (root : Nat → Nat) : Table Nat Nat := (List.range n).foldl (fun t q => t.insertNew (root q) q) ∅

theorem keys_lowest (n : Nat) (root : Nat → Nat) : (lowest n root).keys = Search.unseen [] ((List.range n).map root) :=
  (keys_foldl_insertNew root id (List.range n) ∅).trans (List.nil_append _)

theorem get?_lowest (n : Nat) (root : Nat → Nat) (r : Nat) :
    (lowest n root).get? r = (List.range n).find? (root · = r) := by
  refine (Table.get?_foldl_insertNew root id (List.range n) ∅ r).trans ?_
  rw [Table.get?_empty, Option.none_or, Option.map_id, id]

theorem root_of_get?_lowest (h : (lowest n root).get? r = some p) : root p = r := by
  rw [get?_lowest] at h
  have hp := List.find?_some h
  exact of_decide_eq_true hp

theorem exists_get?_lowest (hq : q < n) : ∃ p, (lowest n root).get? (root q) = some p := by
  rw [get?_lowest]
  exact Option.isSome_iff_exists.mp (List.find?_isSome.mpr ⟨q, List.mem_range.mpr hq, decide_eq_true rfl⟩)

/-- The lowest states are those that share their root with no state before them. -/
theorem values_lowest (n : Nat) (root : Nat → Nat) :
    (lowest n root).values = (List.range n).filter fun p => (List.range p).all fun q => root q ≠ root p := by
  induction n with
  | zero => rfl
  | succ n ih =>
    have hstep : lowest (n + 1) root = (lowest n root).insertNew (root n) n := by
      rw [lowest, List.range_succ, List.foldl_append]
      rfl
    have hknown : (lowest n root).contains (root n) = true ↔ ¬ (List.range n).all (fun q => root q ≠ root n) = true := by
      rw [Table.contains, get?_lowest, List.find?_isSome, List.all_eq_true]
      simp
    rw [hstep, Table.insertNew, List.range_succ, List.filter_append, List.filter_singleton, ← ih]
    by_cases h : (List.range n).all (fun q => root q ≠ root n) = true
    · have hnew : root n ∉ (lowest n root).keys := fun hk => hknown.mp (Table.get?_isSome_iff.mpr hk) h
      rw [if_neg fun hc => hknown.mp hc h, Table.values_insert hnew, h]
      rfl
    · rw [if_pos (hknown.mpr h), Bool.eq_false_iff.mpr h]
      exact (List.append_nil _).symm

theorem keys_lowest_eq_map (n : Nat) (root : Nat → Nat) : (lowest n root).keys = (lowest n root).values.map root := by
  rw [Table.keys, Table.values, List.map_map]
  refine List.map_congr_left fun e he => ?_
  exact (root_of_get?_lowest (Table.mem_entries_iff.mp he)).symm

theorem mem_values_lowest : p ∈ (lowest n root).values ↔ p < n ∧ ∀ q < p, root q ≠ root p := by
  rw [values_lowest, List.mem_filter, List.mem_range, List.all_eq_true]
  simp

theorem pairwise_values_lowest (n : Nat) (root : Nat → Nat) : (lowest n root).values.Pairwise (· < ·) := by
  rw [values_lowest]
  exact List.pairwise_lt_range.filter _

/-- Which states are the lowest ones depends only on which states have one root. -/
theorem values_lowest_congr (h : ∀ p < n, ∀ q < n, root p = root q ↔ root' p = root' q) :
    (lowest n root).values = (lowest n root').values := by
  rw [values_lowest, values_lowest]
  refine List.filter_congr fun p hp => ?_
  rw [List.mem_range] at hp
  rw [Bool.eq_iff_iff, List.all_eq_true, List.all_eq_true]
  refine forall₂_congr fun q hq => ?_
  rw [decide_eq_true_eq, decide_eq_true_eq, Ne, Ne, h q ((List.mem_range.mp hq).trans hp) p hp]

/-! ## Roots of classes -/

/-- The roots tell the classes: two states have one root exactly if the pairs that no round marks connect them. -/
def IsRooting (d : Dfa) (root : Nat → Nat) : Prop :=
  ∀ p < d.count, ∀ q < d.count, root p = root q ↔ UnionFind.Connected d.equivalentPairs p q

theorem isRooting_forest (d : Dfa) : d.IsRooting d.forest.root := fun p _ q _ => (partitions_forest d).root_eq_iff p q

namespace IsRooting

variable (h : d.IsRooting root)
include h

/-- The classes are the sets of states that have the root of a lowest state. -/
theorem classes_eq : d.classes = (lowest d.count root).values.map fun p =>
    OrderedSet.ofList ((List.range d.count).filter (root · = root p)) := by
  have hsame : ∀ p < d.count, ∀ q < d.count, root p = root q ↔ d.forest.root p = d.forest.root q := fun p hp q hq =>
    (h p hp q hq).trans (isRooting_forest d p hp q hq).symm
  rw [Dfa.classes_eq, ← keys_lowest, keys_lowest_eq_map, List.map_map, values_lowest_congr hsame]
  refine List.map_congr_left fun p hp => congrArg OrderedSet.ofList (List.filter_congr fun q hq => ?_)
  exact decide_eq_decide.mpr (hsame q (List.mem_range.mp hq) p (mem_values_lowest.mp hp).1).symm

theorem length_values_lowest : (lowest d.count root).values.length = d.classes.length := by
  rw [h.classes_eq, List.length_map]

theorem mem_getElem_classes_iff {i : Nat} (hi : i < (lowest d.count root).values.length) (hlt : i < d.classes.length) :
    q ∈ d.classes[i] ↔ q < d.count ∧ root q = root (lowest d.count root).values[i] := by
  simp only [h.classes_eq, List.getElem_map, OrderedSet.mem_ofList, List.mem_filter, List.mem_range, decide_eq_true_eq]

/-- The lowest state with the root of a state stands in the place of the class of that state. -/
theorem idxOf_lowest (hq : q < d.count) (hp : (lowest d.count root).get? (root q) = some p) :
    p ∈ (lowest d.count root).values ∧ (lowest d.count root).values.idxOf p = classOf d.classes q := by
  have hmem : p ∈ (lowest d.count root).values := List.mem_map.mpr ⟨(_, p), Table.mem_entries_iff.mpr hp, rfl⟩
  have hi := List.idxOf_lt_length_iff.mpr hmem
  have hlt := h.length_values_lowest ▸ hi
  refine ⟨hmem, (mem_class_iff hq).mp ?_⟩
  rw [List.getD_eq_getElem _ ∅ hlt, h.mem_getElem_classes_iff hi hlt, List.getElem_idxOf hi]
  exact ⟨hq, (root_of_get?_lowest hp).symm⟩

end IsRooting

/-- The lowest members of the classes. -/
def lowestMembers (d : Dfa) : List Nat := (lowest d.count d.forest.root).values

theorem length_lowestMembers (d : Dfa) : d.lowestMembers.length = d.classes.length :=
  (isRooting_forest d).length_values_lowest

theorem pairwise_lowestMembers (d : Dfa) : d.lowestMembers.Pairwise (· < ·) := pairwise_values_lowest _ _

theorem isLeast_lowestMembers {i : Nat} (hi : i < d.lowestMembers.length) (hlt : i < d.classes.length) :
    IsLeast {q | q ∈ d.classes[i]} d.lowestMembers[i] := by
  obtain ⟨hcount, hfirst⟩ := mem_values_lowest.mp (List.getElem_mem hi)
  refine ⟨((isRooting_forest d).mem_getElem_classes_iff hi hlt).mpr ⟨hcount, rfl⟩, fun q hq => ?_⟩
  by_contra hlower
  exact hfirst q (Nat.lt_of_not_le hlower) (((isRooting_forest d).mem_getElem_classes_iff hi hlt).mp hq).2

end Dfa

end FormalLang
