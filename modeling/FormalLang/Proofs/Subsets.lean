import FormalLang.OrderedSet
import Mathlib.Data.List.Sublists

/-!
# All sets over a list

* `OrderedSet.length_setsOver`: a list of `n` elements has `2 ^ n` sublists, each of them a set.
* `OrderedSet.mem_setsOver`: every set of elements of the list is among them.
-/

namespace FormalLang

namespace OrderedSet

variable {α : Type} [Ord α] [Std.TransOrd α]

/-- The sets of elements of a list. -/
def setsOver (l : List α) : List (OrderedSet α) := l.sublists.map ofList

theorem length_setsOver (l : List α) : (setsOver l).length = Nat.pow 2 l.length := by
  rw [setsOver, List.length_map, List.length_sublists]
  rfl

theorem mem_setsOver [Std.LawfulEqOrd α] [DecidableEq α] {l : List α} {s : OrderedSet α} (h : ∀ a ∈ s, a ∈ l) :
    s ∈ setsOver l := by
  refine List.mem_map.mpr ⟨l.filter (· ∈ s), ?_, ?_⟩
  · exact List.mem_sublists.mpr List.filter_sublist
  · refine ext fun a => ?_
    rw [mem_ofList, List.mem_filter, decide_eq_true_eq]
    exact ⟨And.right, fun ha => ⟨h a ha, ha⟩⟩

theorem mem_of_mem_setsOver [Std.LawfulEqOrd α] {l : List α} {s : OrderedSet α} (h : s ∈ setsOver l) :
    ∀ a ∈ s, a ∈ l := by
  obtain ⟨m, hm, rfl⟩ := List.mem_map.mp h
  exact fun a ha => (List.mem_sublists.mp hm).subset (mem_ofList.mp ha)

end OrderedSet

end FormalLang
