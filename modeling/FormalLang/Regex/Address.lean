import FormalLang.Regex.Basic

/-!
# Addresses of subtrees

A subtree stands at an address, the way down to it from the root: each number on the way says which child comes next, the
first one being 0. The root stands at the empty address, and an address without its last number is that of the parent.
In the order of words a tree comes before the trees below it, and what is below an earlier child before what is below a
later one.

* `Regex.induction_children`: what holds of a tree if it holds of its children holds of all trees.
* `Regex.mem_addresses`: the addresses that are listed are those at which a subtree stands.
* `Regex.pairwise_addresses`: they are listed in ascending order.
* `Regex.map_at?_addresses`: the subtrees at these addresses are the subtrees in preorder.
-/

namespace FormalLang

namespace Regex

variable {r s : Regex} {i : Nat} {p : List Nat}

/-- The subtree at an address. -/
def at? : Regex → List Nat → Option Regex
  | r, [] => some r
  | r, i :: p => r.children[i]?.bind fun c => c.at? p

/-- The addresses of the subtrees, each before those below it, left before right. -/
def addresses : Regex → List (List Nat)
  | literal _ => [[]]
  | concat l r => [] :: (l.addresses.map (0 :: ·) ++ r.addresses.map (1 :: ·))
  | alternation l r => [] :: (l.addresses.map (0 :: ·) ++ r.addresses.map (1 :: ·))
  | star r => [] :: r.addresses.map (0 :: ·)

/-! ## Trees by their children -/

/-- What holds of a tree if it holds of the trees directly below it holds of every tree. -/
theorem induction_children {motive : Regex → Prop} (h : ∀ r, (∀ c ∈ r.children, motive c) → motive r) (r : Regex) :
    motive r := by
  induction r with
  | literal a => exact h _ fun c hc => absurd hc List.not_mem_nil
  | concat l r ihl ihr => exact h _ (by simp [children, ihl, ihr])
  | alternation l r ihl ihr => exact h _ (by simp [children, ihl, ihr])
  | star r ih => exact h _ (by simp [children, ih])

theorem addresses_eq (r : Regex) :
    r.addresses = [] :: r.children.zipIdx.flatMap fun (c, i) => c.addresses.map (i :: ·) := by
  cases r <;> simp [addresses, children]

/-! ## Subtrees at addresses -/

theorem at?_append (r : Regex) (p q : List Nat) : r.at? (p ++ q) = (r.at? p).bind (·.at? q) := by
  induction p generalizing r with
  | nil => rfl
  | cons i p ih =>
    rw [List.cons_append, at?, at?]
    cases r.children[i]? with
    | none => rfl
    | some c => exact ih c

theorem mem_addresses : p ∈ r.addresses ↔ (r.at? p).isSome = true := by
  induction p generalizing r with
  | nil =>
    rw [addresses_eq]
    exact iff_of_true List.mem_cons_self rfl
  | cons i p ih =>
    rw [addresses_eq, List.mem_cons, at?]
    simp only [reduceCtorEq, false_or, List.mem_flatMap, Prod.exists, List.mem_zipIdx_iff_getElem?, List.mem_map,
      List.cons.injEq]
    constructor
    · rintro ⟨c, j, hc, q, hq, rfl, rfl⟩
      rw [hc]
      exact ih.mp hq
    · intro h
      obtain ⟨s, hs⟩ := Option.isSome_iff_exists.mp h
      obtain ⟨c, hc, hs⟩ := Option.bind_eq_some_iff.mp hs
      exact ⟨c, i, hc, p, ih.mpr (Option.isSome_iff_exists.mpr ⟨s, hs⟩), rfl, rfl⟩

/-- The parent of a subtree is a subtree. -/
theorem dropLast_mem_addresses (h : p ∈ r.addresses) : p.dropLast ∈ r.addresses := by
  by_cases hp : p = []
  · rwa [hp] at h ⊢
  · rw [mem_addresses] at h ⊢
    rw [← List.dropLast_concat_getLast hp, at?_append] at h
    exact Option.isSome_of_isSome_bind h

/-- In ascending order a tree comes before the trees below it, and these come by their children. -/
theorem pairwise_addresses (r : Regex) : r.addresses.Pairwise (· < ·) := by
  induction r using induction_children with
  | h r ih =>
    rw [addresses_eq]
    refine List.pairwise_cons.mpr ⟨fun p hp => ?_, List.pairwise_flatMap.mpr ⟨?_, ?_⟩⟩
    · obtain ⟨⟨c, i⟩, -, hp⟩ := List.mem_flatMap.mp hp
      obtain ⟨q, -, rfl⟩ := List.mem_map.mp hp
      exact List.nil_lt_cons i q
    · rintro ⟨c, i⟩ hc
      have hchild : c ∈ r.children := List.mem_of_getElem? (List.mem_zipIdx_iff_getElem?.mp hc)
      refine List.pairwise_map.mpr ((ih c hchild).imp fun {p q} hpq => ?_)
      exact List.cons_lt_cons_iff.mpr (.inr ⟨rfl, hpq⟩)
    · have hlt : (r.children.zipIdx.map Prod.snd).Pairwise (· < ·) := by
        rw [List.zipIdx_map_snd]
        exact List.pairwise_lt_range'
      refine (List.pairwise_map.mp hlt).imp fun {e f} hef p hp q hq => ?_
      obtain ⟨p, -, rfl⟩ := List.mem_map.mp hp
      obtain ⟨q, -, rfl⟩ := List.mem_map.mp hq
      exact List.cons_lt_cons_iff.mpr (.inl hef)

theorem map_at?_addresses (r : Regex) : r.addresses.map r.at? = r.preorder.map some := by
  induction r using induction_children with
  | h r ih =>
    have hchild : ∀ e ∈ r.children.zipIdx, (e.1.addresses.map (e.2 :: ·)).map r.at? = e.1.preorder.map some := by
      rintro ⟨c, i⟩ he
      have hc : r.children[i]? = some c := List.mem_zipIdx_iff_getElem?.mp he
      rw [← ih c (List.mem_of_getElem? hc), List.map_map]
      refine List.map_congr_left fun p _ => ?_
      rw [Function.comp_apply, at?, hc, Option.bind_some]
    rw [addresses_eq, preorder_eq, List.map_cons, List.map_cons, List.map_flatMap, List.map_flatMap]
    refine congrArg (some r :: ·) ?_
    calc r.children.zipIdx.flatMap (fun e => (e.1.addresses.map (e.2 :: ·)).map r.at?)
        = r.children.zipIdx.flatMap (fun e => e.1.preorder.map some) :=
          congrArg List.flatten (List.map_congr_left hchild)
      _ = (r.children.zipIdx.map Prod.fst).flatMap (fun c => c.preorder.map some) := by rw [List.flatMap_map]
      _ = r.children.flatMap (fun c => c.preorder.map some) := by rw [List.zipIdx_map_fst]

theorem length_addresses (r : Regex) : r.addresses.length = r.size := by
  have h := congrArg List.length (map_at?_addresses r)
  rwa [List.length_map, List.length_map] at h

end Regex

end FormalLang
