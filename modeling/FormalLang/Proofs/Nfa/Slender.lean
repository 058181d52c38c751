import FormalLang.Proofs.Nfa.Part
import Mathlib.Data.Set.Card

/-!
# Slender parts

A set of transitions is thin if at most two silent steps or one transition on a symbol leave each state. Thin sets can be
joined where no state is left by both. A slender part is thin, no state of it is superfluous, and its transitions are
counted: put together, slender parts give slender parts, and no transition is lost or shared, since the parts share at
most an entry and an exit.

* `Thin.union`: sets that leave different states.
* `Slender.seq`, `Slender.enclose`, `Slender.par`, `Slender.loop`: the ways to put parts together.
-/

namespace FormalLang

/-- The transitions of a set that leave a state. -/
def leaving (E : Set (Nat × Symbol × Nat)) (q : Nat) : Set (Nat × Symbol × Nat) := {e ∈ E | e.1 = q}

/-- Only silent steps leave the state, at most two, or a single transition on a symbol does. -/
def Narrow (E : Set (Nat × Symbol × Nat)) (q : Nat) : Prop :=
  ((leaving E q).encard ≤ 2 ∧ ∀ e ∈ leaving E q, e.2.1 = epsilon) ∨ ∃ a r, a ≠ epsilon ∧ leaving E q = {(q, a, r)}

/-- A set of so many transitions, of which few leave each state. -/
structure Thin (E : Set (Nat × Symbol × Nat)) (k : Nat) : Prop where
  narrow : ∀ q, Narrow E q
  size : E.encard = k

section

variable {E F : Set (Nat × Symbol × Nat)} {S T : Set Nat} {p q g x y k l : Nat} {a : Symbol}

theorem leaving_union : leaving (E ∪ F) q = leaving E q ∪ leaving F q := Set.sep_union

theorem leaving_eq_empty_iff : leaving E q = ∅ ↔ ∀ a r, (q, a, r) ∉ E := by
  rw [Set.eq_empty_iff_forall_notMem]
  constructor
  · intro h a r he
    exact h _ ⟨he, rfl⟩
  · rintro h ⟨q', a, r⟩ ⟨he, rfl⟩
    exact h a r he

/-- No transition leaves the exit of a part. -/
theorem Part.leaving_exit (h : Part E S p x) : leaving E x = ∅ :=
  leaving_eq_empty_iff.mpr fun _ _ he => (h.source he).2 rfl

/-- No transition of a part leaves a state outside. -/
theorem Part.leaving_of_notMem (h : Part E S p x) (hq : q ≠ p) (hS : q ∉ S) : leaving E q = ∅ :=
  leaving_eq_empty_iff.mpr fun _ _ he => (h.source he).1.elim hq hS

/-- The only transition that leaves the entry of an enclosed part is the silent step to the part. -/
theorem Part.leaving_enclosed (hE : Part E S g y) (hpg : p ≠ g) (hp : p ∉ S) :
    leaving (Part.enclosed E p g y x) p = {(p, epsilon, g)} := by
  ext ⟨q, a, r⟩
  constructor
  · rintro ⟨(he | he) | he, rfl⟩
    · exact he
    · exact absurd he (leaving_eq_empty_iff.mp (hE.leaving_of_notMem hpg hp) a r)
    · cases he
      exact absurd hE.exit_mem hp
  · rintro ⟨⟩
    exact ⟨.inl (.inl rfl), rfl⟩

/-! ## Thin sets -/

theorem narrow_of_leaving_eq_empty (h : leaving E q = ∅) : Narrow E q := by
  refine .inl ⟨?_, fun e he => ?_⟩
  · rw [h, Set.encard_empty]
    exact zero_le
  · rw [h] at he
    exact absurd he (Set.notMem_empty e)

/-- Two silent steps are few. -/
theorem narrow_of_leaving_eq_pair {s t : Nat} (h : leaving E q = {(q, epsilon, s), (q, epsilon, t)}) : Narrow E q := by
  refine .inl ⟨?_, ?_⟩
  · rw [h]
    refine (Set.encard_insert_le _ _).trans ?_
    rw [Set.encard_singleton]
    rfl
  · rw [h]
    rintro e (rfl | rfl) <;> rfl

theorem thin_single : Thin {(p, a, x)} 1 where
  narrow q := by
    by_cases hq : q = p
    · subst hq
      have hleaving : leaving {(q, a, x)} q = {(q, a, x)} := Set.sep_eq_self_iff_mem_true.mpr (by rintro e rfl; rfl)
      by_cases ha : a = epsilon
      · subst ha
        refine narrow_of_leaving_eq_pair (s := x) (t := x) ?_
        rw [hleaving, Set.pair_eq_singleton]
      · exact .inr ⟨a, x, ha, hleaving⟩
    · exact narrow_of_leaving_eq_empty (leaving_eq_empty_iff.mpr fun b r he => hq (congrArg Prod.fst he))
  size := Set.encard_singleton _

/-- Where one of two sets does not leave a state, what leaves the state is what the other set has. -/
theorem Thin.union (hE : Thin E k) (hF : Thin F l) (h : ∀ q, leaving E q = ∅ ∨ leaving F q = ∅) :
    Thin (E ∪ F) (k + l) where
  narrow q := by
    unfold Narrow
    rw [leaving_union]
    rcases h q with h | h
    · rw [h, Set.empty_union]
      exact hF.narrow q
    · rw [h, Set.union_empty]
      exact hE.narrow q
  size := by
    have hdisj : Disjoint E F := by
      rw [Set.disjoint_left]
      rintro ⟨q, a, r⟩ hE hF
      rcases h q with h | h
      · exact leaving_eq_empty_iff.mp h a r hE
      · exact leaving_eq_empty_iff.mp h a r hF
    rw [Set.encard_union_eq hdisj, hE.size, hF.size, Nat.cast_add]

/-! ## Slender parts -/

/-- A part of so many transitions, of which few leave each state, and where each state lies between the entry and the
exit. -/
structure Slender (E : Set (Nat × Symbol × Nat)) (S : Set Nat) (p x k : Nat) : Prop extends Part E S p x, Thin E k where
  reached : ∀ q ∈ S, ∃ w, Walk E p w q
  leads : ∀ q ∈ S, ∃ w, Walk E q w x

namespace Slender

/-- From the entry of a slender part a walk leads to the exit. -/
theorem through (h : Slender E S p x k) : ∃ w, Walk E p w x := h.reached x h.exit_mem

theorem single (h : p ≠ x) : Slender {(p, a, x)} {x} p x 1 where
  toPart := .single h
  toThin := thin_single
  reached := by
    rintro q rfl
    exact ⟨_, .step rfl (.here q)⟩
  leads := by
    rintro q rfl
    exact ⟨[], .here q⟩

theorem seq (hE : Slender E S p x k) (hF : Slender F T x y l) (hST : ∀ q ∈ S, q ∉ T) (hp : p ∉ T) :
    Slender (E ∪ F) (S ∪ T) p y (k + l) where
  toPart := hE.toPart.seq hF.toPart hST hp
  toThin := by
    -- Only the shared state could be left by both parts, and the first one ends there.
    refine hE.toThin.union hF.toThin fun q => ?_
    by_cases hq : q = x ∨ q ∈ T
    · left
      rcases hq with rfl | hq
      · exact hE.leaving_exit
      · exact hE.leaving_of_notMem (fun h => hp (h ▸ hq)) fun h => hST q h hq
    · right
      rw [not_or] at hq
      exact hF.leaving_of_notMem hq.1 hq.2
  reached := by
    obtain ⟨u, hu⟩ := hE.through
    rintro q (hq | hq)
    · exact (hE.reached q hq).imp fun _ hw => hw.mono Set.subset_union_left
    · obtain ⟨w, hw⟩ := hF.reached q hq
      exact ⟨u ++ w, (hu.mono Set.subset_union_left).append (hw.mono Set.subset_union_right)⟩
  leads := by
    obtain ⟨v, hv⟩ := hF.through
    rintro q (hq | hq)
    · obtain ⟨w, hw⟩ := hE.leads q hq
      exact ⟨w ++ v, (hw.mono Set.subset_union_left).append (hv.mono Set.subset_union_right)⟩
    · exact (hF.leads q hq).imp fun _ hw => hw.mono Set.subset_union_right

section Silent

variable (hE : Slender E S g y k) (hpg : p ≠ g) (hp : p ∉ S)

include hE hpg hp

theorem lead : Slender ({(p, epsilon, g)} ∪ E) ({g} ∪ S) p y (1 + k) :=
  (single hpg).seq hE (fun _ h hS => hE.entry_notMem (h ▸ hS)) hp

theorem enclose (hpx : p ≠ x) (hgx : g ≠ x) (hx : x ∉ S) :
    Slender (Part.enclosed E p g y x) ({g} ∪ S ∪ {x}) p x (1 + k + 1) := by
  have hyx : y ≠ x := fun h => hx (h ▸ hE.exit_mem)
  refine (hE.lead hpg hp).seq (single hyx) ?_ hpx
  rintro q (hq | hq) rfl
  · exact hgx hq.symm
  · exact hx hq

end Silent

/-- Two parts side by side, each with a silent step of its own from the entry. -/
theorem par {h : Nat} (hE : Slender E S p x k) (hF : Slender F T p x l) (hST : ∀ q ∈ S, q ∈ T → q = x)
    (hg : leaving E p = {(p, epsilon, g)}) (hh : leaving F p = {(p, epsilon, h)}) (hgx : g ≠ x) :
    Slender (E ∪ F) (S ∪ T) p x (k + l) where
  toPart := hE.toPart.par hF.toPart
  narrow q := by
    by_cases hq : q = p
    · subst hq
      exact narrow_of_leaving_eq_pair (by rw [leaving_union, hg, hh]; rfl)
    · unfold Narrow
      rw [leaving_union]
      by_cases hT : q ∈ T ∧ q ≠ x
      · rw [hE.leaving_of_notMem hq fun hS => hT.2 (hST q hS hT.1), Set.empty_union]
        exact hF.narrow q
      · have hnone : leaving F q = ∅ := by
          by_cases hx : q = x
          · exact hx ▸ hF.leaving_exit
          · exact hF.leaving_of_notMem hq fun h => hT ⟨h, hx⟩
        rw [hnone, Set.union_empty]
        exact hE.narrow q
  size := by
    have hdisj : Disjoint E F := by
      rw [Set.disjoint_left]
      rintro ⟨q, a, r⟩ hq hq'
      -- A transition of both parts leads to their exit, but from the entry none does.
      obtain rfl := hST r (hE.target hq) (hF.target hq')
      rcases (hE.source hq).1 with rfl | hS
      · have he : (q, a, r) ∈ leaving E q := ⟨hq, rfl⟩
        rw [hg] at he
        exact hgx (congrArg (·.2.2) he).symm
      · rcases (hF.source hq').1 with rfl | hT
        · exact hE.entry_notMem hS
        · exact (hE.source hq).2 (hST q hS hT)
    rw [Set.encard_union_eq hdisj, hE.size, hF.size, Nat.cast_add]
  reached := by
    rintro q (hq | hq)
    · exact (hE.reached q hq).imp fun _ hw => hw.mono Set.subset_union_left
    · exact (hF.reached q hq).imp fun _ hw => hw.mono Set.subset_union_right
  leads := by
    rintro q (hq | hq)
    · exact (hE.leads q hq).imp fun _ hw => hw.mono Set.subset_union_left
    · exact (hF.leads q hq).imp fun _ hw => hw.mono Set.subset_union_right

/-- The four silent steps of a loop leave its entry and the exit of the repeated part. -/
private theorem thin_steps (hpy : p ≠ y) (hxg : x ≠ g) :
    Thin {(p, epsilon, x), (p, epsilon, g), (y, epsilon, g), (y, epsilon, x)} 4 where
  narrow q := by
    by_cases hp : q = p
    · refine narrow_of_leaving_eq_pair (s := x) (t := g) ?_
      ext ⟨s, a, r⟩
      simp only [leaving, Set.mem_insert_iff, Set.mem_singleton_iff, Prod.mk.injEq]
      grind
    · by_cases hy : q = y
      · refine narrow_of_leaving_eq_pair (s := g) (t := x) ?_
        ext ⟨s, a, r⟩
        simp only [leaving, Set.mem_insert_iff, Set.mem_singleton_iff, Prod.mk.injEq]
        grind
      · refine narrow_of_leaving_eq_empty (leaving_eq_empty_iff.mpr fun a r he => ?_)
        simp [hp, hy] at he
  size := by
    rw [Set.encard_insert_of_notMem (by simp [hpy, hxg]), Set.encard_insert_of_notMem (by simp [hpy]),
      Set.encard_pair (by simp [hxg.symm])]
    rfl

theorem loop (hE : Slender E S g y k) (hp : p ∉ S) (hx : x ∉ S) (hpx : p ≠ x) (hpg : p ≠ g) (hxg : x ≠ g) :
    Slender (Part.looped E p g y x) ({x, g} ∪ S) p x (k + 4) := by
  obtain ⟨u, hu⟩ := hE.through
  have hpy : p ≠ y := fun h => hp (h ▸ hE.exit_mem)
  have henter : (p, epsilon, g) ∈ Part.looped E p g y x := .inr (.inr (.inl rfl))
  have hleave : (y, epsilon, x) ∈ Part.looped E p g y x := .inr (.inr (.inr (.inr rfl)))
  have hsub : E ⊆ Part.looped E p g y x := Set.subset_union_left
  refine { toPart := hE.toPart.loop hp hx hpx hpg hxg, toThin := ?_, reached := ?_, leads := ?_ }
  · refine hE.toThin.union (thin_steps hpy hxg) fun q => ?_
    by_cases hq : q = p ∨ q = y
    · left
      rcases hq with rfl | rfl
      · exact hE.leaving_of_notMem hpg hp
      · exact hE.leaving_exit
    · right
      rw [not_or] at hq
      refine leaving_eq_empty_iff.mpr fun a r he => ?_
      simp [hq.1, hq.2] at he
  · rintro q ((rfl | rfl) | hq)
    · exact ⟨[], .silent (.inr (.inl rfl)) (.here q)⟩
    · exact ⟨[], .silent henter (.here q)⟩
    · obtain ⟨w, hw⟩ := hE.reached q hq
      exact ⟨w, .silent henter (hw.mono hsub)⟩
  · have hlast : Walk (Part.looped E p g y x) y [] x := .silent hleave (.here x)
    rintro q ((rfl | rfl) | hq)
    · exact ⟨[], .here q⟩
    · exact ⟨u ++ [], (hu.mono hsub).append hlast⟩
    · obtain ⟨w, hw⟩ := hE.leads q hq
      exact ⟨w ++ [], (hw.mono hsub).append hlast⟩

end Slender

end

end FormalLang
