import FormalLang.Proofs.Dfa.Quotient

/-!
# What is marked is told apart

A pair is marked because exactly one of its states accepts, or because some symbol leads it to a pair marked before. In
both cases a word is accepted from exactly one of the two states. So states that accept the same words are never
marked, hence they are merged.

* `Dfa.exists_distinguishes_of_marked`: a word that tells the states of a marked pair apart.
* `Dfa.connected_iff`: unmarked pairs connect the states from which the same words are accepted.
* `Dfa.classOf_eq_iff`: two states have one class exactly if the same words are accepted from them.
* `Dfa.exists_classOf_eq`: every class is that of a state.
* `Dfa.eq_of_acceptsFrom_eq`: no two classes accept the same words.
* `Dfa.target?_classOf`: a transition of a state is one of its class.
-/

namespace FormalLang

namespace Dfa

variable {d m : Dfa} {p q r : Nat} {a : Symbol}

/-! ## Distinguished pairs -/

/-- Some word of symbols of the automaton is accepted from exactly one of the two states. -/
def Separated (d : Dfa) (p q : Nat) : Prop := ∃ w, (∀ a ∈ w, a ∈ d.alphabet) ∧ d.Distinguishes p q w

theorem Separated.symm (h : d.Separated p q) : d.Separated q p := by
  obtain ⟨w, hw, hd⟩ := h
  exact ⟨w, hw, hd.symm⟩

theorem separated_of_orderedPair (h : d.Separated (orderedPair p q).1 (orderedPair p q).2) : d.Separated p q := by
  rcases Nat.lt_trichotomy p q with hlt | rfl | hlt
  · rwa [orderedPair_of_lt hlt] at h
  · rwa [orderedPair, Nat.min_self, Nat.max_self] at h
  · rw [orderedPair_comm, orderedPair_of_lt hlt] at h
    exact h.symm

theorem separated_of_differAtOnce (h : d.differAtOnce p q = true) : d.Separated p q := by
  refine ⟨[], fun a ha => absurd ha List.not_mem_nil, fun heq => ?_⟩
  rw [acceptsFrom_nil, acceptsFrom_nil, decide_eq_decide] at heq
  simp [differAtOnce, heq] at h

/-- The word that tells the targets apart tells the states apart after the symbol that leads there. -/
theorem separated_of_target (ha : a ∈ d.alphabet) (h : d.Separated (d.completedTarget p a) (d.completedTarget q a)) :
    d.Separated p q := by
  obtain ⟨w, hw, hd⟩ := h
  refine ⟨a :: w, List.forall_mem_cons.mpr ⟨ha, hw⟩, fun heq => hd ?_⟩
  rwa [acceptsFrom_cons_completed, acceptsFrom_cons_completed] at heq

/-- All marked pairs are told apart by some word. -/
def MarksSeparate (d : Dfa) (marks : Table (Nat × Nat) Nat) : Prop :=
  ∀ e, marks.contains e = true → d.Separated e.1 e.2

theorem marksSeparate_firstMarks (d : Dfa) : d.MarksSeparate d.firstMarks := by
  intro e he
  rw [Table.contains, firstMarks, Table.get?_ofList_map] at he
  split at he
  · next h => exact separated_of_differAtOnce (List.mem_filter.mp h).2
  · exact absurd he Bool.false_ne_true

namespace MarksSeparate

variable {marks : Table (Nat × Nat) Nat} {k : Nat}

theorem markPair (h : d.MarksSeparate marks) (e : Nat × Nat) : d.MarksSeparate (d.markPair k marks e) := by
  unfold Dfa.markPair
  split
  · next hmark =>
    rw [Bool.and_eq_true, leadsToMark, List.any_eq_true] at hmark
    obtain ⟨a, ha, hto⟩ := hmark.2
    intro e' he'
    rw [Table.contains, Table.get?_insert] at he'
    split at he'
    · next heq =>
      subst heq
      exact separated_of_target ha (separated_of_orderedPair (h _ hto))
    · exact h e' he'
  · exact h

theorem markRound (h : d.MarksSeparate marks) : d.MarksSeparate (d.markRound k marks) := by
  rw [markRound_eq]
  induction pairsBelow d.completedCount generalizing marks with
  | nil => exact h
  | cons e l ih => exact ih (h.markPair e)

end MarksSeparate

/-- A word tells the states of a marked pair apart: this holds of the first marks, and each round keeps it. -/
theorem exists_distinguishes_of_marked (h : d.marks.contains (p, q) = true) : d.Separated p q :=
  settle_induction (fun _ _ hm => hm.markRound) _ (marksSeparate_firstMarks d) (p, q) h

/-! ## Classes -/

/-- A class is what unmarked pairs connect to one of its members. -/
theorem exists_connected_of_mem_classes {c : OrderedSet Nat} (hc : c ∈ d.classes) :
    ∃ s < d.count, ∀ q, q ∈ c ↔ q < d.count ∧ UnionFind.Connected d.equivalentPairs q s := by
  obtain ⟨root, hroot, heq⟩ := exists_classes_eq d
  rw [heq] at hc
  obtain ⟨_, hroots, rfl⟩ := List.mem_map.mp hc
  obtain ⟨s, hs, rfl⟩ := List.mem_map.mp (Search.mem_unseen.mp hroots).1
  refine ⟨s, List.mem_range.mp hs, fun q => ?_⟩
  rw [OrderedSet.mem_ofList, List.mem_filter, List.mem_range, decide_eq_true_eq, hroot]

theorem classOf_eq_of_connected (hp : p < d.count) (hq : q < d.count)
    (h : UnionFind.Connected d.equivalentPairs p q) : classOf d.classes p = classOf d.classes q := by
  obtain ⟨s, -, hs⟩ := exists_connected_of_mem_classes (getD_mem (x := ∅) (classOf_lt hp))
  have hps := ((hs p).mp (mem_class_classOf hp)).2
  exact (mem_class_iff hq).mp ((hs q).mpr ⟨hq, h.symm.trans hps⟩)

private theorem connected_of_lt (hpq : p < q) (hq : q < d.count) (h : ∀ w, d.acceptsFrom p w = d.acceptsFrom q w) :
    UnionFind.Connected d.equivalentPairs p q := by
  cases hm : d.marks.contains (p, q) with
  | true =>
    obtain ⟨w, -, hw⟩ := exists_distinguishes_of_marked hm
    exact absurd (h w) hw
  | false => exact .pair (mem_equivalentPairs.mpr ⟨hpq, hq, hm⟩)

/-- Unmarked pairs connect two states exactly if the same words are accepted from them. -/
theorem connected_iff (hp : p < d.count) (hq : q < d.count) :
    UnionFind.Connected d.equivalentPairs p q ↔ ∀ w, d.acceptsFrom p w = d.acceptsFrom q w := by
  refine ⟨acceptsFrom_eq_of_connected, fun h => ?_⟩
  rcases Nat.lt_trichotomy p q with hlt | rfl | hlt
  · exact connected_of_lt hlt hq h
  · exact .refl p
  · exact (connected_of_lt hlt hp fun w => (h w).symm).symm

/-- Two states have one class exactly if the same words are accepted from them. -/
theorem classOf_eq_iff (hp : p < d.count) (hq : q < d.count) :
    classOf d.classes p = classOf d.classes q ↔ ∀ w, d.acceptsFrom p w = d.acceptsFrom q w :=
  ⟨fun h w => acceptsFrom_eq_of_classOf_eq hp hq h w, fun h => classOf_eq_of_connected hp hq ((connected_iff hp hq).mpr h)⟩

/-- Every class has a member. -/
theorem exists_classOf_eq {i : Nat} (hi : i < d.classes.length) : ∃ q < d.count, classOf d.classes q = i := by
  obtain ⟨s, hs, hmem⟩ := exists_connected_of_mem_classes (getD_mem (x := ∅) hi)
  exact ⟨s, hs, ((mem_class_iff hs).mp ((hmem s).mpr ⟨hs, .refl s⟩)).symm⟩

/-- The states of the automaton on the classes are told apart by words. -/
theorem eq_of_acceptsFrom_eq {i j : Nat} (hm : (d.quotientTables d.classes).Represents m) (hi : i < m.count)
    (hj : j < m.count) (h : ∀ w, m.acceptsFrom i w = m.acceptsFrom j w) : i = j := by
  obtain ⟨p, hp, rfl⟩ := exists_classOf_eq (count_quotient hm ▸ hi)
  obtain ⟨q, hq, rfl⟩ := exists_classOf_eq (count_quotient hm ▸ hj)
  refine (classOf_eq_iff hp hq).mpr fun w => ?_
  rw [← acceptsFrom_classOf hm hp, ← acceptsFrom_classOf hm hq, h]

/-- A transition of a state is one of its class. The member that decides where the class goes may be another one, but its
target accepts the same words. -/
theorem target?_classOf (hm : (d.quotientTables d.classes).Represents m) (hq : q < d.count)
    (h : d.target? q a = some r) : m.target? (classOf d.classes q) a = some (classOf d.classes r) := by
  have hi := classOf_lt hq
  rw [hm.target_eq]
  cases hrow : ((d.quotientTables d.classes).rows.getD (classOf d.classes q) ∅).get? a with
  | none =>
    rw [target?_eq_none_of_get?_row hi hrow (mem_class_classOf hq)] at h
    contradiction
  | some v =>
    obtain ⟨p, hp, s, hs, rfl⟩ := exists_of_get?_row_eq_some hi hrow
    have hwords : ∀ w, d.acceptsFrom s w = d.acceptsFrom r w := by
      intro w
      calc d.acceptsFrom s w
        _ = d.acceptsFrom p (a :: w) := by rw [acceptsFrom_cons, hs]; rfl
        _ = d.acceptsFrom q (a :: w) := acceptsFrom_eq_of_mem_class (getD_mem hi) hp (mem_class_classOf hq) _
        _ = d.acceptsFrom r w := by rw [acceptsFrom_cons, h]; rfl
    rw [(classOf_eq_iff (target_lt_count hs) (target_lt_count h)).mpr hwords]
    rfl

end Dfa

end FormalLang
