import FormalLang.Dfa.Minimize
import FormalLang.Proofs.Dfa.Marking
import FormalLang.Proofs.Dfa.Tables
import FormalLang.Proofs.UnionFind.Partition

/-!
# The language of the minimized automaton

The classes of states that no round marks are disjoint and hold all states, and the same words are accepted from all
members of a class. A transition of a class is that of some member. A member that has none accepts no word that begins
with the symbol, hence none is accepted after the transition either.

* `Dfa.acceptsFrom_eq_of_mem_class`: the members of a class accept the same words.
* `Dfa.exists_minimize`: the tables on the classes have no fault.
* `Dfa.acceptsFrom_classOf`: a class accepts the words of its members.
* `Dfa.minimize_language`: what minimization keeps.
-/

namespace FormalLang

namespace Dfa

variable {d : Dfa} {p q : Nat} {a : Symbol} {c : OrderedSet Nat}

/-! ## Classes -/

theorem mem_equivalentPairs : (p, q) ∈ d.equivalentPairs ↔ p < q ∧ q < d.count ∧ d.marks.contains (p, q) = false := by
  rw [equivalentPairs, List.mem_filter, mem_pairsBelow, Bool.not_eq_true', and_assoc]

theorem count_le_completedCount (d : Dfa) : d.count ≤ d.completedCount := by
  unfold completedCount
  split <;> omega

/-- The same words are accepted from states that unmarked pairs connect. -/
theorem acceptsFrom_eq_of_connected (h : UnionFind.Connected d.equivalentPairs p q) (w : List Symbol) :
    d.acceptsFrom p w = d.acceptsFrom q w := by
  induction h with
  | refl => rfl
  | pair h =>
    obtain ⟨hlt, hq, hm⟩ := mem_equivalentPairs.mp h
    have hle := count_le_completedCount d
    refine acceptsFrom_eq_of_unmarked (by omega) (by omega) (fun _ => ?_) w
    rwa [orderedPair_of_lt hlt]
  | symm _ ih => exact ih.symm
  | trans _ _ ih₁ ih₂ => exact ih₁.trans ih₂

/-- The forest in which the pairs that no round marks have been merged. -/
def forest (d : Dfa) : UnionFind Nat :=
  d.equivalentPairs.foldl (fun u (p, q) => (u.union p q).2) (UnionFind.ofList (List.range d.count))

theorem partitions_forest (d : Dfa) : d.forest.Partitions d.equivalentPairs :=
  (UnionFind.Partitions.ofList (List.range d.count)).foldl_union d.equivalentPairs

theorem items_forest (d : Dfa) : d.forest.items = List.range d.count := by
  have hstart : (UnionFind.ofList (List.range d.count)).items = List.range d.count :=
    UnionFind.items_ofList List.nodup_range
  refine (UnionFind.items_foldl_union (UnionFind.Partitions.ofList (List.range d.count)).inv fun e he => ?_).trans hstart
  obtain ⟨hlt, hq, -⟩ := mem_equivalentPairs.mp (show (e.1, e.2) ∈ _ from he)
  rw [hstart, List.mem_range, List.mem_range]
  exact ⟨Nat.lt_trans hlt hq, hq⟩

/-- The classes are the sets of states with one root. -/
theorem classes_eq (d : Dfa) : d.classes = (Search.unseen [] ((List.range d.count).map d.forest.root)).map fun r =>
    OrderedSet.ofList ((List.range d.count).filter (d.forest.root · = r)) := by
  rw [← items_forest]
  exact UnionFind.classes_eq (partitions_forest d).inv

/-- The classes are the sets of states with one root, for roots that tell whether unmarked pairs connect two states. -/
theorem exists_classes_eq (d : Dfa) : ∃ root : Nat → Nat,
    (∀ p q, root p = root q ↔ UnionFind.Connected d.equivalentPairs p q) ∧
      d.classes = (Search.unseen [] ((List.range d.count).map root)).map fun r =>
        OrderedSet.ofList ((List.range d.count).filter (root · = r)) :=
  ⟨_, (partitions_forest d).root_eq_iff, classes_eq d⟩

theorem exists_mem_class (hq : q < d.count) : ∃ c ∈ d.classes, q ∈ c := by
  obtain ⟨root, -, heq⟩ := exists_classes_eq d
  have hr := List.mem_range.mpr hq
  rw [heq]
  refine ⟨_, List.mem_map.mpr ⟨root q, Search.mem_unseen.mpr ⟨List.mem_map.mpr ⟨q, hr, rfl⟩, List.not_mem_nil⟩, rfl⟩, ?_⟩
  rw [OrderedSet.mem_ofList, List.mem_filter]
  exact ⟨hr, decide_eq_true rfl⟩

/-- The members of a class accept the same words. -/
theorem acceptsFrom_eq_of_mem_class (hc : c ∈ d.classes) (hp : p ∈ c) (hq : q ∈ c) (w : List Symbol) :
    d.acceptsFrom p w = d.acceptsFrom q w := by
  obtain ⟨root, hroot, heq⟩ := exists_classes_eq d
  rw [heq] at hc
  obtain ⟨r, -, rfl⟩ := List.mem_map.mp hc
  simp only [OrderedSet.mem_ofList, List.mem_filter, decide_eq_true_eq] at hp hq
  exact acceptsFrom_eq_of_connected ((hroot p q).mp (hp.2.trans hq.2.symm)) w

theorem lt_count_of_mem_class (hc : c ∈ d.classes) (hq : q ∈ c) : q < d.count := by
  rw [classes_eq] at hc
  obtain ⟨r, -, rfl⟩ := List.mem_map.mp hc
  exact List.mem_range.mp (List.mem_filter.mp (OrderedSet.mem_ofList.mp hq)).1

theorem pairwise_disjoint_classes (d : Dfa) : d.classes.Pairwise fun c c' => ∀ q ∈ c, q ∉ c' := by
  obtain ⟨root, -, heq⟩ := exists_classes_eq d
  rw [heq, List.pairwise_map]
  refine (Search.nodup_unseen _ _).imp fun {r s} hne q hq hq' => ?_
  simp only [OrderedSet.mem_ofList, List.mem_filter, decide_eq_true_eq] at hq hq'
  exact hne (hq.2.symm.trans hq'.2)

/-! ## The class of a state -/

theorem classOf_lt (hq : q < d.count) : classOf d.classes q < d.classes.length := by
  obtain ⟨c, hc, hqc⟩ := exists_mem_class hq
  exact List.findIdx_lt_length_of_exists ⟨c, hc, decide_eq_true hqc⟩

theorem mem_class_classOf (hq : q < d.count) : q ∈ d.classes.getD (classOf d.classes q) ∅ := by
  have hlt := classOf_lt hq
  rw [List.getD_eq_getElem _ ∅ hlt]
  exact of_decide_eq_true (List.findIdx_getElem (w := hlt))

theorem lt_length_of_mem_class {classes : List (OrderedSet Nat)} {i : Nat} (h : q ∈ classes.getD i ∅) :
    i < classes.length := by
  by_contra hi
  rw [List.getD_eq_getElem?_getD, List.getElem?_eq_none (Nat.le_of_not_lt hi)] at h
  exact OrderedSet.not_mem_empty q h

/-- A state is a member of one class only. -/
theorem mem_class_iff (hq : q < d.count) {i : Nat} : q ∈ d.classes.getD i ∅ ↔ i = classOf d.classes q := by
  constructor
  · intro hi
    have hlen := lt_length_of_mem_class hi
    have hlen' := classOf_lt hq
    have hj := mem_class_classOf hq
    have hdisj := List.pairwise_iff_getElem.mp (pairwise_disjoint_classes d)
    rw [List.getD_eq_getElem _ ∅ hlen] at hi
    rw [List.getD_eq_getElem _ ∅ hlen'] at hj
    rcases Nat.lt_trichotomy i (classOf d.classes q) with hlt | heq | hlt
    · exact absurd hj (hdisj _ _ hlen hlen' hlt q hi)
    · exact heq
    · exact absurd hi (hdisj _ _ hlen' hlen hlt q hj)
  · rintro rfl
    exact mem_class_classOf hq

theorem mem_getElem_classes_iff {i : Nat} (hi : i < d.classes.length) (hq : q < d.count) :
    q ∈ d.classes[i] ↔ classOf d.classes q = i := by
  rw [← List.getD_eq_getElem _ ∅ hi, mem_class_iff hq, eq_comm]

/-- States of one class accept the same words. -/
theorem acceptsFrom_eq_of_classOf_eq (hp : p < d.count) (hq : q < d.count)
    (h : classOf d.classes p = classOf d.classes q) (w : List Symbol) : d.acceptsFrom p w = d.acceptsFrom q w :=
  acceptsFrom_eq_of_mem_class (getD_mem (classOf_lt hp)) (mem_class_classOf hp) (h ▸ mem_class_classOf hq) w

/-! ## The tables on the classes -/

theorem get?_row_quotientTables {i : Nat} (hi : i < d.classes.length) :
    ((d.quotientTables d.classes).rows.getD i ∅).get? a =
      ((d.transitions.filter (·.1 ∈ d.classes.getD i ∅)).find? (·.2.1 = a)).map fun e =>
        (classOf d.classes e.2.2 : Int) := by
  rw [List.getD_eq_getElem?_getD, List.getD_eq_getElem?_getD, quotientTables, List.getElem?_map,
    List.getElem?_eq_getElem hi]
  exact (Table.get?_foldl_insertNew (fun e : Nat × Symbol × Nat => e.2.1) _ _ ∅ a).trans (Option.none_or)

/-- A transition of a class is that of some member. -/
theorem exists_of_get?_row_eq_some {i : Nat} {v : Int} (hi : i < d.classes.length)
    (h : ((d.quotientTables d.classes).rows.getD i ∅).get? a = some v) :
    ∃ p ∈ d.classes.getD i ∅, ∃ r, d.target? p a = some r ∧ v = classOf d.classes r := by
  rw [get?_row_quotientTables hi] at h
  obtain ⟨⟨p, b, r⟩, hfind, rfl⟩ := Option.map_eq_some_iff.mp h
  have hmem := List.mem_filter.mp (List.mem_of_find?_eq_some hfind)
  have hb := List.find?_some hfind
  obtain rfl : b = a := of_decide_eq_true hb
  exact ⟨p, of_decide_eq_true hmem.2, r, mem_transitions.mp hmem.1, rfl⟩

/-- If a class has no transition, then no member has one. -/
theorem target?_eq_none_of_get?_row {i : Nat} (hi : i < d.classes.length)
    (h : ((d.quotientTables d.classes).rows.getD i ∅).get? a = none) (hp : p ∈ d.classes.getD i ∅) :
    d.target? p a = none := by
  rw [get?_row_quotientTables hi, Option.map_eq_none_iff, List.find?_eq_none] at h
  refine Option.eq_none_iff_forall_ne_some.mpr fun r hr => ?_
  have hmem : (p, a, r) ∈ d.transitions.filter (·.1 ∈ d.classes.getD i ∅) :=
    List.mem_filter.mpr ⟨mem_transitions.mpr hr, decide_eq_true hp⟩
  exact h _ hmem (decide_eq_true rfl)

theorem faults_quotientTables (d : Dfa) : (d.quotientTables d.classes).faults = [] := by
  have hrows : (d.quotientTables d.classes).rows.length = d.classes.length := List.length_map _
  have hstate : ∀ q < d.count, (d.quotientTables d.classes).HasState (classOf d.classes q) := by
    intro q hq
    have := classOf_lt hq
    unfold DfaTables.HasState
    omega
  refine DfaTables.faults_eq_nil_iff.mpr ⟨?_, hstate _ d.start_lt, fun v hv => ?_, fun row hrow e he => ?_⟩
  · rw [hrows]
    rfl
  · obtain ⟨q, hq, rfl⟩ := List.mem_map.mp hv
    exact hstate q (d.accept_lt q hq)
  · obtain ⟨i, hi, rfl⟩ := List.getElem_of_mem hrow
    have hi' : i < d.classes.length := hrows ▸ hi
    have hget : ((d.quotientTables d.classes).rows.getD i ∅).get? e.1 = some e.2 := by
      rw [List.getD_eq_getElem _ ∅ hi]
      exact Table.mem_entries_iff.mp he
    obtain ⟨p, -, r, hr, hv⟩ := exists_of_get?_row_eq_some hi' hget
    rw [hv]
    exact ⟨OrderedSet.mem_ofList.mpr (mem_alphabet_of_target? hr), hstate r (target_lt_count hr)⟩

/-- Minimization succeeds. -/
theorem exists_minimize (d : Dfa) (flags : BuildFlags) :
    ∃ m, d.minimize flags = .ok m ∧ (d.quotientTables d.classes).Represents m ∧ m.sources = some d.classes := by
  obtain ⟨m, hm, hrep, hsources, -⟩ :=
    DfaTables.exists_ofTables flags (some d.classes) (faults_quotientTables d)
  exact ⟨m, hm, hrep, hsources⟩

section

variable {m : Dfa} (hm : (d.quotientTables d.classes).Represents m)
include hm

theorem count_quotient : m.count = d.classes.length := hm.count_eq.trans (List.length_map _)

theorem alphabet_quotient : m.alphabet = d.alphabet := by
  rw [hm.alphabet_eq]
  exact OrderedSet.ext fun a => OrderedSet.mem_ofList

theorem start_quotient : m.start = classOf d.classes d.start := Int.natCast_inj.mp hm.start_eq

end

/-! ## The words accepted from a class -/

/-- A class accepts the words of its members. -/
theorem acceptsFrom_classOf {m : Dfa} (hm : (d.quotientTables d.classes).Represents m) (hq : q < d.count)
    (w : List Symbol) : m.acceptsFrom (classOf d.classes q) w = d.acceptsFrom q w := by
  induction w generalizing q with
  | nil =>
    rw [acceptsFrom_nil, acceptsFrom_nil, decide_eq_decide, hm.accept_iff]
    show (classOf d.classes q : Int) ∈ d.accept.toList.map _ ↔ _
    rw [List.mem_map]
    constructor
    · rintro ⟨p, hp, h⟩
      have := acceptsFrom_eq_of_classOf_eq (d.accept_lt p hp) hq (Int.natCast_inj.mp h) []
      rw [acceptsFrom_nil, acceptsFrom_nil, decide_eq_decide] at this
      exact this.mp hp
    · intro h
      exact ⟨q, h, rfl⟩
  | cons a w ih =>
    have hi := classOf_lt hq
    have hqc := mem_class_classOf hq
    rw [acceptsFrom_cons, hm.target_eq]
    cases hrow : ((d.quotientTables d.classes).rows.getD (classOf d.classes q) ∅).get? a with
    | none =>
      rw [acceptsFrom_cons, target?_eq_none_of_get?_row hi hrow hqc]
      rfl
    | some v =>
      -- The member with the transition accepts the same words, though `q` itself may have no transition.
      obtain ⟨p, hp, r, hr, rfl⟩ := exists_of_get?_row_eq_some hi hrow
      calc m.acceptsFrom (classOf d.classes r) w
        _ = d.acceptsFrom r w := ih (target_lt_count hr)
        _ = d.acceptsFrom p (a :: w) := by rw [acceptsFrom_cons, hr]; rfl
        _ = d.acceptsFrom q (a :: w) := acceptsFrom_eq_of_mem_class (getD_mem hi) hp hqc _

/-- Minimization succeeds and keeps the texts accepted, and each state is a member of exactly one class, from which the
same words are accepted. -/
theorem minimize_language (d : Dfa) (flags : BuildFlags) :
    ∃ m classes, d.minimize flags = .ok m ∧ m.sources = some classes ∧ classes.length = m.count ∧
      (∀ text, m.accepts text = d.accepts text) ∧
      ∀ q < d.count, ∃ i < m.count, (∀ j, q ∈ classes.getD j ∅ ↔ j = i) ∧
        ∀ w, m.acceptsFrom i w = d.acceptsFrom q w := by
  obtain ⟨m, hm, hrep, hsources⟩ := exists_minimize d flags
  have hcount : d.classes.length = m.count := by
    rw [hrep.count_eq]
    exact (List.length_map _).symm
  refine ⟨m, d.classes, hm, hsources, hcount, fun text => ?_, fun q hq => ?_⟩
  · have hstart : m.start = classOf d.classes d.start := Int.natCast_inj.mp hrep.start_eq
    rw [accepts, accepts, acceptsWord, acceptsWord, hstart]
    exact acceptsFrom_classOf hrep d.start_lt _
  · exact ⟨_, hcount ▸ classOf_lt hq, fun j => mem_class_iff hq, acceptsFrom_classOf hrep hq⟩

/-- A class of two accepting states, of which one has no transition and the other one leads to a state that accepts
nothing. -/
theorem minimize_language_partial :
    ∃ d, ofTables ⟨4, 0, [1, 2], [.ofList [("a", 1), ("b", 2)], ∅, .ofList [("a", 3)], ∅], none⟩ = .ok d ∧ 2 < d.count ∧
      ∃ m classes, d.minimize = .ok m ∧ m.sources = some classes ∧ m.accepts "b" = true ∧ m.accepts "ba" = false ∧
        ∃ i < m.count, 2 ∈ classes.getD i ∅ ∧ m.acceptsFrom i [] = true ∧ m.acceptsFrom i ["a"] = false := by
  obtain ⟨d, hd⟩ : ∃ d, ofTables ⟨4, 0, [1, 2], [.ofList [("a", 1), ("b", 2)], ∅, .ofList [("a", 3)], ∅], none⟩ =
      .ok d := ⟨_, rfl⟩
  have hq : 2 < d.count := by
    obtain rfl := Except.ok.inj hd
    decide
  obtain ⟨m, classes, hm, hsources, -, haccepts, hstates⟩ := minimize_language d d.flags
  obtain ⟨i, hi, hclass, hwords⟩ := hstates 2 hq
  refine ⟨d, hd, hq, m, classes, hm, hsources, ?_, ?_, i, hi, (hclass i).mpr rfl, ?_, ?_⟩
  · rw [haccepts]
    obtain rfl := Except.ok.inj hd
    decide
  · rw [haccepts]
    obtain rfl := Except.ok.inj hd
    decide
  · rw [hwords]
    obtain rfl := Except.ok.inj hd
    decide
  · rw [hwords]
    obtain rfl := Except.ok.inj hd
    decide

end Dfa

end FormalLang
