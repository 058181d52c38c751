import FormalLang.Dfa.Distinguish
import FormalLang.Dfa.Isomorphism
import Mathlib.Data.List.Perm.Subperm

/-!
# What stays unmarked

The rounds of marking end with one that marks nothing. Then the pairs that are not marked agree on acceptance and are
led by every symbol to pairs that are not marked either, so no word tells their states apart.

* `Dfa.completedTarget_lt`: every symbol leads every state, the dead one included, to a state.
* `Dfa.settles_marking`: the rounds of marking come to an end.
* `Dfa.not_leadsToMark_of_unmarked`: no symbol leads an unmarked pair to a marked one.
* `Dfa.acceptsFrom_eq_of_unmarked`: the same words are accepted from the states of an unmarked pair.
-/

namespace FormalLang

namespace Dfa

variable {d : Dfa} {p q : Nat} {a : Symbol}

/-! ## Missing transitions -/

theorem target?_of_count_le (h : d.count ≤ q) (a : Symbol) : d.target? q a = none := by
  have hrow : d.row q = ∅ := by
    rw [row, List.getD_eq_getElem?_getD, List.getElem?_eq_none h]
    rfl
  rw [target?, hrow]
  rfl

theorem row_mem (h : q < d.count) : d.row q ∈ d.rows := by
  rw [row, List.getD_eq_getElem?_getD, List.getElem?_eq_getElem h]
  exact List.getElem_mem h

theorem mem_alphabet_of_target? (h : d.target? q a = some p) : a ∈ d.alphabet := by
  by_cases hq : q < d.count
  · exact d.symbol_mem _ (row_mem hq) (a, p) (Table.mem_entries_iff.mpr h)
  · rw [target?_of_count_le (Nat.le_of_not_lt hq)] at h
    exact nomatch h

theorem target?_eq_none_of_notMem (ha : a ∉ d.alphabet) : d.target? q a = none :=
  Option.eq_none_iff_forall_ne_some.mpr fun _ hp => ha (mem_alphabet_of_target? hp)

theorem source_lt_count (h : d.target? p a = some q) : p < d.count := by
  by_contra hp
  rw [target?_of_count_le (Nat.le_of_not_lt hp)] at h
  contradiction

/-- A transition joins states. -/
theorem ends_lt_count {e : Nat × Symbol × Nat} (he : e ∈ d.transitions) : e.1 < d.count ∧ e.2.2 < d.count := by
  have htarget : d.target? e.1 e.2.1 = some e.2.2 := mem_transitions.mp he
  exact ⟨source_lt_count htarget, target_lt_count htarget⟩

/-- From a number that is no state no word is accepted. -/
theorem acceptsFrom_of_count_le (h : d.count ≤ q) (w : List Symbol) : d.acceptsFrom q w = false := by
  cases w with
  | nil =>
    rw [acceptsFrom_nil, decide_eq_false_iff_not]
    intro hq
    exact Nat.not_lt.mpr h (d.accept_lt q hq)
  | cons a w =>
    rw [acceptsFrom_cons, target?_of_count_le h]
    rfl

/-- A missing transition and one to the dead state accept the same words. -/
theorem acceptsFrom_cons_completed (q : Nat) (a : Symbol) (w : List Symbol) :
    d.acceptsFrom q (a :: w) = d.acceptsFrom (d.completedTarget q a) w := by
  rw [acceptsFrom_cons, completedTarget]
  cases d.target? q a with
  | none => exact (acceptsFrom_of_count_le (Nat.le_refl _) w).symm
  | some p => rfl

/-- A row without gaps lists every symbol of the alphabet: it lists as many, each once. -/
theorem exists_target_of_isComplete (h : d.isComplete = true) (hq : q < d.count) (ha : a ∈ d.alphabet) :
    ∃ p, d.target? q a = some p := by
  have hrow := row_mem hq
  have hsub : (d.row q).keys ⊆ d.alphabet.toList := by
    intro b hb
    obtain ⟨e, he, rfl⟩ := List.mem_map.mp hb
    exact d.symbol_mem _ hrow e he
  have hsize : (d.row q).size = d.alphabet.size := by
    have := List.all_eq_true.mp h _ hrow
    rwa [decide_eq_true_eq] at this
  have hlen : d.alphabet.toList.length ≤ (d.row q).keys.length := by
    rw [Table.keys, List.length_map]
    exact Nat.le_of_eq hsize.symm
  have hperm := (List.subperm_of_subset (d.row q).nodup hsub).perm_of_length_le hlen
  exact Option.isSome_iff_exists.mp (Table.get?_isSome_iff.mpr (hperm.mem_iff.mpr ha))

theorem completedTarget_lt (hq : q < d.completedCount) (ha : a ∈ d.alphabet) :
    d.completedTarget q a < d.completedCount := by
  unfold completedCount completedTarget at *
  split at hq
  · next h =>
    obtain ⟨p, hp⟩ := exists_target_of_isComplete h hq ha
    rw [if_pos h, hp]
    exact target_lt_count hp
  · next h =>
    rw [if_neg h]
    cases hp : d.target? q a with
    | none => exact Nat.lt_succ_self _
    | some p => exact Nat.lt_succ_of_lt (target_lt_count hp)

/-! ## Pairs -/

theorem mem_pairsBelow {n : Nat} : (p, q) ∈ pairsBelow n ↔ p < q ∧ q < n := by
  simp only [pairsBelow, List.mem_flatMap, List.mem_map, List.mem_filter, List.mem_range, decide_eq_true_eq,
    Prod.mk.injEq]
  constructor
  · rintro ⟨p', hp, q', ⟨hq, hlt⟩, rfl, rfl⟩
    exact ⟨hlt, hq⟩
  · rintro ⟨hlt, hq⟩
    exact ⟨p, Nat.lt_trans hlt hq, q, ⟨hq, hlt⟩, rfl, rfl⟩

theorem orderedPair_comm (p q : Nat) : orderedPair p q = orderedPair q p := by
  rw [orderedPair, orderedPair, Nat.min_comm, Nat.max_comm]

theorem orderedPair_of_lt (h : p < q) : orderedPair p q = (p, q) := by
  rw [orderedPair, Nat.min_eq_left (Nat.le_of_lt h), Nat.max_eq_right (Nat.le_of_lt h)]

/-! ## Rounds -/

variable {m : Table (Nat × Nat) Nat} {e : Nat × Nat} {k : Nat}

/-- What a round does with one pair. -/
def markPair (d : Dfa) (round : Nat) (marks : Table (Nat × Nat) Nat) (e : Nat × Nat) : Table (Nat × Nat) Nat :=
  if !marks.contains e && d.leadsToMark marks e.1 e.2 then marks.insert e round else marks

theorem markRound_eq (d : Dfa) (k : Nat) (m : Table (Nat × Nat) Nat) :
    d.markRound k m = (pairsBelow d.completedCount).foldl (d.markPair k) m := rfl

theorem markPair_of_marked (h : m.contains e = true) : d.markPair k m e = m := by
  rw [markPair, h]
  rfl

theorem markPair_of_not_leads (h : d.leadsToMark m e.1 e.2 = false) : d.markPair k m e = m := by
  rw [markPair, h, Bool.and_false]
  rfl

theorem keys_markPair_of_leads (hm : m.contains e = false) (h : d.leadsToMark m e.1 e.2 = true) :
    (d.markPair k m e).keys = m.keys ++ [e] := by
  have he : e ∉ m.keys := by
    intro he
    have : m.contains e = true := Table.get?_isSome_iff.mpr he
    rw [hm] at this
    exact nomatch this
  rw [markPair, hm, h]
  exact (Table.keys_insert m e k).trans (if_neg he)

/-- A pair is marked, or nothing changes. -/
theorem markPair_cases (d : Dfa) (k : Nat) (m : Table (Nat × Nat) Nat) (e : Nat × Nat) :
    (d.markPair k m e).keys = m.keys ++ [e] ∨
      d.markPair k m e = m ∧ (m.contains e = true ∨ d.leadsToMark m e.1 e.2 = false) := by
  cases hm : m.contains e with
  | true => exact .inr ⟨markPair_of_marked hm, .inl rfl⟩
  | false =>
    cases hl : d.leadsToMark m e.1 e.2 with
    | true => exact .inl (keys_markPair_of_leads hm hl)
    | false => exact .inr ⟨markPair_of_not_leads hl, .inr rfl⟩

/-- Going through some pairs adds some of them to the marked ones, or changes nothing. -/
theorem keys_foldl_markPair (d : Dfa) (k : Nat) (l : List (Nat × Nat)) (m : Table (Nat × Nat) Nat) :
    ∃ l', l' ⊆ l ∧ (l.foldl (d.markPair k) m).keys = m.keys ++ l' ∧ (l' = [] → l.foldl (d.markPair k) m = m) := by
  induction l generalizing m with
  | nil => exact ⟨[], List.nil_subset _, (List.append_nil _).symm, fun _ => rfl⟩
  | cons e l ih =>
    obtain ⟨l', hl', hkeys, hnil⟩ := ih (d.markPair k m e)
    rw [List.foldl_cons, hkeys]
    rcases markPair_cases d k m e with h | ⟨h, -⟩
    · refine ⟨e :: l', List.cons_subset_cons e hl', ?_, fun h => nomatch h⟩
      rw [h, List.append_assoc]
      rfl
    · refine ⟨l', List.subset_cons_of_subset e hl', by rw [h], fun hl => ?_⟩
      rw [hnil hl, h]

/-- If going through some pairs changes nothing, each of them is marked or leads to no marked pair. -/
theorem unmarked_of_foldl_markPair_eq {l : List (Nat × Nat)} (h : l.foldl (d.markPair k) m = m) :
    ∀ e ∈ l, m.contains e = true ∨ d.leadsToMark m e.1 e.2 = false := by
  induction l with
  | nil => exact fun _ he => absurd he List.not_mem_nil
  | cons e l ih =>
    rw [List.foldl_cons] at h
    rcases markPair_cases d k m e with hkeys | ⟨heq, hor⟩
    · -- A pair that has been marked stays so, hence the marks would be more.
      obtain ⟨l', -, hl', -⟩ := keys_foldl_markPair d k l (d.markPair k m e)
      rw [h, hkeys] at hl'
      have := congrArg List.length hl'
      simp only [List.length_append, List.length_singleton] at this
      omega
    · rw [heq] at h
      exact List.forall_mem_cons.mpr ⟨hor, ih h⟩

theorem contains_of_keys_append {m' : Table (Nat × Nat) Nat} {l : List (Nat × Nat)} (h : m'.keys = m.keys ++ l)
    (he : m.contains e = true) : m'.contains e = true := by
  have hm := Table.get?_isSome_iff.mp he
  exact Table.get?_isSome_iff.mpr (h ▸ List.mem_append_left _ hm)

/-! ## The marks -/

theorem keys_firstMarks_subset (d : Dfa) : d.firstMarks.keys ⊆ pairsBelow d.completedCount := by
  intro e he
  obtain ⟨v, hv⟩ := Option.isSome_iff_exists.mp (Table.get?_isSome_iff.mpr he)
  rw [firstMarks, Table.get?_ofList_map] at hv
  split at hv
  · next h => exact (List.mem_filter.mp h).1
  · exact nomatch hv

/-- Pairs of states are marked, and nothing else. -/
theorem keys_markRound_subset (d : Dfa) (k : Nat) (h : m.keys ⊆ pairsBelow d.completedCount) :
    (d.markRound k m).keys ⊆ pairsBelow d.completedCount := by
  obtain ⟨l, hl, hkeys, -⟩ := keys_foldl_markPair d k (pairsBelow d.completedCount) m
  rw [markRound_eq, hkeys]
  exact List.append_subset.mpr ⟨h, hl⟩

theorem size_lt_size_markRound (d : Dfa) (hne : d.markRound k m ≠ m) : m.size < (d.markRound k m).size := by
  obtain ⟨l, -, hkeys, hnil⟩ := keys_foldl_markPair d k (pairsBelow d.completedCount) m
  have hlen := congrArg List.length hkeys
  rw [Table.keys, Table.keys, List.length_append, List.length_map, List.length_map] at hlen
  have hpos : 0 < l.length := List.length_pos_iff.mpr fun h => hne (hnil h)
  rw [markRound_eq, Table.size, Table.size, hlen]
  omega

/-- The rounds of marking come to an end: each but the last one marks a pair, and there are more rounds than pairs. -/
theorem settles_marking (d : Dfa) : Settles d.markRound 0 d.firstMarks d.marking := by
  have hsize : ∀ m : Table (Nat × Nat) Nat, m.keys ⊆ pairsBelow d.completedCount →
      m.size ≤ (pairsBelow d.completedCount).length := by
    intro m hm
    have := List.Nodup.length_le_of_subset m.nodup hm
    rwa [List.length_map] at this
  exact settles_settle (fun k _ => keys_markRound_subset d k) hsize (fun _ _ _ => size_lt_size_markRound d)
    (keys_firstMarks_subset d) (by omega)

theorem keys_marks_subset (d : Dfa) : d.marks.keys ⊆ pairsBelow d.completedCount :=
  settle_induction (P := fun m : Table (Nat × Nat) Nat => m.keys ⊆ pairsBelow d.completedCount)
    (fun k _ => keys_markRound_subset d k) _ (keys_firstMarks_subset d)

/-- The last round of marking changes nothing. -/
theorem markRound_marks (d : Dfa) : ∃ k, d.markRound k d.marks = d.marks := ⟨_, d.settles_marking.fixed⟩

/-- What the first round marks stays marked. -/
theorem contains_marks_of_differAtOnce (hpq : p < q) (hq : q < d.completedCount) (h : d.differAtOnce p q = true) :
    d.marks.contains (p, q) = true := by
  refine settle_induction (P := fun m : Table (Nat × Nat) Nat => m.contains (p, q) = true) (fun k m hm => ?_) _ ?_
  · obtain ⟨l, -, hkeys, -⟩ := keys_foldl_markPair d k (pairsBelow d.completedCount) m
    exact contains_of_keys_append hkeys hm
  · rw [Table.contains, firstMarks, Table.get?_ofList_map, if_pos]
    · rfl
    · exact List.mem_filter.mpr ⟨mem_pairsBelow.mpr ⟨hpq, hq⟩, h⟩

theorem not_leadsToMark_of_unmarked (hpq : p < q) (hq : q < d.completedCount) (h : d.marks.contains (p, q) = false) :
    d.leadsToMark d.marks p q = false := by
  obtain ⟨k, hk⟩ := markRound_marks d
  have := unmarked_of_foldl_markPair_eq hk (p, q) (mem_pairsBelow.mpr ⟨hpq, hq⟩)
  rw [h] at this
  exact this.resolve_left Bool.false_ne_true

/-! ## Unmarked pairs -/

/-- Two states are one, or no round marks them. -/
def Unmarked (d : Dfa) (p q : Nat) : Prop := p ≠ q → d.marks.contains (orderedPair p q) = false

namespace Unmarked

theorem refl (d : Dfa) (p : Nat) : d.Unmarked p p := fun h => absurd rfl h

theorem symm (h : d.Unmarked p q) : d.Unmarked q p := fun hne => orderedPair_comm p q ▸ h hne.symm

theorem contains_eq (h : d.Unmarked p q) (hpq : p < q) : d.marks.contains (p, q) = false :=
  orderedPair_of_lt hpq ▸ h (Nat.ne_of_lt hpq)

private theorem accept_iff_of_lt (h : d.Unmarked p q) (hpq : p < q) (hq : q < d.completedCount) :
    p ∈ d.accept ↔ q ∈ d.accept := by
  have hdiff : d.differAtOnce p q = false := by
    by_contra hne
    have := contains_marks_of_differAtOnce hpq hq (by simpa using hne)
    rw [h.contains_eq hpq] at this
    exact nomatch this
  simpa [differAtOnce] using hdiff

/-- Both states accept, or none does. -/
theorem accept_iff (h : d.Unmarked p q) (hp : p < d.completedCount) (hq : q < d.completedCount) :
    p ∈ d.accept ↔ q ∈ d.accept := by
  rcases Nat.lt_trichotomy p q with hlt | rfl | hlt
  · exact accept_iff_of_lt h hlt hq
  · exact Iff.rfl
  · exact (accept_iff_of_lt h.symm hlt hp).symm

private theorem target_of_lt (h : d.Unmarked p q) (hpq : p < q) (hq : q < d.completedCount) (ha : a ∈ d.alphabet) :
    d.Unmarked (d.completedTarget p a) (d.completedTarget q a) := by
  intro _
  have hl := not_leadsToMark_of_unmarked hpq hq (h.contains_eq hpq)
  rw [leadsToMark, List.any_eq_false] at hl
  simpa using hl a ha

/-- A symbol leads an unmarked pair to an unmarked pair. -/
theorem target (h : d.Unmarked p q) (hp : p < d.completedCount) (hq : q < d.completedCount) (ha : a ∈ d.alphabet) :
    d.Unmarked (d.completedTarget p a) (d.completedTarget q a) := by
  rcases Nat.lt_trichotomy p q with hlt | rfl | hlt
  · exact target_of_lt h hlt hq ha
  · exact .refl d _
  · exact (target_of_lt h.symm hlt hp ha).symm

end Unmarked

/-- The states of an unmarked pair accept the same words: they agree on acceptance, and each symbol leads them to an
unmarked pair again. -/
theorem acceptsFrom_eq_of_unmarked (hp : p < d.completedCount) (hq : q < d.completedCount) (h : d.Unmarked p q)
    (w : List Symbol) : d.acceptsFrom p w = d.acceptsFrom q w := by
  induction w generalizing p q with
  | nil => simp only [acceptsFrom_nil, h.accept_iff hp hq]
  | cons a w ih =>
    by_cases ha : a ∈ d.alphabet
    · rw [acceptsFrom_cons_completed, acceptsFrom_cons_completed]
      exact ih (completedTarget_lt hp ha) (completedTarget_lt hq ha) (h.target hp hq ha)
    · rw [acceptsFrom_cons, acceptsFrom_cons, target?_eq_none_of_notMem ha, target?_eq_none_of_notMem ha]

end Dfa

end FormalLang
