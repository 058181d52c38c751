import FormalLang.Dfa.Strict
import FormalLang.Proofs.Dfa.Marking
import FormalLang.Proofs.Faults

/-!
# Strict operations find what they look up

The rows of an automaton are those of its states, and their targets are states. If every row has as many symbols as the alphabet, it
has each of them, so the rows of a complete automaton need not be filled up: the look-ups of the rounds of marking find the
targets in either case.

* `Dfa.rowOf_parts`, `Dfa.targetOf_completed`: the look-ups in the rows and in the completed rows.
* `Dfa.accepts_parts`, `marks_parts`, `equivalentPairs_parts`: runs and the table of distinguishable pairs.
* `Dfa.transitions_parts`, `diagram_parts`, `dump_parts`, `grammar_parts`: what is read off the rows.
-/

namespace FormalLang

namespace Dfa

variable {d : Dfa} {p q : Nat} {a : Symbol}

theorem getElem?_rows (hq : q < d.count) : d.rows[q]? = some (d.row q) := by
  rw [row, List.getD_eq_getElem?_getD, List.getElem?_eq_getElem hq, Option.getD_some]

theorem rowOf_parts (hq : q < d.count) : DfaParts.rowOf d.rows q = .ok (d.row q) := by
  rw [DfaParts.rowOf, getElem?_rows hq, found_some]

/-! ## Runs -/

theorem acceptsFrom_parts (hq : q < d.count) (w : List Symbol) : d.parts.acceptsFrom q w = .ok (d.acceptsFrom q w) := by
  induction w generalizing q with
  | nil =>
    rw [acceptsFrom_nil]
    rfl
  | cons a w ih =>
    rw [acceptsFrom_cons]
    by_cases ha : a ∈ d.alphabet
    · refine (if_pos ha).trans (bind_eq_ok_iff.mpr ⟨d.row q, rowOf_parts hq, ?_⟩)
      have htarget : (d.row q).get? a = d.target? q a := rfl
      rw [htarget]
      cases hp : d.target? q a with
      | none => rfl
      | some p => exact ih (target_lt_count hp)
    · rw [target?_eq_none_of_notMem ha]
      exact if_neg ha

theorem accepts_parts (d : Dfa) (text : String) : d.parts.accepts text = .ok (d.accepts text) :=
  acceptsFrom_parts d.start_lt (symbols text)

/-! ## Distinguishable states -/

theorem completed_parts_fst (d : Dfa) : d.parts.completed.1 = d.completedCount := by
  have hcomplete : d.parts.isComplete = d.isComplete := rfl
  unfold DfaParts.completed completedCount
  rw [hcomplete]
  split <;> rfl

/-- The row of a state, or that of the dead state, leads where the completed automaton does. -/
theorem get?_fill (q : Nat) (ha : a ∈ d.alphabet) :
    (Table.ofList (d.alphabet.toList.map fun a => (a, (d.row q).getD a d.count))).get? a = some (d.completedTarget q a) := by
  rw [Table.get?_ofList_map, if_pos (OrderedSet.mem_def.mp ha)]
  rfl

/-- In the completed rows every symbol of the alphabet is found. -/
theorem targetOf_completed (hq : q < d.completedCount) (ha : a ∈ d.alphabet) :
    DfaParts.targetOf d.parts.completed.2 q a = .ok (d.completedTarget q a) := by
  suffices ∃ row, d.parts.completed.2[q]? = some row ∧ row.get? a = some (d.completedTarget q a) by
    obtain ⟨row, hrow, hget⟩ := this
    rw [DfaParts.targetOf, DfaParts.rowOf, hrow]
    show found _ (row.get? a) = _
    rw [hget, found_some]
  have hcomplete : d.parts.isComplete = d.isComplete := rfl
  unfold DfaParts.completed
  unfold completedCount at hq
  rw [hcomplete]
  by_cases h : d.isComplete = true
  · rw [if_pos h] at hq ⊢
    obtain ⟨p, hp⟩ := exists_target_of_isComplete h hq ha
    refine ⟨d.row q, getElem?_rows hq, ?_⟩
    rw [completedTarget, hp]
    exact hp
  · rw [if_neg h] at hq ⊢
    rcases Nat.lt_or_eq_of_le (Nat.le_of_lt_succ hq) with hlt | rfl
    · refine ⟨_, ?_, get?_fill q ha⟩
      show (d.rows.map _ ++ _)[q]? = _
      rw [List.getElem?_append_left (by rwa [List.length_map]), List.getElem?_map, getElem?_rows hlt]
      rfl
    · -- The last row is that of the dead state.
      have hdead : d.row d.count = ∅ := by
        rw [row, List.getD_eq_getElem?_getD, List.getElem?_eq_none (Nat.le_refl d.count), Option.getD_none]
      refine ⟨_, ?_, get?_fill d.count ha⟩
      show (d.rows.map _ ++ _)[d.count]? = _
      rw [List.getElem?_append_right (by rw [List.length_map]; exact Nat.le_refl _), List.length_map, hdead]
      show [_][d.count - d.count]? = _
      rw [Nat.sub_self]
      rfl

theorem leadsToMark_parts (hp : p < d.completedCount) (hq : q < d.completedCount) (m : Table (Nat × Nat) Nat) :
    DfaParts.leadsToMark d.parts.completed.2 d.alphabet.toList m p q = .ok (d.leadsToMark m p q) := by
  refine anyM_eq_ok fun a ha => ?_
  rw [targetOf_completed hp ha, targetOf_completed hq ha]
  rfl

theorem markPair_parts {e : Nat × Nat} (he : e ∈ pairsBelow d.completedCount) (k : Nat) (m : Table (Nat × Nat) Nat) :
    DfaParts.markPair d.parts.completed.2 d.alphabet.toList k m e = .ok (d.markPair k m e) := by
  obtain ⟨hlt, hq⟩ := mem_pairsBelow.mp (show (e.1, e.2) ∈ _ from he)
  unfold DfaParts.markPair
  split
  · next hm => rw [markPair_of_marked hm]
  · next hm =>
    rw [leadsToMark_parts (Nat.lt_trans hlt hq) hq]
    unfold markPair
    rw [Bool.not_eq_true] at hm
    rw [hm]
    rfl

/-- The table of distinguishable pairs is found. -/
theorem marks_parts (d : Dfa) : d.parts.marks = .ok d.marks := by
  have hround : ∀ k m, (pairsBelow d.completedCount).foldlM (DfaParts.markPair d.parts.completed.2 d.alphabet.toList k) m =
      .ok (d.markRound k m) := fun k m =>
    foldlM_eq_ok (I := fun _ => True) (fun m _ e he => ⟨markPair_parts he k m, trivial⟩) trivial
  have hsettle := settleM_eq_ok hround ((pairsBelow d.completedCount).length + 1) d.firstMarks
  unfold DfaParts.marks
  obtain ⟨hcount, rows, hrows⟩ : d.parts.completed.1 = d.completedCount ∧ ∃ rows, d.parts.completed = (d.completedCount, rows) :=
    ⟨completed_parts_fst d, _, Prod.ext (completed_parts_fst d) rfl⟩
  rw [hrows] at hsettle ⊢
  exact bind_eq_ok_iff.mpr ⟨_, hsettle, rfl⟩

theorem equivalentPairs_parts (d : Dfa) : d.parts.equivalentPairs = .ok d.equivalentPairs := by
  rw [DfaParts.equivalentPairs, marks_parts]
  rfl

/-! ## What is read off the rows -/

theorem movesOf_row (d : Dfa) (p : Nat) : DfaParts.movesOf (d.row p) = .ok (d.moves p) := by
  have hkeys : ∀ l : List Symbol, (∀ a ∈ l, a ∈ (d.row p).keys) →
      (l.mapM fun a => do return (a, ← found (.symbol a) ((d.row p).get? a))) =
        .ok (l.filterMap fun a => (d.target? p a).map fun q => (a, q)) := by
    intro l hl
    induction l with
    | nil => rfl
    | cons a l ih =>
      obtain ⟨ha, hl⟩ := List.forall_mem_cons.mp hl
      obtain ⟨q, hq⟩ := Option.isSome_iff_exists.mp (Table.get?_isSome_iff.mpr ha)
      have htarget : d.target? p a = some q := hq
      rw [List.mapM_cons, ih hl, hq, List.filterMap_cons, htarget]
      rfl
  exact hkeys _ fun a ha => OrderedSet.mem_ofList.mp ha

theorem zipIdx_rows (d : Dfa) : d.rows.zipIdx = (List.range d.count).map fun p => (d.row p, p) := by
  refine List.ext_getElem? fun i => ?_
  rw [List.getElem?_zipIdx, List.getElem?_map, Nat.zero_add]
  by_cases hi : i < d.count
  · rw [getElem?_rows hi, List.getElem?_range hi]
    rfl
  · rw [List.getElem?_eq_none (Nat.le_of_not_lt hi), List.getElem?_eq_none (by rw [List.length_range]; exact Nat.le_of_not_lt hi)]
    rfl

theorem transitions_parts (d : Dfa) : d.parts.transitions = .ok d.transitions := by
  have hrows : (d.rows.zipIdx.mapM fun e => DfaParts.transitionsOf e.1 e.2) =
      .ok ((List.range d.count).map fun p => (d.moves p).map fun e => (p, e.1, e.2)) := by
    rw [zipIdx_rows, List.mapM_map]
    refine mapM_eq_ok fun p _ => ?_
    show DfaParts.transitionsOf (d.row p) p = _
    rw [DfaParts.transitionsOf, movesOf_row]
    rfl
  rw [transitions, List.flatMap_def]
  exact bind_eq_ok_iff.mpr ⟨_, hrows, rfl⟩

theorem diagram_parts (d : Dfa) : d.parts.diagram = .ok d.diagram := by
  unfold DfaParts.diagram diagram
  show d.rows.zipIdx.foldlM _ _ = _
  rw [zipIdx_rows, List.foldlM_map]
  refine foldlM_eq_ok (I := fun _ => True) (fun g _ p _ => ⟨?_, trivial⟩) trivial
  show DfaParts.addEdges g (d.row p) p = _
  rw [DfaParts.addEdges, movesOf_row]
  rfl

theorem dump_parts (d : Dfa) : d.parts.dump = .ok d.dump := by
  rw [DfaParts.dump, transitions_parts]
  rfl

theorem productionsOf_parts (hq : q < d.count) : d.parts.productionsOf q = .ok (d.stateProductions q) :=
  bind_eq_ok_iff.mpr ⟨d.row q, rowOf_parts hq, bind_eq_ok_iff.mpr ⟨d.moves q, movesOf_row d q, rfl⟩⟩

theorem grammar_parts (d : Dfa) : d.parts.grammar = .ok (Grammar.ofDfa d) := by
  rw [Grammar.ofDfa, List.flatMap_def]
  exact bind_eq_ok_iff.mpr ⟨_, mapM_eq_ok fun q hq => productionsOf_parts (List.mem_range.mp hq), rfl⟩

end Dfa

end FormalLang
