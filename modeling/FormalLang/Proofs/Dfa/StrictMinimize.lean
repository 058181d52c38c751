import FormalLang.Proofs.Answers
import FormalLang.Proofs.Dfa.Lowest
import FormalLang.Proofs.Dfa.Strict
import FormalLang.Proofs.UnionFind.Strict
import Mathlib.Data.List.Sort

/-!
# Strict minimization

Merging the pairs that no round marks gives a forest, and searching it later keeps its roots. The place of the lowest state of a
tree is that of its class, so the numbers of the classes can be told from every forest whose roots tell the classes. Every state has
a class, which has a row, so no look-up fails.

* `Dfa.answers_rootOf`, `answers_representatives`, `answers_numberOf`: the searches and what is looked up by their answers.
* `getElem?_foldl_modify`: changes of the entries of a list, entry by entry.
* `Dfa.answers_quotient`: the tables on the classes, from any forest whose roots tell the classes.
* `Dfa.minimize_parts`: the tables on the classes, from the forest of the merged pairs.
-/

namespace FormalLang

/-! ## Tables and lists -/

theorem get?_ofList_zipIdx {α : Type} [DecidableEq α] {l : List α} (hl : l.Nodup) {x : α} (hx : x ∈ l) :
    (Table.ofList l.zipIdx).get? x = some (l.idxOf x) := by
  have hzip : l.zipIdx = l.map fun x => (x, l.idxOf x) := by
    refine List.ext_getElem (by simp) fun i hi hi' => ?_
    rw [List.length_zipIdx] at hi
    rw [List.getElem_zipIdx, List.getElem_map, hl.idxOf_getElem i hi, Nat.zero_add]
  rw [hzip, Table.get?_ofList_map, if_pos hx]

/-- Changes of the entries of a list change each entry on its own. -/
theorem getElem?_foldl_modify {ε α : Type} (place : ε → Nat) (change : ε → α → α) (l : List ε) (rows : List α) (i : Nat) :
    (l.foldl (fun rows e => rows.modify (place e) (change e)) rows)[i]? =
      rows[i]?.map fun row => (l.filter (place · = i)).foldl (fun row e => change e row) row := by
  induction l generalizing rows with
  | nil => simp
  | cons e l ih =>
    rw [List.foldl_cons, ih, List.getElem?_modify]
    by_cases he : place e = i
    · simp [he, Function.comp_def]
    · simp [he]

theorem set_eq_modify {α : Type} {l : List α} {i : Nat} {x : α} (h : l[i]? = some x) (f : α → α) :
    l.set i (f x) = l.modify i f := by
  obtain ⟨hi, rfl⟩ := List.getElem?_eq_some_iff.mp h
  refine List.ext_getElem? fun j => ?_
  rw [List.getElem?_set, List.getElem?_modify]
  by_cases hj : i = j
  · subst hj
    simp [hi]
  · simp [hj]

namespace Dfa

variable {d : Dfa} {p q : Nat} {root : Nat → Nat}

/-! ## The forest -/

theorem merge_eq_ok {u : UnionFind Nat} (hu : u.Inv) (h : u.Ranked) (pairs : List (Nat × Nat)) :
    DfaParts.merge pairs u = .ok (pairs.foldl (fun u (p, q) => (u.union p q).2) u) := by
  refine foldlM_eq_ok (I := fun u => u.Inv ∧ u.Ranked) (fun u ⟨hu, h⟩ e _ => ⟨?_, ?_, ?_⟩) ⟨hu, h⟩
  · show (found _ (u.union? e.1 e.2)).map Prod.snd = _
    rw [UnionFind.union?_eq_some hu h]
    rfl
  · exact (UnionFind.union_spec hu e.1 e.2).inv
  · exact h.union hu e.1 e.2

/-- The forest has the roots that `root` gives. -/
structure HasRoots (root : Nat → Nat) (u : UnionFind Nat) : Prop where
  inv : u.Inv
  root_eq : ∀ q, u.root q = root q

theorem answers_rootOf (root : Nat → Nat) (q : Nat) : Answers (HasRoots root) (DfaParts.rootOf q) (root q) := by
  intro u hu
  have hfind := UnionFind.find_spec hu.inv q
  refine ⟨(u.find q).2, ?_, hfind.inv, fun p => (hfind.root_eq p).trans (hu.root_eq p)⟩
  rw [DfaParts.rootOf, UnionFind.find?_eq_some hu.inv, found_some, ← hu.root_eq, ← hfind.answer_eq]

theorem answers_look {α : Type} {P : UnionFind Nat → Prop} {x : Option α} {a : α} (h : x = some a) (e : LookupError) :
    Answers P (DfaParts.look e x) a := by
  intro u hu
  refine ⟨u, ?_, hu⟩
  rw [h]
  rfl

/-! ## The lowest states -/

theorem answers_representatives (n : Nat) (root : Nat → Nat) :
    Answers (HasRoots root) (DfaParts.representatives n) (lowest n root) :=
  .foldlM (I := fun _ => True) (fun _ _ q _ => ⟨(answers_rootOf root q).bind (.pure _), trivial⟩) trivial

theorem mergeSort_values_lowest (n : Nat) (root : Nat → Nat) :
    (lowest n root).values.mergeSort (· ≤ ·) = (lowest n root).values :=
  List.mergeSort_of_pairwise ((pairwise_values_lowest n root).imp fun h => decide_eq_true (Nat.le_of_lt h))

/-- Every state has the number of its class. -/
theorem answers_numberOf (h : d.IsRooting root) (hq : q < d.count) : Answers (HasRoots root)
    (DfaParts.numberOf (lowest d.count root) (Table.ofList ((lowest d.count root).values.mergeSort (· ≤ ·)).zipIdx) q)
    (classOf d.classes q) := by
  obtain ⟨p, hp⟩ := exists_get?_lowest hq
  obtain ⟨hmem, hplace⟩ := h.idxOf_lowest hq hp
  have hnodup : (lowest d.count root).values.Nodup := (pairwise_values_lowest _ _).imp Nat.ne_of_lt
  have hget : (Table.ofList ((lowest d.count root).values.mergeSort (· ≤ ·)).zipIdx).get? p =
      some (classOf d.classes q) := by
    rw [mergeSort_values_lowest, get?_ofList_zipIdx hnodup hmem, hplace]
  exact (answers_rootOf root q).bind ((answers_look hp _).bind (answers_look hget _))

/-! ## The tables -/

/-- The row of a class is filled with the transitions of its members in their order. -/
theorem rows_quotientTables (d : Dfa) : d.transitions.foldl
    (fun (rows : List (Table Symbol Int)) (e : Nat × Symbol × Nat) =>
      rows.modify (classOf d.classes e.1) (·.insertNew e.2.1 (classOf d.classes e.2.2 : Int)))
    (List.replicate d.classes.length ∅) = (d.quotientTables d.classes).rows := by
  refine List.ext_getElem? fun i => (getElem?_foldl_modify (fun e : Nat × Symbol × Nat => classOf d.classes e.1)
    (fun e (row : Table Symbol Int) => row.insertNew e.2.1 (classOf d.classes e.2.2 : Int)) _ _ i).trans ?_
  rw [quotientTables, List.getElem?_map, List.getElem?_replicate]
  by_cases hi : i < d.classes.length
  · rw [if_pos hi, List.getElem?_eq_getElem hi, Option.map_some, Option.map_some]
    have hfilter : d.transitions.filter (fun e => decide (classOf d.classes e.1 = i)) =
        d.transitions.filter (·.1 ∈ d.classes[i]) := by
      refine List.filter_congr fun e he => ?_
      rw [decide_eq_decide, mem_getElem_classes_iff hi (ends_lt_count he).1]
    rw [hfilter]
  · rw [if_neg hi, List.getElem?_eq_none (Nat.le_of_not_lt hi)]
    rfl

/-- Every state is put into its class. -/
theorem classes_eq_foldl (d : Dfa) : (List.range d.count).foldl
    (fun (classes : List (OrderedSet Nat)) q => classes.modify (classOf d.classes q) (·.insert q))
    (List.replicate d.classes.length ∅) = d.classes := by
  refine List.ext_getElem? fun i =>
    (getElem?_foldl_modify (classOf d.classes) (fun q (s : OrderedSet Nat) => s.insert q) _ _ i).trans ?_
  rw [List.getElem?_replicate]
  by_cases hi : i < d.classes.length
  · rw [if_pos hi, List.getElem?_eq_getElem hi, Option.map_some]
    refine congrArg some (OrderedSet.ext fun q => ?_)
    show q ∈ OrderedSet.ofList ((List.range d.count).filter (classOf d.classes · = i)) ↔ _
    rw [OrderedSet.mem_ofList, List.mem_filter, List.mem_range, decide_eq_true_eq]
    constructor
    · rintro ⟨hq, h⟩
      exact (mem_getElem_classes_iff hi hq).mpr h
    · intro h
      have hq := lt_count_of_mem_class (List.getElem_mem hi) h
      exact ⟨hq, (mem_getElem_classes_iff hi hq).mp h⟩
  · rw [if_neg hi, List.getElem?_eq_none (Nat.le_of_not_lt hi)]
    rfl

/-- The tables on the classes are found in every forest whose roots tell the classes: every state has a number, and every
number a row and a class. -/
theorem answers_quotient (h : d.IsRooting root) :
    Answers (HasRoots root) (d.parts.quotient d.transitions) (d.quotientTables d.classes, d.classes) := by
  have hheads : ((lowest d.count root).values.mergeSort (· ≤ ·)).length = d.classes.length :=
    (List.length_mergeSort _).trans h.length_values_lowest
  have hget : ∀ {α : Type} {l : List α} {q : Nat}, l.length = d.classes.length → q < d.count →
      ∃ x, l[classOf d.classes q]? = some x := fun {α l q} hl hq =>
    ⟨_, List.getElem?_eq_getElem (hl ▸ classOf_lt hq)⟩
  unfold DfaParts.quotient
  refine (answers_representatives d.count root).bind ?_
  dsimp only
  rw [hheads]
  refine Answers.bind (a := (d.quotientTables d.classes).rows) (.of_eq ?_ (rows_quotientTables d)) ?_
  · refine .foldlM (I := fun rows => rows.length = d.classes.length) (fun rows hrows e he => ?_) List.length_replicate
    obtain ⟨hp, hq⟩ := ends_lt_count he
    obtain ⟨row, hrow⟩ := hget hrows hp
    refine ⟨(answers_numberOf h hp).bind ((answers_look hrow _).bind ((answers_numberOf h hq).bind ?_)), ?_⟩
    · rw [← set_eq_modify hrow]
      exact .pure _
    · rwa [List.length_modify]
  refine Answers.bind (a := d.classes) (.of_eq ?_ (classes_eq_foldl d)) ?_
  · refine .foldlM (I := fun classes => classes.length = d.classes.length) (fun classes hclasses q hq => ?_)
      List.length_replicate
    rw [List.mem_range] at hq
    obtain ⟨s, hs⟩ := hget hclasses hq
    refine ⟨(answers_numberOf h hq).bind ((answers_look hs _).bind ?_), ?_⟩
    · rw [← set_eq_modify hs]
      exact .pure _
    · rwa [List.length_modify]
  refine (answers_numberOf h d.start_lt).bind (.bind (.mapM fun q hq => answers_numberOf h (d.accept_lt q hq)) ?_)
  refine .of_eq (.pure _) ?_
  rw [quotientTables, List.map_map]
  rfl

/-- Minimization finds what it looks up, in the forest in which the pairs have been merged and in those that its searches change
this one to. -/
theorem minimize_parts (d : Dfa) (flags : BuildFlags) : d.parts.minimize flags = .ok (d.minimize flags) := by
  have hmerge : DfaParts.merge d.equivalentPairs (UnionFind.ofList (List.range d.count)) = .ok d.forest :=
    merge_eq_ok (UnionFind.Partitions.ofList _).inv (UnionFind.Ranked.ofList _) d.equivalentPairs
  obtain ⟨u, hquotient, -⟩ := answers_quotient (isRooting_forest d) d.forest ⟨(partitions_forest d).inv, fun _ => rfl⟩
  refine bind_eq_ok_iff.mpr ⟨_, equivalentPairs_parts d, bind_eq_ok_iff.mpr ⟨_, hmerge, ?_⟩⟩
  exact bind_eq_ok_iff.mpr ⟨_, transitions_parts d, bind_eq_ok_iff.mpr ⟨_, hquotient, rfl⟩⟩

end Dfa

end FormalLang
