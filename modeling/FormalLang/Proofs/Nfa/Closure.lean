import FormalLang.Proofs.Dfa.SubsetStates
import Mathlib.Data.Prod.Lex
import Mathlib.Logic.Relation

/-!
# Closures by a stack

A closure can be found with a stack of states on which a state may lie any number of times, by different ways. The top is taken
off; if it has not been seen, it is now, and what silent steps lead to from it is put on the stack in some order. A number
that is no state is met when it is the top.

Each step either sees a new state, of which there are finitely many, or leaves a shorter stack. What has been seen together with the
closure of the stack never changes, because silent steps from what has been seen lead to the stack or stay.

* `Nfa.Sweeps`: one step; `Nfa.wellFounded_sweeps`: there are finitely many.
* `Nfa.Sweeps.answer_eq`: the answer that a step keeps; `Nfa.answer_of_stuck`: the one given in the end.
* `Nfa.Collects`: what closures and moves have in common; `Collects.mono`, `Collects.union`: their laws.
* `Nfa.closure_eq_error`: closures of numbers that are not of states.
* `Nfa.closure_exact`: what a closure is, and its laws.
-/

namespace FormalLang

namespace Nfa

variable {n : Nfa} {p q : Nat}

/-- The states seen, and the numbers on the stack, from its top. -/
structure Sweep where
  seen : OrderedSet Nat
  stack : List Int

/-- A step takes the top off the stack. If it is a state not seen before, its targets go on the stack, in any order. -/
inductive Sweeps (n : Nfa) : Sweep → Sweep → Prop where
  | skip {seen : OrderedSet Nat} {stack : List Int} {p : Nat} : p ∈ seen → Sweeps n ⟨seen, p :: stack⟩ ⟨seen, stack⟩
  | visit {seen : OrderedSet Nat} {stack : List Int} {p : Nat} {l : List Nat} : p ∉ seen → p < n.count →
      l.Perm (n.targets p epsilon).toList → Sweeps n ⟨seen, p :: stack⟩ ⟨seen.insert p, l.map Int.ofNat ++ stack⟩

/-- The sweep that begins with given numbers, of which the last is the top of the stack. -/
def Sweep.start (qs : List Int) : Sweep := ⟨∅, qs.reverse⟩

/-- What is reported when no step can be taken: the states seen, or the number at the top. -/
def Sweep.outcome (n : Nfa) (w : Sweep) : Except UsageError (OrderedSet Nat) :=
  match w.stack with
  | [] => .ok w.seen
  | i :: _ => .error (.invalidState i n.count)

/-! ## Sweeps end -/

/-- The states that have not been seen. -/
def Sweep.unseen (n : Nfa) (w : Sweep) : Finset Nat := {p ∈ Finset.range n.count | p ∉ w.seen}

theorem unseen_insert_ssubset {seen : OrderedSet Nat} {stack stack' : List Int} (hp : p ∉ seen) (hlt : p < n.count) :
    Sweep.unseen n ⟨seen.insert p, stack'⟩ ⊂ Sweep.unseen n ⟨seen, stack⟩ := by
  refine (Finset.ssubset_iff_of_subset fun q hq => ?_).mpr ⟨p, ?_, fun h => ?_⟩
  · obtain ⟨hq, hqs⟩ := Finset.mem_filter.mp hq
    exact Finset.mem_filter.mpr ⟨hq, fun h => hqs (OrderedSet.mem_insert.mpr (.inr h))⟩
  · exact Finset.mem_filter.mpr ⟨Finset.mem_range.mpr hlt, hp⟩
  · exact (Finset.mem_filter.mp h).2 (OrderedSet.mem_insert.mpr (.inl rfl))

/-- There are finitely many steps: a step that sees no new state leaves a shorter stack. -/
theorem wellFounded_sweeps (n : Nfa) : WellFounded fun v w => n.Sweeps w v := by
  refine Subrelation.wf ?_ (InvImage.wf (fun w : Sweep => ((w.unseen n).card, w.stack.length)) WellFoundedRelation.wf)
  intro v w h
  cases h with
  | skip _ => exact Prod.Lex.right _ (Nat.lt_succ_self _)
  | visit hp hlt _ => exact Prod.Lex.left _ _ (Finset.card_lt_card (unseen_insert_ssubset hp hlt))

/-! ## What a step keeps -/

/-- The states seen with the closure of the stack. -/
def Sweep.answer (n : Nfa) (w : Sweep) : Except UsageError (OrderedSet Nat) := do
  return w.seen.union (n.silentReach (← w.stack.mapM n.checkState))

/-- What is seen is a state, and silent steps from it lead to what is seen or to the stack. -/
structure Sweep.Covers (n : Nfa) (w : Sweep) : Prop where
  seen_lt : ∀ p ∈ w.seen, p < n.count
  target : ∀ p ∈ w.seen, ∀ q ∈ n.targets p epsilon, q ∈ w.seen ∨ (q : Int) ∈ w.stack

namespace Sweep.Covers

variable {w v : Sweep} (h : w.Covers n)
include h

/-- A way out of what is seen passes the stack. -/
theorem path (hp : p ∈ w.seen) (hpq : n.Path p [] q) : q ∈ w.seen ∨ ∃ r : Nat, (r : Int) ∈ w.stack ∧ n.Path r [] q := by
  generalize hu : ([] : List Symbol) = u at hpq
  induction hpq with
  | here => exact .inl hp
  | symbol => contradiction
  | silent hr hrq ih =>
    subst hu
    rcases h.target _ hp _ hr with hr | hr
    · exact ih hr rfl
    · exact .inr ⟨_, hr, hrq⟩

theorem sweeps (hv : n.Sweeps w v) : v.Covers n := by
  cases hv with
  | @skip seen stack p hp =>
    refine ⟨h.seen_lt, fun r hr q hq => ?_⟩
    rcases h.target r hr q hq with hq | hq
    · exact .inl hq
    · rcases List.mem_cons.mp hq with hq | hq
      · exact .inl (Int.ofNat_inj.mp hq ▸ hp)
      · exact .inr hq
  | @visit seen stack p l hp hlt hl =>
    refine ⟨fun r hr => ?_, fun r hr q hq => ?_⟩
    · rcases OrderedSet.mem_insert.mp hr with rfl | hr
      · exact hlt
      · exact h.seen_lt r hr
    · rcases OrderedSet.mem_insert.mp hr with rfl | hr
      · exact .inr (List.mem_append_left _ (List.mem_map_of_mem (hl.mem_iff.mpr hq)))
      · rcases h.target r hr q hq with hq | hq
        · exact .inl (OrderedSet.mem_insert.mpr (.inr hq))
        · rcases List.mem_cons.mp hq with hq | hq
          · exact .inl (OrderedSet.mem_insert.mpr (.inl (Int.ofNat_inj.mp hq)))
          · exact .inr (List.mem_append_right _ hq)

end Sweep.Covers

theorem mem_map_ofNat {l : List Nat} : (q : Int) ∈ l.map Int.ofNat ↔ q ∈ l :=
  List.mem_map_of_injective fun _ _ => Int.ofNat_inj.mp

/-- States on top of a stack take part in the answer that the numbers below them allow. -/
theorem answer_append {seen : OrderedSet Nat} {l : List Nat} (hl : ∀ q ∈ l, q < n.count) (stack : List Int) :
    Sweep.answer n ⟨seen, l.map Int.ofNat ++ stack⟩ =
      stack.mapM n.checkState >>= fun rest => .ok (seen.union (n.silentReach (l ++ rest))) := by
  have hmapM : (l.map Int.ofNat).mapM n.checkState = .ok l := mapM_checkState_natCast hl
  rw [Sweep.answer, List.mapM_append, hmapM]
  cases stack.mapM n.checkState <;> rfl

theorem mem_silentReach_append {l m : List Nat} :
    q ∈ n.silentReach (l ++ m) ↔ q ∈ n.silentReach l ∨ q ∈ n.silentReach m := by
  simp only [mem_silentReach, List.mem_append, or_and_right, exists_or]

theorem mem_silentReach_singleton : q ∈ n.silentReach [p] ↔ n.Path p [] q := by
  simp only [mem_silentReach, List.mem_singleton, exists_eq_left]

/-- Silent steps lead from a state nowhere, or on from one of its targets. -/
theorem path_nil_iff {l : List Nat} (hl : l.Perm (n.targets p epsilon).toList) :
    n.Path p [] q ↔ q = p ∨ q ∈ n.silentReach l := by
  rw [mem_silentReach]
  constructor
  · rintro (_ | ⟨hr, h⟩)
    · exact .inl rfl
    · exact .inr ⟨_, hl.mem_iff.mpr hr, h⟩
  · rintro (rfl | ⟨r, hr, h⟩)
    · exact .here q
    · exact .silent (hl.mem_iff.mp hr) h

/-- A step keeps the answer. What is taken off has been seen and leads nowhere but to the rest, or is replaced by what it
leads to. -/
theorem Sweeps.answer_eq {w v : Sweep} (ht : n.TargetsInRange) (h : w.Covers n) (hv : n.Sweeps w v) :
    v.answer n = w.answer n := by
  have hcovers := h.sweeps hv
  cases hv with
  | @skip seen stack p hp =>
    have hlt : ∀ q ∈ [p], q < n.count := List.forall_mem_singleton.mpr (h.seen_lt p hp)
    refine (answer_append (List.forall_mem_nil _) stack).trans (.trans ?_ (answer_append hlt stack).symm)
    cases hrest : stack.mapM n.checkState with
    | error e => rfl
    | ok rest =>
      obtain ⟨rfl, -⟩ := mapM_checkState_eq_ok_iff.mp hrest
      refine congrArg Except.ok (OrderedSet.ext fun q => ?_)
      have hpath : n.Path p [] q → q ∈ seen ∨ q ∈ n.silentReach rest := fun hq =>
        (hcovers.path hp hq).imp_right fun ⟨r, hr, hrq⟩ =>
          mem_silentReach.mpr ⟨r, mem_map_ofNat.mp hr, hrq⟩
      rw [List.nil_append, OrderedSet.mem_union, OrderedSet.mem_union, mem_silentReach_append, mem_silentReach_singleton]
      tauto
  | @visit seen stack p l hp hlt hl =>
    have hlt : ∀ q ∈ [p], q < n.count := List.forall_mem_singleton.mpr hlt
    have hl' : ∀ q ∈ l, q < n.count := fun q hq => ht p epsilon q (hl.mem_iff.mp hq)
    refine (answer_append hl' stack).trans (.trans ?_ (answer_append hlt stack).symm)
    cases stack.mapM n.checkState with
    | error e => rfl
    | ok rest =>
      refine congrArg Except.ok (OrderedSet.ext fun q => ?_)
      rw [OrderedSet.mem_union, OrderedSet.mem_union, OrderedSet.mem_insert, mem_silentReach_append, mem_silentReach_append,
        mem_silentReach_singleton, path_nil_iff hl]
      tauto

/-- A sweep that takes no further step reports its answer. -/
theorem answer_of_stuck {w : Sweep} (h : ∀ v, ¬ n.Sweeps w v) : w.answer n = w.outcome n := by
  obtain ⟨seen, _ | ⟨i, stack⟩⟩ := w
  · refine congrArg Except.ok (OrderedSet.ext fun q => ?_)
    simp [mem_silentReach]
  · have hi : n.checkState i = .error (.invalidState i n.count) := by
      refine if_neg fun hi => ?_
      obtain ⟨p, rfl⟩ := Int.eq_ofNat_of_zero_le hi.1
      by_cases hp : p ∈ seen
      · exact h _ (.skip hp)
      · exact h _ (.visit hp (Int.ofNat_lt.mp hi.2) (.refl _))
    rw [Sweep.answer, List.mapM_cons, hi]
    rfl

theorem answer_start (n : Nfa) (qs : List Int) : (Sweep.start qs).answer n = n.closure qs := by
  show (qs.reverse.mapM n.checkState >>= fun rest => .ok (OrderedSet.union ∅ (n.silentReach rest))) = _
  rw [closure]
  cases qs.reverse.mapM n.checkState with
  | error e => rfl
  | ok rest => exact congrArg Except.ok (OrderedSet.ext fun q => by simp)

theorem covers_start (n : Nfa) (qs : List Int) : (Sweep.start qs).Covers n where
  seen_lt p hp := absurd hp (OrderedSet.not_mem_empty p)
  target p hp := absurd hp (OrderedSet.not_mem_empty p)

/-- At every point of a sweep its answer is the closure of the numbers that it began with. -/
theorem covers_run {qs : List Int} {w : Sweep} (ht : n.TargetsInRange) (h : Relation.ReflTransGen n.Sweeps (.start qs) w) :
    w.Covers n ∧ w.answer n = n.closure qs := by
  induction h with
  | refl => exact ⟨covers_start n qs, answer_start n qs⟩
  | tail _ hv ih => exact ⟨ih.1.sweeps hv, (hv.answer_eq ht ih.1).trans ih.2⟩

/-! ## Closures and moves -/

/-- All of the numbers are those of states. -/
def InRange (n : Nfa) (qs : List Int) : Prop := ∀ i ∈ qs, 0 ≤ i ∧ i < n.count

theorem inRange_iff {qs : List Int} : n.InRange qs ↔ ∃ ps : List Nat, qs = ps.map Int.ofNat ∧ ∀ p ∈ ps, p < n.count := by
  constructor
  · intro h
    refine ⟨qs.map Int.toNat, ?_, fun p hp => ?_⟩
    · rw [List.map_map]
      exact (List.map_id' qs).symm.trans (List.map_congr_left fun i hi => (Int.toNat_of_nonneg (h i hi).1).symm)
    · obtain ⟨i, hi, rfl⟩ := List.mem_map.mp hp
      have := h i hi
      omega
  · rintro ⟨ps, rfl, h⟩ i hi
    obtain ⟨p, hp, rfl⟩ := List.mem_map.mp hi
    exact ⟨Int.natCast_nonneg p, Int.ofNat_lt.mpr (h p hp)⟩

/-- The computation succeeds for numbers of states, and only for these, and collects what each state is related to. -/
structure Collects (n : Nfa) (f : List Int → Except UsageError (OrderedSet Nat)) (r : Nat → Nat → Prop) : Prop where
  inRange : ∀ qs s, f qs = .ok s → n.InRange qs
  exists_ok : ∀ qs, n.InRange qs → ∃ s, f qs = .ok s ∧ ∀ q, q ∈ s ↔ ∃ p : Nat, (p : Int) ∈ qs ∧ r p q

theorem collects_closure (n : Nfa) : n.Collects n.closure fun p q => n.Path p [] q where
  inRange qs s h := by
    obtain ⟨ps, hps, -⟩ := bind_eq_ok_iff.mp h
    have hrange : n.InRange qs.reverse := inRange_iff.mpr ⟨ps, mapM_checkState_eq_ok_iff.mp hps⟩
    exact fun i hi => hrange i (List.mem_reverse.mpr hi)
  exists_ok qs h := by
    obtain ⟨ps, rfl, hlt⟩ := inRange_iff.mp h
    exact ⟨_, closure_natCast hlt, fun q => by simp only [mem_silentReach, mem_map_ofNat]⟩

theorem collects_move (n : Nfa) (a : Symbol) : n.Collects (n.move · a) fun p q => q ∈ n.targets p a where
  inRange qs s h := by
    obtain ⟨ps, hps, -⟩ := bind_eq_ok_iff.mp h
    exact inRange_iff.mpr ⟨ps, mapM_checkState_eq_ok_iff.mp hps⟩
  exists_ok qs h := by
    obtain ⟨ps, rfl, hlt⟩ := inRange_iff.mp h
    exact ⟨_, move_natCast hlt a, fun q => by simp only [mem_moveAll, mem_map_ofNat]⟩

namespace Collects

variable {f : List Int → Except UsageError (OrderedSet Nat)} {r : Nat → Nat → Prop} (h : n.Collects f r)
variable {qs rs us : List Int} {s t : OrderedSet Nat}
include h

theorem eq_ok_iff : f qs = .ok s ↔ n.InRange qs ∧ ∀ q, q ∈ s ↔ ∃ p : Nat, (p : Int) ∈ qs ∧ r p q := by
  constructor
  · intro hs
    obtain ⟨s', hs', hmem⟩ := h.exists_ok qs (h.inRange qs s hs)
    obtain rfl := Except.ok.inj (hs'.symm.trans hs)
    exact ⟨h.inRange qs s' hs, hmem⟩
  · rintro ⟨hqs, hmem⟩
    obtain ⟨s', hs', hmem'⟩ := h.exists_ok qs hqs
    rw [hs', OrderedSet.ext fun q => (hmem' q).trans (hmem q).symm]

theorem mono (ht : f rs = .ok t) (hsub : qs ⊆ rs) : ∃ s, f qs = .ok s ∧ ∀ q ∈ s, q ∈ t := by
  obtain ⟨hrs, hmemt⟩ := h.eq_ok_iff.mp ht
  obtain ⟨s, hs, hmems⟩ := h.exists_ok qs fun i hi => hrs i (hsub hi)
  refine ⟨s, hs, fun q hq => ?_⟩
  obtain ⟨p, hp, hpq⟩ := (hmems q).mp hq
  exact (hmemt q).mpr ⟨p, hsub hp, hpq⟩

theorem union (hqs : n.InRange qs) (hrs : n.InRange rs) (hus : ∀ i, i ∈ us ↔ i ∈ qs ∨ i ∈ rs) :
    ∃ s t, f qs = .ok s ∧ f rs = .ok t ∧ f us = .ok (s.union t) := by
  obtain ⟨s, hs, hmems⟩ := h.exists_ok qs hqs
  obtain ⟨t, ht, hmemt⟩ := h.exists_ok rs hrs
  have hrange : n.InRange us := fun i hi => ((hus i).mp hi).elim (hqs i) (hrs i)
  refine ⟨s, t, hs, ht, h.eq_ok_iff.mpr ⟨hrange, fun q => ?_⟩⟩
  simp only [OrderedSet.mem_union, hmems, hmemt, hus, or_and_right, exists_or]

end Collects

/-- A closure that fails reports a given number that is not of a state. -/
theorem closure_eq_error {qs : List Int} (h : ¬ n.InRange qs) :
    ∃ i ∈ qs, ¬ (0 ≤ i ∧ i < n.count) ∧ n.closure qs = .error (.invalidState i n.count) := by
  have hfault : Faults (fun e => ∃ i ∈ qs, ¬ (0 ≤ i ∧ i < n.count) ∧ e = .invalidState i n.count) (n.closure qs) := by
    refine (Faults.mapM fun i hi e he => ?_).bind fun ps _ => Faults.ok _
    refine ⟨i, List.mem_reverse.mp hi, ?_⟩
    rw [checkState, FormalLang.checkState] at he
    split at he
    · contradiction
    · next hi => exact ⟨hi, (Except.error.inj he).symm⟩
  cases hc : n.closure qs with
  | ok s => exact absurd (n.collects_closure.inRange qs s hc) h
  | error e =>
    obtain ⟨i, hi, hout, rfl⟩ := hfault e hc
    exact ⟨i, hi, hout, rfl⟩

theorem mem_closure {qs : List Int} {s : OrderedSet Nat} (h : n.closure qs = .ok s) {i : Int} (hi : i ∈ qs) :
    ∃ p ∈ s, (p : Int) = i := by
  obtain ⟨hqs, hs⟩ := n.collects_closure.eq_ok_iff.mp h
  obtain ⟨p, rfl⟩ := Int.eq_ofNat_of_zero_le (hqs i hi).1
  exact ⟨p, (hs p).mpr ⟨p, hi, .here p⟩, rfl⟩

/-- What silent steps lead to from a closure is in it already. -/
theorem closure_closure {qs rs : List Int} {s : OrderedSet Nat} (ht : n.TargetsInRange) (h : n.closure qs = .ok s)
    (hrs : ∀ i, i ∈ rs ↔ ∃ p ∈ s, (p : Int) = i) : n.closure rs = .ok s := by
  obtain ⟨hqs, hs⟩ := n.collects_closure.eq_ok_iff.mp h
  have hmem : ∀ {p : Nat}, (p : Int) ∈ rs ↔ p ∈ s := by
    simp only [hrs, Int.natCast_inj, exists_eq_right, implies_true]
  refine n.collects_closure.eq_ok_iff.mpr ⟨fun i hi => ?_, fun q => ?_⟩
  · obtain ⟨q, hq, rfl⟩ := (hrs i).mp hi
    obtain ⟨p, hp, hpq⟩ := (hs q).mp hq
    exact ⟨Int.natCast_nonneg q, Int.ofNat_lt.mpr (hpq.lt_count_right ht (Int.ofNat_lt.mp (hqs p hp).2))⟩
  · simp only [hmem]
    refine ⟨fun hq => ⟨q, hq, .here q⟩, fun ⟨r, hr, hrq⟩ => ?_⟩
    obtain ⟨p, hp, hpr⟩ := (hs r).mp hr
    exact (hs q).mpr ⟨p, hp, hpr.append hrq⟩

/-- No transition of an automaton that can be made leads out of it. Then every sweep comes to an end, whatever silent cycles there
are, and reports the closure in the end. A closure of states holds exactly what silent steps lead to; if a number that
is not of a state is given, such a number is reported. A closure holds what is given and is its own closure, and closures
are monotone. Closures and moves of a union are the unions of closures and moves. -/
theorem closure_exact (ht : n.TargetsInRange) :
    WellFounded (fun v w => n.Sweeps w v) ∧
    (∀ qs w, Relation.ReflTransGen n.Sweeps (.start qs) w → (∀ v, ¬ n.Sweeps w v) → w.outcome n = n.closure qs) ∧
    (∀ qs, n.InRange qs → ∃ s, n.closure qs = .ok s ∧ ∀ q, q ∈ s ↔ ∃ p : Nat, (p : Int) ∈ qs ∧ n.Path p [] q) ∧
    (∀ qs, ¬ n.InRange qs →
      ∃ i ∈ qs, ¬ (0 ≤ i ∧ i < n.count) ∧ n.closure qs = .error (.invalidState i n.count)) ∧
    (∀ qs s, n.closure qs = .ok s → (∀ i ∈ qs, ∃ p ∈ s, (p : Int) = i) ∧
      ∀ rs, (∀ i, i ∈ rs ↔ ∃ p ∈ s, (p : Int) = i) → n.closure rs = .ok s) ∧
    (∀ qs rs t, n.closure rs = .ok t → qs ⊆ rs → ∃ s, n.closure qs = .ok s ∧ ∀ q ∈ s, q ∈ t) ∧
    ∀ qs rs us, n.InRange qs → n.InRange rs → (∀ i, i ∈ us ↔ i ∈ qs ∨ i ∈ rs) →
      (∃ s t, n.closure qs = .ok s ∧ n.closure rs = .ok t ∧ n.closure us = .ok (s.union t)) ∧
      ∀ a, ∃ s t, n.move qs a = .ok s ∧ n.move rs a = .ok t ∧ n.move us a = .ok (s.union t) := by
  refine ⟨n.wellFounded_sweeps, fun qs w h hw => ?_, n.collects_closure.exists_ok, fun qs => closure_eq_error,
    fun qs s h => ⟨fun i => mem_closure h, fun rs => closure_closure ht h⟩, fun qs rs t => n.collects_closure.mono,
    fun qs rs us hqs hrs hus => ⟨n.collects_closure.union hqs hrs hus, fun a => (n.collects_move a).union hqs hrs hus⟩⟩
  obtain ⟨-, hanswer⟩ := covers_run ht h
  rw [← answer_of_stuck hw, hanswer]

/-- Two states on a silent cycle, of which one is given twice and lies on the stack three times. -/
theorem closure_exact_cycle :
    ∃ n, ofTables 2 0 [] [(0, epsilon, 1), (1, epsilon, 0)] = .ok n ∧ n.TargetsInRange ∧
      Relation.ReflTransGen n.Sweeps (.start [1, 1]) ⟨.ofList [0, 1], []⟩ ∧ n.closure [1, 1] = .ok (.ofList [0, 1]) := by
  obtain ⟨n, hn⟩ : ∃ n, ofTables 2 0 [] [(0, epsilon, 1), (1, epsilon, 0)] = .ok n := ⟨_, rfl⟩
  obtain ⟨-, ht⟩ := targetsInRange_ofTables hn
  have hrun : Relation.ReflTransGen n.Sweeps (.start [1, 1]) ⟨.ofList [0, 1], []⟩ := by
    obtain rfl := Except.ok.inj hn
    refine .head (.visit (p := 1) (l := [0]) (by decide) (by decide) (.refl _)) ?_
    refine .head (.visit (p := 0) (l := [1]) (by decide) (by decide) (.refl _)) ?_
    exact .head (.skip (p := 1) (by decide)) (.single (.skip (p := 1) (by decide)))
  obtain ⟨-, hclosure, -⟩ := closure_exact ht
  exact ⟨n, hn, ht, hrun, (hclosure _ _ hrun nofun).symm⟩

end Nfa

end FormalLang
