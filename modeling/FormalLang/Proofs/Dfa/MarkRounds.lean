import FormalLang.Proofs.Dfa.Distinguishing

/-!
# When a pair is marked

A round sees what it has marked itself, so a pair may be marked in an earlier round than its shortest distinguishing word
has symbols, but never in a later one. A pair that differs at once is marked in round zero, and no other pair is.

* `Dfa.get?_foldl_markPair`, `Dfa.exists_get?_foldl_markPair`: what going through some pairs marks.
* `Dfa.Dated`: what is known of the marks after some rounds, `Dated.markRound`: a further round keeps it.
* `Dfa.acceptsFrom_eq_foldl`: the words accepted from a state of the completed automaton.
* `Dfa.marks_dated`: the marks are exactly the distinguishable pairs, and what their rounds say.
-/

namespace FormalLang

namespace Dfa

variable {d : Dfa} {p q i k : Nat} {a : Symbol} {w : List Symbol} {e : Nat × Nat} {m m' : Table (Nat × Nat) Nat}

/-! ## Words and pairs -/

theorem distinguishes_nil_iff : d.Distinguishes p q [] ↔ d.differAtOnce p q = true := by
  rw [Distinguishes, acceptsFrom_nil, acceptsFrom_nil, differAtOnce, bne_iff_ne]

theorem distinguishes_cons_iff : d.Distinguishes p q (a :: w) ↔
    d.Distinguishes (d.completedTarget p a) (d.completedTarget q a) w := by
  rw [Distinguishes, acceptsFrom_cons_completed, acceptsFrom_cons_completed, Distinguishes]

/-- A word that begins with a symbol outside the alphabet is accepted from no state. -/
theorem Distinguishes.mem_alphabet (h : d.Distinguishes p q (a :: w)) : a ∈ d.alphabet := by
  by_contra ha
  refine h ?_
  rw [acceptsFrom_cons, acceptsFrom_cons, target?_eq_none_of_notMem ha, target?_eq_none_of_notMem ha]

theorem Distinguishes.orderedPair (h : d.Distinguishes p q w) (hp : p < d.completedCount) (hq : q < d.completedCount) :
    Dfa.orderedPair p q ∈ pairsBelow d.completedCount ∧
      d.Distinguishes (Dfa.orderedPair p q).1 (Dfa.orderedPair p q).2 w := by
  rcases Nat.lt_trichotomy p q with hlt | rfl | hlt
  · rw [orderedPair_of_lt hlt]
    exact ⟨mem_pairsBelow.mpr ⟨hlt, hq⟩, h⟩
  · exact absurd rfl h
  · rw [orderedPair_comm, orderedPair_of_lt hlt]
    exact ⟨mem_pairsBelow.mpr ⟨hlt, hp⟩, h.symm⟩

/-- The completed automaton accepts a word from a state if it ends in an accepting state. The dead state is none. -/
theorem acceptsFrom_eq_foldl (d : Dfa) (q : Nat) (w : List Symbol) :
    d.acceptsFrom q w = decide (w.foldl d.completedTarget q ∈ d.accept) := by
  induction w generalizing q with
  | nil => exact acceptsFrom_nil d q
  | cons a w ih => rw [acceptsFrom_cons_completed, ih, List.foldl_cons]

/-! ## One pair and many pairs -/

/-- The marks of `m` are in `m'`, with their rounds. -/
def Keeps (m m' : Table (Nat × Nat) Nat) : Prop := ∀ e i, m.get? e = some i → m'.get? e = some i

theorem get?_markPair (d : Dfa) (k : Nat) (m : Table (Nat × Nat) Nat) (e x : Nat × Nat) :
    (d.markPair k m e).get? x =
      if x = e ∧ m.get? e = none ∧ d.leadsToMark m e.1 e.2 = true then some k else m.get? x := by
  have hmarks : (!m.contains e && d.leadsToMark m e.1 e.2) = true ↔
      m.get? e = none ∧ d.leadsToMark m e.1 e.2 = true := by
    rw [Bool.and_eq_true, Bool.not_eq_true', Table.contains, Option.isSome_eq_false_iff, Option.isNone_iff_eq_none]
  unfold markPair
  split
  · next h =>
    rw [Table.get?_insert]
    simp only [hmarks.mp h, and_self, and_true]
  · next h => rw [if_neg fun hx => h (hmarks.mpr hx.2)]

theorem keeps_markPair (d : Dfa) (k : Nat) (m : Table (Nat × Nat) Nat) (e : Nat × Nat) : Keeps m (d.markPair k m e) := by
  intro x i hx
  rw [get?_markPair, if_neg, hx]
  rintro ⟨rfl, hnone, -⟩
  rw [hnone] at hx
  contradiction

/-- A mark that going through some pairs makes has the number of the round and is that of a pair without one. -/
theorem get?_foldl_markPair {l : List (Nat × Nat)} (h : (l.foldl (d.markPair k) m).get? e = some i) :
    m.get? e = some i ∨ i = k ∧ e ∈ l ∧ m.get? e = none := by
  induction l generalizing m with
  | nil => exact .inl h
  | cons x l ih =>
    rcases ih h with hx | ⟨hik, hel, hx⟩
    · rw [get?_markPair] at hx
      split at hx
      · next hnew =>
        obtain ⟨rfl, hnone, -⟩ := hnew
        exact .inr ⟨(Option.some.inj hx).symm, .head _, hnone⟩
      · exact .inl hx
    · refine .inr ⟨hik, .tail _ hel, Option.eq_none_iff_forall_ne_some.mpr fun j hj => ?_⟩
      rw [keeps_markPair d k m x e j hj] at hx
      contradiction

theorem leadsToMark_of_keeps (hm : Keeps m m') (h : d.leadsToMark m p q = true) : d.leadsToMark m' p q = true := by
  obtain ⟨a, ha, hto⟩ := List.any_eq_true.mp h
  obtain ⟨i, hi⟩ := Option.isSome_iff_exists.mp hto
  exact List.any_eq_true.mpr ⟨a, ha, Option.isSome_iff_exists.mpr ⟨i, hm _ i hi⟩⟩

theorem keeps_foldl_markPair (d : Dfa) (k : Nat) (l : List (Nat × Nat)) (m : Table (Nat × Nat) Nat) :
    Keeps m (l.foldl (d.markPair k) m) :=
  List.foldlRecOn (motive := Keeps m) l _ (fun _ _ h => h) fun t ht e _ x i hx => keeps_markPair d k t e x i (ht x i hx)

/-- Going through some pairs marks each of them that some symbol leads to a marked pair. Marks are added on the way there, but
those that were there before are enough. -/
theorem exists_get?_foldl_markPair {l : List (Nat × Nat)} (he : e ∈ l) (h : d.leadsToMark m e.1 e.2 = true) :
    ∃ i, (l.foldl (d.markPair k) m).get? e = some i := by
  obtain ⟨t, hmt, htend⟩ := exists_foldl_step (r := Keeps) (fun _ _ _ h => h)
    (fun hst htu x i hx => htu x i (hst x i hx)) (keeps_markPair d k) m he
  cases ht : t.get? e with
  | some i => exact ⟨i, htend e i (keeps_markPair d k t e e i ht)⟩
  | none =>
    refine ⟨k, htend e k ?_⟩
    rw [get?_markPair, if_pos ⟨rfl, ht, leadsToMark_of_keeps hmt h⟩]

/-! ## Rounds -/

/-- The marks after `k` rounds: none has a later number, exactly those of pairs that differ at once have number zero, and a
pair is marked if a word of at most `k` symbols tells its states apart, in a round with no higher number than the word has
symbols. -/
structure Dated (d : Dfa) (k : Nat) (m : Table (Nat × Nat) Nat) : Prop where
  le : ∀ e i, m.get? e = some i → i ≤ k
  eq_zero_iff : ∀ e i, m.get? e = some i → (i = 0 ↔ d.differAtOnce e.1 e.2 = true)
  exists_mark : ∀ e ∈ pairsBelow d.completedCount, ∀ w, w.length ≤ k → d.Distinguishes e.1 e.2 w →
    ∃ i ≤ w.length, m.get? e = some i

namespace Dated

theorem firstMarks (d : Dfa) : d.Dated 0 d.firstMarks := by
  have hget : ∀ e i, d.firstMarks.get? e = some i ↔
      (e ∈ pairsBelow d.completedCount ∧ d.differAtOnce e.1 e.2 = true) ∧ 0 = i := by
    intro e i
    rw [Dfa.firstMarks, Table.get?_ofList_map]
    split
    · next h => rw [Option.some.injEq, and_iff_right (List.mem_filter.mp h)]
    · next h => exact iff_of_false (Option.some_ne_none i).symm fun hx => h (List.mem_filter.mpr hx.1)
  refine ⟨fun e i h => ?_, fun e i h => ?_, fun e he w hw h => ?_⟩
  · exact Nat.le_of_eq ((hget e i).mp h).2.symm
  · exact iff_of_true ((hget e i).mp h).2.symm ((hget e i).mp h).1.2
  · obtain rfl := List.length_eq_zero_iff.mp (Nat.le_zero.mp hw)
    exact ⟨0, Nat.le_refl 0, (hget e 0).mpr ⟨⟨he, distinguishes_nil_iff.mp h⟩, rfl⟩⟩

theorem markRound (h : d.Dated k m) : d.Dated (k + 1) (d.markRound (k + 1) m) := by
  rw [markRound_eq]
  have hle : ∀ e i, ((pairsBelow d.completedCount).foldl (d.markPair (k + 1)) m).get? e = some i → i ≤ k + 1 := by
    intro e i hi
    rcases get?_foldl_markPair hi with hi | ⟨rfl, -⟩
    · exact Nat.le_succ_of_le (h.le e i hi)
    · exact Nat.le_refl _
  refine ⟨hle, fun e i hi => ?_, fun e he w hw hdist => ?_⟩
  · rcases get?_foldl_markPair hi with hi | ⟨rfl, he, hnone⟩
    · exact h.eq_zero_iff e i hi
    · -- Pairs that differ at once were marked before, so this is none of them.
      refine iff_of_false (Nat.succ_ne_zero k) fun hdiff => ?_
      obtain ⟨j, -, hj⟩ := h.exists_mark e he [] (Nat.zero_le k) (distinguishes_nil_iff.mpr hdiff)
      rw [hnone] at hj
      contradiction
  · rcases Nat.lt_or_ge k w.length with hlong | hshort
    · cases w with
      | nil => exact absurd hlong (Nat.not_lt_zero k)
      | cons a w =>
        -- The rest of the word tells the targets apart, so they were marked before this round.
        obtain ⟨hpq, hq⟩ := mem_pairsBelow.mp (show (e.1, e.2) ∈ _ from he)
        have ha := hdist.mem_alphabet
        obtain ⟨hpair, htargets⟩ := (distinguishes_cons_iff.mp hdist).orderedPair
          (completedTarget_lt (Nat.lt_trans hpq hq) ha) (completedTarget_lt hq ha)
        obtain ⟨j, -, hj⟩ := h.exists_mark _ hpair w (Nat.le_of_succ_le_succ hw) htargets
        have hleads : d.leadsToMark m e.1 e.2 = true :=
          List.any_eq_true.mpr ⟨a, ha, Option.isSome_iff_exists.mpr ⟨j, hj⟩⟩
        obtain ⟨i, hi⟩ := exists_get?_foldl_markPair (k := k + 1) he hleads
        exact ⟨i, Nat.le_trans (hle e i hi) hlong, hi⟩
    · obtain ⟨i, hiw, hi⟩ := h.exists_mark e he w hshort hdist
      exact ⟨i, hiw, keeps_foldl_markPair d (k + 1) _ m e i hi⟩

end Dated

/-- A pair of states, the dead state among them, is marked exactly if some word tells them apart. -/
theorem contains_marks_iff (hpq : p < q) (hq : q < d.completedCount) : d.marks.contains (p, q) = true ↔ d.Separated p q := by
  refine ⟨exists_distinguishes_of_marked, fun ⟨w, _, hw⟩ => ?_⟩
  by_contra hm
  refine hw (acceptsFrom_eq_of_unmarked (Nat.lt_trans hpq hq) hq (fun _ => ?_) w)
  rw [orderedPair_of_lt hpq]
  exact Bool.eq_false_iff.mpr hm

/-- The rounds of marking come to an end, and pairs of states of the completed automaton are marked, the smaller state first.
A pair is marked exactly if a word over the alphabet is accepted from one of its states only, in round zero exactly if
one of its states accepts and the other does not, and never in a round with a higher number than such a word has symbols. -/
theorem marks_dated (d : Dfa) :
    Settles d.markRound 0 d.firstMarks d.marking ∧
    (∀ e, d.marks.contains e = true → e.1 < e.2 ∧ e.2 < d.completedCount) ∧
    (∀ q w, d.acceptsFrom q w = decide (w.foldl d.completedTarget q ∈ d.accept)) ∧
    ∀ p q, p < q → q < d.completedCount →
      (d.marks.contains (p, q) = true ↔ ∃ w, (∀ a ∈ w, a ∈ d.alphabet) ∧ d.acceptsFrom p w ≠ d.acceptsFrom q w) ∧
      ∀ i, d.marks.get? (p, q) = some i →
        (i = 0 ↔ ¬ (p ∈ d.accept ↔ q ∈ d.accept)) ∧ ∀ w, d.acceptsFrom p w ≠ d.acceptsFrom q w → i ≤ w.length := by
  have hsettles := settles_marking d
  obtain ⟨k, -, hdated⟩ : ∃ k, d.marking.rounds = k + 1 ∧ d.Dated k d.marks :=
    hsettles.induction (fun _ _ h => h.markRound) (.firstMarks d)
  refine ⟨hsettles, fun e he => ?_, acceptsFrom_eq_foldl d, fun p q hpq hq => ⟨contains_marks_iff hpq hq, fun i hi => ⟨?_, ?_⟩⟩⟩
  · exact mem_pairsBelow.mp (show (e.1, e.2) ∈ _ from keys_marks_subset d (Table.get?_isSome_iff.mp he))
  · rw [hdated.eq_zero_iff _ i hi, differAtOnce, bne_iff_ne, Ne, decide_eq_decide]
  · -- A word of more symbols than there were rounds is longer than every number.
    intro w hw
    rcases Nat.lt_or_ge k w.length with hlong | hshort
    · exact Nat.le_trans (hdated.le _ i hi) (Nat.le_of_lt hlong)
    · obtain ⟨j, hjw, hj⟩ := hdated.exists_mark (p, q) (mem_pairsBelow.mpr ⟨hpq, hq⟩) w hshort hw
      obtain rfl := Option.some.inj (hi.symm.trans hj)
      exact hjw

/-- A chain `2`, `1`, `0` and a state without transitions. The pair of `2` and `3` is marked in round one, since that of `1`
and the dead state `4` comes before it there, but no word of one symbol tells `2` and `3` apart. -/
theorem marks_dated_early :
    ∃ d, ofTables ⟨4, 0, [0], [∅, .ofList [("a", 0)], .ofList [("a", 1)], ∅], some ["a"]⟩ = .ok d ∧ d.completedCount = 5 ∧
      d.marks.get? (2, 3) = some 1 ∧ (∃ w, (∀ a ∈ w, a ∈ d.alphabet) ∧ d.acceptsFrom 2 w ≠ d.acceptsFrom 3 w) ∧
      (∀ w, d.acceptsFrom 2 w ≠ d.acceptsFrom 3 w → 1 ≤ w.length) ∧ d.acceptsFrom 2 ["a"] = d.acceptsFrom 3 ["a"] ∧
      ¬ ∃ w, (∀ a ∈ w, a ∈ d.alphabet) ∧ d.acceptsFrom 3 w ≠ d.acceptsFrom 4 w := by
  obtain ⟨d, hd⟩ : ∃ d, ofTables ⟨4, 0, [0], [∅, .ofList [("a", 0)], .ofList [("a", 1)], ∅], some ["a"]⟩ = .ok d := ⟨_, rfl⟩
  obtain ⟨-, -, -, hpairs⟩ := marks_dated d
  obtain ⟨hcount, hmark, hword, hunmarked⟩ : d.completedCount = 5 ∧ d.marks.get? (2, 3) = some 1 ∧
      d.acceptsFrom 2 ["a"] = d.acceptsFrom 3 ["a"] ∧ d.marks.contains (3, 4) = false := by
    obtain rfl := Except.ok.inj hd
    decide
  rw [hcount] at hpairs
  obtain ⟨hiff, hround⟩ := hpairs 2 3 (by decide) (by decide)
  refine ⟨d, hd, hcount, hmark, hiff.mp ?_, (hround 1 hmark).2, hword, fun hw => ?_⟩
  · rw [Table.contains, hmark]
    rfl
  · rw [(hpairs 3 4 (by decide) (by decide)).1.mpr hw] at hunmarked
    contradiction

end Dfa

end FormalLang
