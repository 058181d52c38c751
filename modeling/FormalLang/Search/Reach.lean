import FormalLang.Search

/-!
# What a search finds

* `Search.reach_congr`: what seeds lead to does not depend on how anything is listed.
* `Search.unseen_flatMap`: what comes from sources that have been met before is not new.
* `Search.sound`: a search finds only elements that the seeds lead to.
* `Search.closed_of_length_le`: with a visit for every element that can arise, nothing that a found element leads to
  is missing.
* `Search.mem_found_iff`: a complete search finds exactly the elements that the seeds lead to.
* `Search.nodup_found`: no element is found twice.
-/

namespace FormalLang

namespace Search

variable {α : Type}

/-- The elements that some seeds lead to, directly or through others. -/
inductive Reach (next : α → List α) (seeds : List α) : α → Prop where
  | seed {a} : a ∈ seeds → Reach next seeds a
  | step {a b} : Reach next seeds a → b ∈ next a → Reach next seeds b

theorem Reach.mono {next next' : α → List α} {seeds seeds' : List α} (hseeds : seeds ⊆ seeds')
    (hnext : ∀ a, next a ⊆ next' a) {a : α} (h : Reach next seeds a) : Reach next' seeds' a := by
  induction h with
  | seed h => exact .seed (hseeds h)
  | step _ hb ih => exact .step ih (hnext _ hb)

/-- Only the members of the seeds and of what is next count, and not how they are listed. -/
theorem reach_congr {next next' : α → List α} {seeds seeds' : List α} (hseeds : ∀ a, a ∈ seeds ↔ a ∈ seeds')
    (hnext : ∀ a b, b ∈ next a ↔ b ∈ next' a) {a : α} : Reach next seeds a ↔ Reach next' seeds' a :=
  ⟨Reach.mono (fun a => (hseeds a).mp) fun a b => (hnext a b).mp,
    Reach.mono (fun a => (hseeds a).mpr) fun a b => (hnext a b).mpr⟩

variable [DecidableEq α] {next : α → List α} {d : Discipline}

/-! ## New elements -/

theorem mem_unseen {known l : List α} {a : α} : a ∈ unseen known l ↔ a ∈ l ∧ a ∉ known := by
  induction l generalizing known with
  | nil => simp [unseen]
  | cons b l ih =>
    rw [unseen]
    split
    · next hb =>
      rw [ih]
      refine ⟨fun h => ⟨.tail _ h.1, h.2⟩, fun h => ⟨?_, h.2⟩⟩
      rcases List.mem_cons.mp h.1 with rfl | h1
      · exact absurd hb h.2
      · exact h1
    · next hb =>
      rw [List.mem_cons, ih]
      constructor
      · rintro (rfl | ⟨h1, h2⟩)
        · exact ⟨.head _, hb⟩
        · exact ⟨.tail _ h1, fun h => h2 (.tail _ h)⟩
      · rintro ⟨h1, h2⟩
        by_cases hab : a = b
        · exact .inl hab
        · refine .inr ⟨(List.mem_cons.mp h1).resolve_left hab, fun h => ?_⟩
          exact (List.mem_cons.mp h).elim hab h2

theorem nodup_unseen (known l : List α) : (unseen known l).Nodup := by
  induction l generalizing known with
  | nil => simp [unseen]
  | cons b l ih =>
    rw [unseen]
    split
    · exact ih known
    · refine List.nodup_cons.mpr ⟨fun h => ?_, ih _⟩
      exact (mem_unseen.mp h).2 (.head _)

/-- Only the elements of what is known count, and not how they are listed. -/
theorem unseen_congr {known known' : List α} (h : ∀ a, a ∈ known ↔ a ∈ known') (l : List α) :
    unseen known l = unseen known' l := by
  induction l generalizing known known' with
  | nil => rfl
  | cons b l ih =>
    have hb : ∀ a, a ∈ b :: known ↔ a ∈ b :: known' := fun a => by rw [List.mem_cons, List.mem_cons, h]
    rw [unseen, unseen, ih h, ih hb]
    simp only [h b]

theorem unseen_eq_nil {known l : List α} (h : l ⊆ known) : unseen known l = [] :=
  List.eq_nil_iff_forall_not_mem.mpr fun _ ha => (mem_unseen.mp ha).2 (h (mem_unseen.mp ha).1)

/-- Elements that occur once and are not known are all new. -/
theorem unseen_eq_self {known l : List α} (hl : l.Nodup) (h : ∀ a ∈ l, a ∉ known) : unseen known l = l := by
  induction l generalizing known with
  | nil => rfl
  | cons a l ih =>
    obtain ⟨ha, hl⟩ := List.nodup_cons.mp hl
    rw [unseen, if_neg (h a (.head _)), ih hl fun b hb hbk => ?_]
    rcases List.mem_cons.mp hbk with rfl | hbk
    · exact ha hb
    · exact h b (.tail _ hb) hbk

theorem unseen_append (known l m : List α) :
    unseen known (l ++ m) = unseen known l ++ unseen (known ++ unseen known l) m := by
  induction l generalizing known with
  | nil => rw [List.nil_append, unseen, List.nil_append, List.append_nil]
  | cons a l ih =>
    rw [List.cons_append, unseen, unseen]
    split
    · exact ih known
    · rw [ih, List.cons_append]
      congr 2
      exact unseen_congr (fun b => by simp [or_left_comm]) m

/-- What comes from sources met before is known, so that only the new sources count. -/
theorem unseen_flatMap {β : Type} [DecidableEq β] {f : β → List α} {known : List α} {met l : List β}
    (h : ∀ b ∈ met, f b ⊆ known) : unseen known ((unseen met l).flatMap f) = unseen known (l.flatMap f) := by
  induction l generalizing known met with
  | nil => rfl
  | cons b l ih =>
    rw [List.flatMap_cons, unseen_append, unseen]
    split
    · next hb => rw [unseen_eq_nil (h b hb), List.nil_append, List.append_nil, ih h]
    · rw [List.flatMap_cons, unseen_append, ih fun c hc a ha => ?_]
      rcases List.mem_cons.mp hc with rfl | hc
      · by_cases hk : a ∈ known
        · exact List.mem_append_left _ hk
        · exact List.mem_append_right _ (mem_unseen.mpr ⟨ha, hk⟩)
      · exact List.mem_append_left _ (h c hc ha)

theorem nodup_append_unseen {known : List α} (h : known.Nodup) (l : List α) :
    (known ++ unseen known l).Nodup := by
  refine List.nodup_append.mpr ⟨h, nodup_unseen _ _, ?_⟩
  rintro a ha b hb rfl
  exact (mem_unseen.mp hb).2 ha

omit [DecidableEq α] in
theorem enqueue_perm (d : Discipline) (fresh waiting : List α) :
    (d.enqueue fresh waiting).Perm (fresh ++ waiting) := by
  cases d with
  | depthFirst => exact (List.reverse_perm _).append_right _
  | breadthFirst => exact List.perm_append_comm

/-! ## Explorations -/

theorem prefix_explore (n : Nat) (found waiting : List α) : found <+: (explore d next n found waiting).found := by
  induction n generalizing found waiting with
  | zero => exact List.prefix_refl found
  | succ n ih =>
    cases waiting with
    | nil => exact List.prefix_refl found
    | cons a waiting => exact (List.prefix_append _ _).trans (ih _ _)

theorem found_subset (n : Nat) (found waiting : List α) :
    found ⊆ (explore d next n found waiting).found := (prefix_explore n found waiting).subset

theorem nodup_explore (n : Nat) {found waiting : List α} (h : found.Nodup) :
    (explore d next n found waiting).found.Nodup := by
  induction n generalizing found waiting with
  | zero => exact h
  | succ n ih =>
    cases waiting with
    | nil => exact h
    | cons a waiting => exact ih (nodup_append_unseen h _)

/-- What holds of the elements found so far, and is kept along `next`, holds of all that are found. -/
theorem forall_explore {P : α → Prop} (hP : ∀ a, P a → ∀ b ∈ next a, P b) (n : Nat)
    {found waiting : List α} (hf : ∀ a ∈ found, P a) (hw : waiting ⊆ found) :
    ∀ a ∈ (explore d next n found waiting).found, P a := by
  induction n generalizing found waiting with
  | zero => exact hf
  | succ n ih =>
    cases waiting with
    | nil => exact hf
    | cons b waiting =>
      refine ih (fun a ha => ?_) (fun a ha => ?_)
      · rcases List.mem_append.mp ha with ha | ha
        · exact hf a ha
        · exact hP b (hf b (hw (.head _))) a (mem_unseen.mp ha).1
      · rcases List.mem_append.mp ((enqueue_perm d _ _).mem_iff.mp ha) with ha | ha
        · exact List.mem_append_right _ ha
        · exact List.mem_append_left _ (hw (.tail _ ha))

/-- An exploration that may make as many visits as there are elements that can arise looks at what each found element
leads to. The elements that wait are those not yet looked at. -/
theorem explore_closed {u : List α} (hu : ∀ a ∈ u, next a ⊆ u) (n : Nat) {found waiting : List α}
    (hfu : found ⊆ u) (hf : found.Nodup) (hw : waiting.Nodup) (hwf : waiting ⊆ found)
    (hn : u.length + waiting.length ≤ n + found.length)
    (hc : ∀ a ∈ found, a ∉ waiting → next a ⊆ found) :
    ∀ a ∈ (explore d next n found waiting).found, next a ⊆ (explore d next n found waiting).found := by
  induction n generalizing found waiting with
  | zero =>
    have hle := hf.length_le_of_subset hfu
    have : waiting = [] := List.length_eq_zero_iff.mp (by omega)
    subst this
    exact fun a ha => hc a ha List.not_mem_nil
  | succ n ih =>
    cases waiting with
    | nil => exact fun a ha => hc a ha List.not_mem_nil
    | cons b waiting =>
      have hb : b ∈ found := hwf (.head _)
      have hwb := List.nodup_cons.mp hw
      have hp := enqueue_perm d (unseen found (next b)) waiting
      refine ih (fun a ha => ?_) (nodup_append_unseen hf _) ?_ (fun a ha => ?_) ?_ (fun a ha hna => ?_)
      · rcases List.mem_append.mp ha with ha | ha
        · exact hfu ha
        · exact hu b (hfu hb) (mem_unseen.mp ha).1
      · refine hp.nodup_iff.mpr (List.nodup_append.mpr ⟨nodup_unseen _ _, hwb.2, ?_⟩)
        rintro x hx y hy rfl
        exact (mem_unseen.mp hx).2 (hwf (.tail _ hy))
      · rcases List.mem_append.mp (hp.mem_iff.mp ha) with ha | ha
        · exact List.mem_append_right _ ha
        · exact List.mem_append_left _ (hwf (.tail _ ha))
      · rw [hp.length_eq, List.length_append, List.length_append]
        rw [List.length_cons] at hn
        omega
      · have hna : a ∉ unseen found (next b) ++ waiting := fun h => hna (hp.mem_iff.mpr h)
        rcases List.mem_append.mp ha with ha | ha
        · by_cases hab : a = b
          · subst hab
            intro c hc'
            by_cases hcf : c ∈ found
            · exact List.mem_append_left _ hcf
            · exact List.mem_append_right _ (mem_unseen.mpr ⟨hc', hcf⟩)
          · refine fun c hc' => List.mem_append_left _ (hc a ha (fun h => ?_) hc')
            rcases List.mem_cons.mp h with h | h
            · exact hab h
            · exact hna (List.mem_append_right _ h)
        · exact absurd (List.mem_append_left _ ha) hna

/-! ## Searches -/

theorem nodup_found (d : Discipline) (next : α → List α) (bound : Nat) (seeds : List α) :
    (search d next bound seeds).found.Nodup := nodup_explore _ (nodup_unseen _ _)

theorem seeds_subset (d : Discipline) (next : α → List α) (bound : Nat) (seeds : List α) :
    seeds ⊆ (search d next bound seeds).found :=
  fun _ h => found_subset _ _ _ (mem_unseen.mpr ⟨h, List.not_mem_nil⟩)

/-- A single seed is found first. -/
theorem getElem?_found_zero (d : Discipline) (next : α → List α) (bound : Nat) (a : α) :
    (search d next bound [a]).found[0]? = some a := by
  obtain ⟨rest, h⟩ : [a] <+: (search d next bound [a]).found := prefix_explore _ _ _
  rw [← h]
  rfl

omit [DecidableEq α] in
private theorem enqueue_subset (l : List α) : d.enqueue l [] ⊆ l := fun a ha => by
  simpa using (enqueue_perm d l []).mem_iff.mp ha

/-- A search finds only what the seeds lead to. -/
theorem sound {bound : Nat} {seeds : List α} :
    ∀ a ∈ (search d next bound seeds).found, Reach next seeds a :=
  forall_explore (fun _ h _ hb => .step h hb) _ (fun _ h => .seed (mem_unseen.mp h).1) (enqueue_subset _)

/-- With as many visits as there are elements that can arise, a search looks at what each found element leads to. -/
theorem closed_of_length_le {bound : Nat} {seeds u : List α} (hs : seeds ⊆ u) (hu : ∀ a ∈ u, next a ⊆ u)
    (hb : u.length ≤ bound) :
    ∀ a ∈ (search d next bound seeds).found, next a ⊆ (search d next bound seeds).found := by
  have hp := enqueue_perm d (unseen [] seeds) []
  rw [List.append_nil] at hp
  refine explore_closed hu bound (fun a ha => hs (mem_unseen.mp ha).1) (nodup_unseen _ _)
    (hp.nodup_iff.mpr (nodup_unseen _ _)) (enqueue_subset _) ?_ (fun a ha hn => ?_)
  · rw [hp.length_eq]
    omega
  · exact absurd (hp.mem_iff.mpr ha) hn

/-- A complete search finds exactly what the seeds lead to. -/
theorem mem_found_iff {bound : Nat} {seeds u : List α} (hs : seeds ⊆ u) (hu : ∀ a ∈ u, next a ⊆ u)
    (hb : u.length ≤ bound) {a : α} : a ∈ (search d next bound seeds).found ↔ Reach next seeds a := by
  refine ⟨sound a, fun h => ?_⟩
  induction h with
  | seed h => exact seeds_subset d next bound seeds h
  | step _ hb' ih => exact closed_of_length_le hs hu hb _ ih hb'

end Search

end FormalLang
