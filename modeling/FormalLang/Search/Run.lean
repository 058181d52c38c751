import FormalLang.Search.Reach

/-!
# Searches without a bound

A search is over once no element waits. That it is over depends on the number of elements that can arise, and the bound on
its visits only has to be large enough for it: then the bounded search does what the search without a bound does.

* `Search.Finishes`: what a search without a bound did when nothing waits any more.
* `Search.finishes_search`: with a visit for every element that can arise, a bounded search is over.
* `Search.Finishes.unique`: what a search did does not depend on its bound.
* `Search.Finishes.visited_perm`: a search that is over has visited each element that it found, once.
* `Search.Finishes.visited_eq`: a breadth-first search visits elements in the order in which it finds them.
* `Search.exists_finishes`: a search among finitely many elements is over at some time, and has found what its seeds lead to.
-/

namespace FormalLang

namespace Search

variable {α : Type} [DecidableEq α] {d : Discipline} {next : α → List α} {found waiting : List α} {t : Trace α}

/-- An exploration without a bound, which goes on until nothing waits. -/
inductive Runs (d : Discipline) (next : α → List α) : List α → List α → Trace α → Prop where
  | stop (found : List α) : Runs d next found [] ⟨found, []⟩
  | visit {found waiting : List α} {a : α} {t : Trace α} :
      Runs d next (found ++ unseen found (next a)) (d.enqueue (unseen found (next a)) waiting) t →
        Runs d next found (a :: waiting) ⟨t.found, a :: t.visited⟩

/-- The search from `seeds` without a bound on its visits comes to an end, and has done this. -/
def Finishes (d : Discipline) (next : α → List α) (seeds : List α) (t : Trace α) : Prop :=
  Runs d next (unseen [] seeds) (d.enqueue (unseen [] seeds) []) t

/-- An exploration that may make as many visits as there are elements that can arise ends because nothing waits: each visit
either discovers an element or leaves one element less to wait. -/
theorem runs_explore {u : List α} (hu : ∀ a ∈ u, next a ⊆ u) (n : Nat) (hfu : found ⊆ u) (hf : found.Nodup)
    (hwf : waiting ⊆ found) (hn : u.length + waiting.length ≤ n + found.length) :
    Runs d next found waiting (explore d next n found waiting) := by
  induction n generalizing found waiting with
  | zero =>
    have hle := hf.length_le_of_subset hfu
    obtain rfl : waiting = [] := List.length_eq_zero_iff.mp (by omega)
    exact .stop found
  | succ n ih =>
    cases waiting with
    | nil => exact .stop found
    | cons b waiting =>
      have hp := enqueue_perm d (unseen found (next b)) waiting
      refine .visit (ih (fun a ha => ?_) (nodup_append_unseen hf _) (fun a ha => ?_) ?_)
      · rcases List.mem_append.mp ha with ha | ha
        · exact hfu ha
        · exact hu b (hfu (hwf (.head _))) (mem_unseen.mp ha).1
      · rcases List.mem_append.mp (hp.mem_iff.mp ha) with ha | ha
        · exact List.mem_append_right _ ha
        · exact List.mem_append_left _ (hwf (.tail _ ha))
      · rw [hp.length_eq, List.length_append, List.length_append]
        rw [List.length_cons] at hn
        omega

/-- With as many visits as there are elements that can arise, a bounded search is the search without a bound. -/
theorem finishes_search {bound : Nat} {seeds u : List α} (hs : seeds ⊆ u) (hu : ∀ a ∈ u, next a ⊆ u)
    (hb : u.length ≤ bound) : Finishes d next seeds (search d next bound seeds) := by
  have hp := enqueue_perm d (unseen [] seeds) []
  rw [List.append_nil] at hp
  refine runs_explore hu bound (fun a ha => hs (mem_unseen.mp ha).1) (nodup_unseen _ _) hp.subset ?_
  rw [hp.length_eq]
  omega

/-- An exploration without a bound comes to one end only. -/
theorem Runs.unique {t' : Trace α} (h : Runs d next found waiting t) (h' : Runs d next found waiting t') : t = t' := by
  induction h generalizing t' with
  | stop found =>
    cases h'
    rfl
  | visit _ ih =>
    cases h' with
    | visit h' => rw [ih h']

theorem Finishes.unique {seeds : List α} {t' : Trace α} (h : Finishes d next seeds t) (h' : Finishes d next seeds t') :
    t = t' := Runs.unique h h'

/-- What has been found is what has been visited and what waits, and in the end nothing waits. -/
theorem Runs.found_perm (h : Runs d next found waiting t) {visited : List α} (hf : found.Perm (visited ++ waiting)) :
    t.found.Perm (visited ++ t.visited) := by
  induction h generalizing visited with
  | stop => exact hf
  | @visit found waiting a t _ ih =>
    have hnext : (found ++ unseen found (next a)).Perm ((visited ++ [a]) ++ d.enqueue (unseen found (next a)) waiting) := by
      have hp := List.perm_append_comm.trans (enqueue_perm d (unseen found (next a)) waiting).symm
      refine (hf.append_right _).trans ?_
      rw [List.append_cons, List.append_assoc]
      exact hp.append_left _
    have hrest := ih hnext
    rwa [List.append_assoc, List.singleton_append] at hrest

/-- Each element that a search finds is visited, once. -/
theorem Finishes.visited_perm {seeds : List α} (h : Finishes d next seeds t) : t.visited.Perm t.found := by
  have hp := enqueue_perm d (unseen [] seeds) []
  rw [List.append_nil] at hp
  have hstart : (unseen [] seeds).Perm ([] ++ d.enqueue (unseen [] seeds) []) := hp.symm
  exact (Runs.found_perm h hstart).symm

/-- Breadth first, elements are visited in the order in which they are found. -/
theorem Runs.found_eq (h : Runs .breadthFirst next found waiting t) {visited : List α} (hf : found = visited ++ waiting) :
    t.found = visited ++ t.visited := by
  generalize hd : Discipline.breadthFirst = d at h
  induction h generalizing visited with
  | stop => exact hf
  | @visit found waiting a t _ ih =>
    subst hd
    have hnext : found ++ unseen found (next a) =
        (visited ++ [a]) ++ Discipline.enqueue .breadthFirst (unseen found (next a)) waiting := by
      simp [hf, Discipline.enqueue]
    rw [ih hnext, List.append_assoc, List.singleton_append]

theorem Finishes.visited_eq {seeds : List α} (h : Finishes .breadthFirst next seeds t) : t.visited = t.found := by
  have hfound : t.found = [] ++ t.visited := Runs.found_eq h rfl
  exact hfound.symm

/-- Where only finitely many elements can arise, a search comes to an end, and then has found what its seeds lead to. -/
theorem exists_finishes (d : Discipline) {seeds u : List α} (hs : seeds ⊆ u) (hu : ∀ a ∈ u, next a ⊆ u) :
    ∃ t, Finishes d next seeds t ∧ t.visited.Perm t.found ∧ ∀ a, a ∈ t.found ↔ Reach next seeds a := by
  have hfinishes : Finishes d next seeds (search d next u.length seeds) := finishes_search hs hu (Nat.le_refl _)
  exact ⟨_, hfinishes, hfinishes.visited_perm, fun _ => mem_found_iff hs hu (Nat.le_refl _)⟩

end Search

end FormalLang
