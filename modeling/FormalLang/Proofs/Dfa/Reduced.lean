import FormalLang.Proofs.Dfa.LanguageQuotient
import Mathlib.Data.Set.Card
import Mathlib.Order.Interval.Set.Nat

/-!
# One state for each language

An automaton whose states have different languages is its own quotient, with each state alone in its class. The quotient of any
automaton is such an automaton, and it has the languages of the given one. So minimizing it again changes nothing, though a
transition may be missing again and a dead state be added again while its pairs are marked.

* `Dfa.Reduced`: no two states have one language.
* `Dfa.Reduced.isQuotient`: such an automaton is its own quotient.
* `Dfa.reduced_quotient`, `languages_quotient`: the quotient has the languages of the states, each once.
* `Dfa.minimize_reduced`: the size of the minimized automaton, and what minimizing it again gives.
-/

namespace FormalLang

namespace Dfa

variable {d m : Dfa} {q i : Nat}

/-! ## Reduced automata -/

/-- The languages of the states. -/
def languages (d : Dfa) : Set (Set (List Symbol)) := d.languageFrom '' Set.Iio d.count

/-- No two states have one language. -/
def Reduced (d : Dfa) : Prop := Set.InjOn d.languageFrom (Set.Iio d.count)

namespace Reduced

variable (h : d.Reduced)
include h

theorem equivalentPairs_eq_nil : d.equivalentPairs = [] := by
  refine List.eq_nil_iff_forall_not_mem.mpr fun ⟨p, q⟩ hpq => ?_
  obtain ⟨hlt, hq, -⟩ := mem_equivalentPairs.mp hpq
  have hp := Nat.lt_trans hlt hq
  exact Nat.ne_of_lt hlt (h hp hq (languageFrom_eq_iff.mpr ((connected_iff hp hq).mp (.pair hpq))))

theorem ncard_languages : d.languages.ncard = d.count := by
  rw [languages, h.ncard_image, Set.ncard_Iio_nat]

end Reduced

/-- The sets that hold one state each. -/
def singletons (n : Nat) : List (OrderedSet Nat) := (List.range n).map OrderedSet.singleton

theorem mem_getD_singletons {n : Nat} : q ∈ (singletons n).getD i ∅ ↔ i < n ∧ q = i := by
  rw [singletons, List.getD_eq_getElem?_getD, List.getElem?_map]
  by_cases hi : i < n <;> simp [hi]

theorem isLeast_singleton (q : Nat) : IsLeast {p | p ∈ OrderedSet.singleton q} q :=
  ⟨OrderedSet.mem_singleton.mpr rfl, fun _ hp => Nat.le_of_eq (OrderedSet.mem_singleton.mp hp).symm⟩

/-- An automaton whose states have different languages is its own quotient, with one state in each class. -/
theorem Reduced.isQuotient (h : d.Reduced) : d.IsQuotient (singletons d.count) d where
  mem_classes_iff c := by
    have hclass : ∀ p < d.count, ∀ q, q ∈ OrderedSet.singleton p ↔ q < d.count ∧ d.languageFrom q = d.languageFrom p := by
      intro p hp q
      rw [OrderedSet.mem_singleton]
      constructor
      · rintro rfl
        exact ⟨hp, rfl⟩
      · exact fun hq => h hq.1 hp hq.2
    rw [singletons, List.mem_map]
    constructor
    · rintro ⟨p, hp, rfl⟩
      exact ⟨p, List.mem_range.mp hp, hclass p (List.mem_range.mp hp)⟩
    · rintro ⟨p, hp, hc⟩
      exact ⟨p, List.mem_range.mpr hp, OrderedSet.ext fun q => (hclass p hp q).trans (hc q).symm⟩
  ascending := List.pairwise_map.mpr (List.pairwise_lt_range.imp fun {p q} hlt =>
    ⟨p, q, isLeast_singleton p, isLeast_singleton q, hlt⟩)
  count_eq := by rw [singletons, List.length_map, List.length_range]
  alphabet_eq := rfl
  start_mem := mem_getD_singletons.mpr ⟨d.start_lt, rfl⟩
  accept_iff i q hq := by rw [(mem_getD_singletons.mp hq).2]
  target_iff i a := by
    constructor
    · rintro ⟨j, hj⟩
      exact ⟨i, mem_getD_singletons.mpr ⟨source_lt_count hj, rfl⟩, j, hj⟩
    · rintro ⟨q, hq, r, hr⟩
      exact ⟨r, (mem_getD_singletons.mp hq).2 ▸ hr⟩
  target_mem i a j hj q hq r hr := by
    rw [(mem_getD_singletons.mp hq).2, hj] at hr
    exact mem_getD_singletons.mpr ⟨target_lt_count hj, (Option.some.inj hr).symm⟩

/-! ## Minimized automata -/

section

variable (hm : (d.quotientTables d.classes).Represents m)
include hm

/-- A class has the language of its members. -/
theorem languageFrom_classOf (hq : q < d.count) : m.languageFrom (classOf d.classes q) = d.languageFrom q :=
  languageFrom_eq_iff.mpr (acceptsFrom_classOf hm hq)

theorem reduced_quotient : m.Reduced := fun _ hi _ hj h => eq_of_acceptsFrom_eq hm hi hj (languageFrom_eq_iff.mp h)

theorem languages_quotient : m.languages = d.languages := by
  ext l
  constructor
  · rintro ⟨i, hi, rfl⟩
    obtain ⟨q, hq, rfl⟩ := exists_classOf_eq (count_quotient hm ▸ hi)
    exact ⟨q, hq, (languageFrom_classOf hm hq).symm⟩
  · rintro ⟨q, hq, rfl⟩
    exact ⟨classOf d.classes q, count_quotient hm ▸ classOf_lt hq, languageFrom_classOf hm hq⟩

end

/-- The minimized automaton has one state for each language of a state, hence no more states than the given one. No pair of its
states stays unmarked, and minimizing it again gives the same tables, with each state alone in its class. -/
theorem minimize_reduced (d : Dfa) (flags : BuildFlags) :
    ∃ m, d.minimize flags = .ok m ∧ m.equivalentPairs = [] ∧ m.count = d.languages.ncard ∧ m.count ≤ d.count ∧
      ∀ flags', ∃ m', m.minimize flags' = .ok m' ∧ m'.SameTables m ∧ m'.sources = some (singletons m.count) := by
  obtain ⟨m, hm, hrep, -⟩ := exists_minimize d flags
  have hreduced := reduced_quotient hrep
  have hcount : m.count = d.languages.ncard := by
    rw [← languages_quotient hrep, hreduced.ncard_languages]
  refine ⟨m, hm, hreduced.equivalentPairs_eq_nil, hcount, ?_, fun flags' => ?_⟩
  · calc m.count
      _ = (d.languageFrom '' Set.Iio d.count).ncard := hcount
      _ ≤ (Set.Iio d.count).ncard := Set.ncard_image_le (Set.finite_Iio _)
      _ = d.count := Set.ncard_Iio_nat _
  · obtain ⟨m', hm', hrep', hsources'⟩ := exists_minimize m flags'
    obtain ⟨hclasses, hsame⟩ := (isQuotient_classes hrep').unique hreduced.isQuotient
    exact ⟨m', hm', hsame, hclasses ▸ hsources'⟩

end Dfa

end FormalLang
