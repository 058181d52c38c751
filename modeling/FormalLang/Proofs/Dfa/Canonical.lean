import FormalLang.Dfa.Isomorphism
import FormalLang.Proofs.Dfa.Marking
import Mathlib.Data.Fintype.Card
import Mathlib.Tactic.Choose

/-!
# Canonical automata

An automaton without missing transitions, whose states are all reached and are told apart by words, is determined by its
alphabet and its language: a state stands for the words accepted from it, and every automaton without missing
transitions has a state for each of them.

* `Dfa.exists_acceptsFrom_eq`: a reached state has a counterpart in every total automaton of the same language.
* `Dfa.Canonical.exists_isomorphism`: two canonical automata of one language are isomorphic.
* `Dfa.Canonical.count_le`: no total automaton of the language has fewer states.
-/

namespace FormalLang

namespace Dfa

variable {d e : Dfa} {p q : Nat} {u v w : List Symbol}

/-! ## Runs -/

theorem run?_lt_count (hq : q < d.count) (h : d.run? q w = some p) : p < d.count := by
  induction w generalizing q with
  | nil => exact Option.some.inj h ▸ hq
  | cons a w ih =>
    rw [run?_cons, Option.bind_eq_some_iff] at h
    obtain ⟨r, hr, h⟩ := h
    exact ih (target_lt_count hr) h

theorem mem_alphabet_of_run? (h : d.run? q w = some p) : ∀ a ∈ w, a ∈ d.alphabet := by
  induction w generalizing q with
  | nil => exact fun a ha => absurd ha List.not_mem_nil
  | cons a w ih =>
    rw [run?_cons, Option.bind_eq_some_iff] at h
    obtain ⟨r, hr, h⟩ := h
    exact List.forall_mem_cons.mpr ⟨mem_alphabet_of_target? hr, ih h⟩

/-- A word with a symbol that is not in the alphabet is not accepted. -/
theorem mem_alphabet_of_acceptsFrom (h : d.acceptsFrom q w = true) : ∀ a ∈ w, a ∈ d.alphabet := by
  rw [acceptsFrom, Option.any_eq_true] at h
  obtain ⟨p, hp, -⟩ := h
  exact mem_alphabet_of_run? hp

/-- What is accepted after a word is what is accepted from the state that it leads to. -/
theorem acceptsFrom_append (h : d.run? q u = some p) (v : List Symbol) :
    d.acceptsFrom q (u ++ v) = d.acceptsFrom p v := by
  rw [acceptsFrom, run?_append, h]
  rfl

/-- No transition is missing. -/
def Total (d : Dfa) : Prop := ∀ q < d.count, ∀ a ∈ d.alphabet, ∃ p, d.target? q a = some p

theorem total_of_isComplete (h : d.isComplete = true) : d.Total := fun _ hq _ ha => exists_target_of_isComplete h hq ha

/-- A row without gaps has as many entries as there are symbols, since it lists each symbol, each once. -/
theorem Total.isComplete (h : d.Total) : d.isComplete = true := by
  refine List.all_eq_true.mpr fun row hrow => decide_eq_true ?_
  obtain ⟨q, hq, rfl⟩ := List.getElem_of_mem hrow
  have hsub : d.rows[q].keys ⊆ d.alphabet.toList := by
    intro a ha
    obtain ⟨e, he, rfl⟩ := List.mem_map.mp ha
    exact d.symbol_mem _ hrow e he
  have hsup : d.alphabet.toList ⊆ d.rows[q].keys := by
    intro a ha
    obtain ⟨p, hp⟩ := h q hq a ha
    rw [target?, row, List.getD_eq_getElem?_getD, List.getElem?_eq_getElem hq, Option.getD_some] at hp
    exact Table.get?_isSome_iff.mp (Option.isSome_iff_exists.mpr ⟨p, hp⟩)
  have hlen : d.rows[q].keys.length = d.rows[q].size := List.length_map _
  have hle := List.Nodup.length_le_of_subset d.rows[q].nodup hsub
  have hge := d.alphabet.nodup_toList.length_le_of_subset hsup
  exact Nat.le_antisymm (hlen ▸ hle) (hlen ▸ hge)

theorem Total.exists_run? (h : d.Total) (hq : q < d.count) (hw : ∀ a ∈ w, a ∈ d.alphabet) :
    ∃ p, d.run? q w = some p := by
  induction w generalizing q with
  | nil => exact ⟨q, rfl⟩
  | cons a w ih =>
    obtain ⟨ha, hw⟩ := List.forall_mem_cons.mp hw
    obtain ⟨r, hr⟩ := h q hq a ha
    obtain ⟨p, hp⟩ := ih (target_lt_count hr) hw
    refine ⟨p, ?_⟩
    rw [run?_cons, hr]
    exact hp

/-! ## States as languages -/

/-- A reached state has a counterpart in every total automaton of the same language: the state that the same word
leads to. -/
theorem exists_acceptsFrom_eq (he : e.Total) (halphabet : d.alphabet = e.alphabet)
    (hlanguage : ∀ w, d.acceptsWord w = e.acceptsWord w) (hq : d.Leads d.start q) :
    ∃ r < e.count, ∀ w, e.acceptsFrom r w = d.acceptsFrom q w := by
  obtain ⟨u, hu⟩ := hq
  obtain ⟨r, hr⟩ := he.exists_run? e.start_lt (halphabet ▸ mem_alphabet_of_run? hu)
  refine ⟨r, run?_lt_count e.start_lt hr, fun w => ?_⟩
  calc e.acceptsFrom r w
    _ = e.acceptsWord (u ++ w) := (acceptsFrom_append hr w).symm
    _ = d.acceptsWord (u ++ w) := (hlanguage _).symm
    _ = d.acceptsFrom q w := acceptsFrom_append hu w

/-- No transition is missing, every state is reached, and words tell the states apart. -/
structure Canonical (d : Dfa) : Prop where
  total : d.Total
  reached : ∀ q < d.count, d.Leads d.start q
  reduced : ∀ p < d.count, ∀ q < d.count, (∀ w, d.acceptsFrom p w = d.acceptsFrom q w) → p = q

namespace Canonical

/-- Two canonical automata of one language are isomorphic: each state is renamed into the one that accepts the same
words. -/
theorem exists_isomorphism (hd : d.Canonical) (he : e.Canonical) (halphabet : d.alphabet = e.alphabet)
    (hlanguage : ∀ w, d.acceptsWord w = e.acceptsWord w) : Nonempty (Isomorphism d e) := by
  have hex : ∀ q, ∃ r, q < d.count → r < e.count ∧ ∀ w, e.acceptsFrom r w = d.acceptsFrom q w := by
    intro q
    by_cases hq : q < d.count
    · obtain ⟨r, hr, hwords⟩ := exists_acceptsFrom_eq he.total halphabet hlanguage (hd.reached q hq)
      exact ⟨r, fun _ => ⟨hr, hwords⟩⟩
    · exact ⟨0, fun h => absurd h hq⟩
  choose rename hrename using hex
  have hlt : ∀ q < d.count, rename q < e.count := fun q hq => (hrename q hq).1
  have hwords : ∀ q < d.count, ∀ w, e.acceptsFrom (rename q) w = d.acceptsFrom q w := fun q hq => (hrename q hq).2
  refine ⟨⟨rename, hlt, fun p hp q hq h => ?_, fun r hr => ?_, ?_, fun q hq => ?_, fun q hq a => ?_⟩⟩
  · refine hd.reduced p hp q hq fun w => ?_
    rw [← hwords p hp, ← hwords q hq, h]
  · obtain ⟨q, hq, hqr⟩ :=
      exists_acceptsFrom_eq hd.total halphabet.symm (fun w => (hlanguage w).symm) (he.reached r hr)
    exact ⟨q, hq, he.reduced _ (hlt q hq) r hr fun w => (hwords q hq w).trans (hqr w)⟩
  · refine he.reduced _ (hlt _ d.start_lt) _ e.start_lt fun w => ?_
    exact (hwords _ d.start_lt w).trans (hlanguage w)
  · have := hwords q hq []
    rwa [acceptsFrom_nil, acceptsFrom_nil, decide_eq_decide] at this
  · by_cases ha : a ∈ d.alphabet
    · obtain ⟨p, hp⟩ := hd.total q hq a ha
      obtain ⟨r, hr⟩ := he.total _ (hlt q hq) a (halphabet ▸ ha)
      have hpr : rename p = r := by
        refine he.reduced _ (hlt p (target_lt_count hp)) r (target_lt_count hr) fun w => ?_
        calc e.acceptsFrom (rename p) w
          _ = d.acceptsFrom p w := hwords p (target_lt_count hp) w
          _ = d.acceptsFrom q (a :: w) := by rw [acceptsFrom_cons, hp]; rfl
          _ = e.acceptsFrom (rename q) (a :: w) := (hwords q hq _).symm
          _ = e.acceptsFrom r w := by rw [acceptsFrom_cons, hr]; rfl
      rw [hp, hr, ← hpr]
      rfl
    · -- Neither automaton has a transition on a symbol that is not in the alphabet.
      rw [target?_eq_none_of_notMem ha, target?_eq_none_of_notMem (halphabet ▸ ha)]
      rfl

/-- No total automaton of the language has fewer states: it has a counterpart for each state, and states with one
counterpart accept the same words. -/
theorem count_le (hd : d.Canonical) (he : e.Total) (halphabet : d.alphabet = e.alphabet)
    (hlanguage : ∀ w, d.acceptsWord w = e.acceptsWord w) : d.count ≤ e.count := by
  have hex : ∀ q : Fin d.count, ∃ r : Fin e.count, ∀ w, e.acceptsFrom r w = d.acceptsFrom q w := by
    intro q
    obtain ⟨r, hr, hwords⟩ := exists_acceptsFrom_eq he halphabet hlanguage (hd.reached q q.isLt)
    exact ⟨⟨r, hr⟩, hwords⟩
  choose counterpart hwords using hex
  have hinj : Function.Injective counterpart := by
    intro p q hpq
    refine Fin.ext (hd.reduced p p.isLt q q.isLt fun w => ?_)
    rw [← hwords p, ← hwords q, hpq]
  have := Fintype.card_le_of_injective counterpart hinj
  rwa [Fintype.card_fin, Fintype.card_fin] at this

end Canonical

end Dfa

end FormalLang
