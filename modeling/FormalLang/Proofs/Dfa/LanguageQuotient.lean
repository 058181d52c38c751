import FormalLang.Proofs.Dfa.Canonical
import FormalLang.Proofs.Dfa.Distinguishing
import FormalLang.Proofs.Dfa.StrictMinimize
import FormalLang.Proofs.UnionFind.History

/-!
# The quotient by language

The states of the minimized automaton are the languages of the states of the given one, in the order of the lowest states
that have them. A state that has no transition on a symbol may have the language of one that has, if nothing is accepted
after the transition. So a class goes where some member goes, and any two members that go somewhere go to states of one
language. This determines the automaton, whatever roots tell the classes.

* `Dfa.languageFrom`: the language of a state.
* `Dfa.IsQuotient`: the automaton on the classes of states of one language.
* `Dfa.IsQuotient.unique`: an automaton has one quotient only.
* `Dfa.isQuotient_classes`: the tables on the classes are those of the quotient.
* `Dfa.minimize_isQuotient`: minimization gives the quotient, from every forest that tells the classes.
-/

namespace FormalLang

namespace Dfa

variable {d e m m' : Dfa} {p q i j : Nat} {a : Symbol} {c : OrderedSet Nat} {classes classes' : List (OrderedSet Nat)}

/-! ## Languages of states -/

/-- The language of a state: the words of symbols of the automaton that are accepted from it. -/
def languageFrom (d : Dfa) (q : Nat) : Set (List Symbol) := {w | (∀ a ∈ w, a ∈ d.alphabet) ∧ d.acceptsFrom q w = true}

theorem mem_languageFrom {w : List Symbol} : w ∈ d.languageFrom q ↔ d.acceptsFrom q w = true :=
  ⟨And.right, fun h => ⟨mem_alphabet_of_acceptsFrom h, h⟩⟩

theorem languageFrom_eq_iff : d.languageFrom p = e.languageFrom q ↔ ∀ w, d.acceptsFrom p w = e.acceptsFrom q w := by
  refine Set.ext_iff.trans (forall_congr' fun w => ?_)
  rw [mem_languageFrom, mem_languageFrom]
  exact Bool.eq_iff_iff.symm

/-! ## The quotient -/

/-- The automaton on the classes of states of one language, the classes in the order of their lowest members. A class has a
transition if some member has, and then it leads to the class to which those of its members lead. -/
structure IsQuotient (d : Dfa) (classes : List (OrderedSet Nat)) (m : Dfa) : Prop where
  /-- The classes are those of the states of one language. -/
  mem_classes_iff : ∀ c, c ∈ classes ↔ ∃ p < d.count, ∀ q, q ∈ c ↔ q < d.count ∧ d.languageFrom q = d.languageFrom p
  /-- Each class has a lower lowest member than those after it. -/
  ascending : classes.Pairwise fun c c' => ∃ p p', IsLeast {q | q ∈ c} p ∧ IsLeast {q | q ∈ c'} p' ∧ p < p'
  count_eq : m.count = classes.length
  alphabet_eq : m.alphabet = d.alphabet
  start_mem : d.start ∈ classes.getD m.start ∅
  accept_iff : ∀ i, ∀ q ∈ classes.getD i ∅, i ∈ m.accept ↔ q ∈ d.accept
  target_iff : ∀ i a, (∃ j, m.target? i a = some j) ↔ ∃ q ∈ classes.getD i ∅, ∃ r, d.target? q a = some r
  target_mem : ∀ i a j, m.target? i a = some j →
    ∀ q ∈ classes.getD i ∅, ∀ r, d.target? q a = some r → r ∈ classes.getD j ∅

namespace IsQuotient

section

variable (h : d.IsQuotient classes m)
include h

/-- A class holds all states that have the language of one of its members. -/
theorem mem_iff (hc : c ∈ classes) (hp : p ∈ c) : q ∈ c ↔ q < d.count ∧ d.languageFrom q = d.languageFrom p := by
  obtain ⟨s, -, hs⟩ := (h.mem_classes_iff c).mp hc
  rw [hs, ((hs p).mp hp).2]

theorem exists_mem (hi : i < classes.length) : ∃ q, q ∈ classes.getD i ∅ := by
  obtain ⟨p, hp, hc⟩ := (h.mem_classes_iff _).mp (getD_mem hi)
  exact ⟨p, (hc p).mpr ⟨hp, rfl⟩⟩

theorem nodup : classes.Nodup := by
  refine h.ascending.imp ?_
  rintro c _ ⟨p, p', hp, hp', hlt⟩ rfl
  exact Nat.ne_of_lt hlt (hp.unique hp')

/-- A state is a member of one class only. -/
theorem eq_of_mem (hi : q ∈ classes.getD i ∅) (hj : q ∈ classes.getD j ∅) : i = j := by
  have hlt := lt_length_of_mem_class hi
  have hlt' := lt_length_of_mem_class hj
  rw [List.getD_eq_getElem _ ∅ hlt] at hi
  rw [List.getD_eq_getElem _ ∅ hlt'] at hj
  have heq : classes[i] = classes[j] := OrderedSet.ext fun p => by
    rw [h.mem_iff (List.getElem_mem hlt) hi, h.mem_iff (List.getElem_mem hlt') hj]
  exact h.nodup.getElem_inj_iff.mp heq

/-- The transitions of a class are those of its members. -/
theorem target?_eq_some_iff : m.target? i a = some j ↔
    ∃ p ∈ classes.getD i ∅, ∃ r ∈ classes.getD j ∅, d.target? p a = some r := by
  constructor
  · intro hj
    obtain ⟨p, hp, r, hr⟩ := (h.target_iff i a).mp ⟨j, hj⟩
    exact ⟨p, hp, r, h.target_mem i a j hj p hp r hr, hr⟩
  · rintro ⟨p, hp, r, hrj, hr⟩
    obtain ⟨k, hk⟩ := (h.target_iff i a).mpr ⟨p, hp, r, hr⟩
    rw [hk, h.eq_of_mem hrj (h.target_mem i a k hk p hp r hr)]

end

/-- The classes are determined by the languages of the states, and their order by their lowest members. -/
theorem classes_unique (h : d.IsQuotient classes m) (h' : d.IsQuotient classes' m') : classes = classes' := by
  refine List.Perm.eq_of_pairwise (fun c c' _ _ hlt hlt' => ?_) h.ascending h'.ascending
    ((List.perm_ext_iff_of_nodup h.nodup h'.nodup).mpr fun c => ?_)
  · obtain ⟨p, p', hp, hp', hlt⟩ := hlt
    obtain ⟨q', q, hq', hq, hlt'⟩ := hlt'
    rw [hp.unique hq, hp'.unique hq'] at hlt
    exact absurd hlt (Nat.lt_asymm hlt')
  · rw [h.mem_classes_iff, h'.mem_classes_iff]

/-- An automaton has one quotient only. -/
theorem unique (h : d.IsQuotient classes m) (h' : d.IsQuotient classes' m') : classes = classes' ∧ m.SameTables m' := by
  obtain rfl := h.classes_unique h'
  refine ⟨rfl, h.count_eq.trans h'.count_eq.symm, h.eq_of_mem h.start_mem h'.start_mem, OrderedSet.ext fun i => ?_,
    h.alphabet_eq.trans h'.alphabet_eq.symm, fun i a => Option.ext fun j => ?_⟩
  · by_cases hi : i < classes.length
    · obtain ⟨q, hq⟩ := h.exists_mem hi
      rw [h.accept_iff i q hq, h'.accept_iff i q hq]
    · exact iff_of_false (fun ha => hi (h.count_eq ▸ m.accept_lt i ha)) fun ha => hi (h'.count_eq ▸ m'.accept_lt i ha)
  · rw [h.target?_eq_some_iff, h'.target?_eq_some_iff]

end IsQuotient

/-! ## The tables on the classes -/

theorem mem_class_classOf_iff (hp : p < d.count) :
    q ∈ d.classes.getD (classOf d.classes p) ∅ ↔ q < d.count ∧ d.languageFrom q = d.languageFrom p := by
  constructor
  · intro h
    have hq := lt_count_of_mem_class (getD_mem (classOf_lt hp)) h
    exact ⟨hq, languageFrom_eq_iff.mpr ((classOf_eq_iff hq hp).mp ((mem_class_iff hq).mp h).symm)⟩
  · rintro ⟨hq, h⟩
    exact (mem_class_iff hq).mpr ((classOf_eq_iff hp hq).mpr (languageFrom_eq_iff.mp h.symm))

theorem mem_classes_iff :
    c ∈ d.classes ↔ ∃ p < d.count, ∀ q, q ∈ c ↔ q < d.count ∧ d.languageFrom q = d.languageFrom p := by
  constructor
  · intro hc
    obtain ⟨i, hi, rfl⟩ := List.getElem_of_mem hc
    obtain ⟨p, hp, rfl⟩ := exists_classOf_eq hi
    rw [← List.getD_eq_getElem _ ∅ hi]
    exact ⟨p, hp, fun q => mem_class_classOf_iff hp⟩
  · rintro ⟨p, hp, hc⟩
    have heq : c = d.classes.getD (classOf d.classes p) ∅ := OrderedSet.ext fun q =>
      (hc q).trans (mem_class_classOf_iff hp).symm
    exact heq ▸ getD_mem (classOf_lt hp)

theorem pairwise_classes (d : Dfa) :
    d.classes.Pairwise fun c c' => ∃ p p', IsLeast {q | q ∈ c} p ∧ IsLeast {q | q ∈ c'} p' ∧ p < p' := by
  refine List.pairwise_iff_getElem.mpr fun i j hi hj hij => ?_
  have hlength := length_lowestMembers d
  exact ⟨_, _, isLeast_lowestMembers (hlength ▸ hi) hi, isLeast_lowestMembers (hlength ▸ hj) hj,
    List.pairwise_iff_getElem.mp (pairwise_lowestMembers d) i j _ _ hij⟩

/-- The tables on the classes are those of the quotient. -/
theorem isQuotient_classes (hm : (d.quotientTables d.classes).Represents m) : d.IsQuotient d.classes m where
  mem_classes_iff _ := mem_classes_iff
  ascending := pairwise_classes d
  count_eq := count_quotient hm
  alphabet_eq := alphabet_quotient hm
  start_mem := (mem_class_iff d.start_lt).mpr (start_quotient hm)
  accept_iff i q hq := by
    have hlt := lt_count_of_mem_class (getD_mem (lt_length_of_mem_class hq)) hq
    have := acceptsFrom_classOf hm hlt []
    rwa [acceptsFrom_nil, acceptsFrom_nil, decide_eq_decide, ← (mem_class_iff hlt).mp hq] at this
  target_iff i a := by
    constructor
    · rintro ⟨j, hj⟩
      have hi : i < d.classes.length := count_quotient hm ▸ source_lt_count hj
      rw [hm.target_eq] at hj
      obtain ⟨v, hv, -⟩ := Option.map_eq_some_iff.mp hj
      obtain ⟨p, hp, r, hr, -⟩ := exists_of_get?_row_eq_some hi hv
      exact ⟨p, hp, r, hr⟩
    · rintro ⟨q, hq, r, hr⟩
      have hlt := lt_count_of_mem_class (getD_mem (lt_length_of_mem_class hq)) hq
      rw [(mem_class_iff hlt).mp hq, target?_classOf hm hlt hr]
      exact ⟨_, rfl⟩
  target_mem i a j hj q hq r hr := by
    have hlt := lt_count_of_mem_class (getD_mem (lt_length_of_mem_class hq)) hq
    rw [(mem_class_iff hlt).mp hq, target?_classOf hm hlt hr] at hj
    exact (mem_class_iff (target_lt_count hr)).mpr (Option.some.inj hj).symm

/-- Roots tell the classes if they tell which states have one language. -/
theorem isRooting_of_languageFrom {root : Nat → Nat}
    (h : ∀ p < d.count, ∀ q < d.count, root p = root q ↔ d.languageFrom p = d.languageFrom q) : d.IsRooting root := by
  intro p hp q hq
  rw [h p hp q hq, languageFrom_eq_iff, connected_iff hp hq]

/-- Minimization succeeds and gives the quotient by language, of which there is only one. From every forest in which merges
have connected the states of one language, and no others, the same tables and the same classes are found. -/
theorem minimize_isQuotient (d : Dfa) (flags : BuildFlags) :
    ∃ m classes, d.minimize flags = .ok m ∧ d.parts.minimize flags = .ok (.ok m) ∧ m.sources = some classes ∧
      d.IsQuotient classes m ∧
      (∀ classes' m', d.IsQuotient classes' m' → classes' = classes ∧ m'.SameTables m) ∧
      ∀ ops : List (UnionFind.Operation Nat),
        (∀ p < d.count, ∀ q < d.count,
          UnionFind.Connected (UnionFind.merged ops) p q ↔ d.languageFrom p = d.languageFrom q) →
        ∃ tables u, (d.parts.quotient d.transitions).run (UnionFind.run ops) = .ok ((tables, classes), u) ∧
          ofTables tables flags (some classes) = .ok m := by
  obtain ⟨m, hm, hrep, hsources⟩ := exists_minimize d flags
  have hquotient := isQuotient_classes hrep
  refine ⟨m, d.classes, hm, (minimize_parts d flags).trans (congrArg _ hm), hsources, hquotient,
    fun classes' m' h => h.unique hquotient, fun ops hops => ?_⟩
  have hforest := (UnionFind.describes_run ops).partitions
  have hrooting : d.IsRooting (UnionFind.run ops).root := isRooting_of_languageFrom fun p hp q hq =>
    (hforest.root_eq_iff p q).trans (hops p hp q hq)
  obtain ⟨u, hu, -⟩ := answers_quotient hrooting (UnionFind.run ops) ⟨hforest.inv, fun _ => rfl⟩
  exact ⟨_, u, hu, hm⟩

/-- A class of three accepting states, of which one has a transition to a state that accepts nothing. Merging its states in
another order makes another one the root. -/
theorem minimize_isQuotient_otherRoot :
    ∃ d m, ofTables ⟨5, 0, [1, 2, 4], [.ofList [("a", 1), ("b", 2)], ∅, .ofList [("a", 3)], ∅, ∅], none⟩ = .ok d ∧
      d.minimize = .ok m ∧ m.sources = some [.singleton 0, .ofList [1, 2, 4], .singleton 3] ∧
      d.forest.root 1 = 1 ∧ (UnionFind.run [.union 4 2, .union 2 1]).root 1 = 4 ∧
      ∃ tables u, (d.parts.quotient d.transitions).run (UnionFind.run [.union 4 2, .union 2 1]) =
          .ok ((tables, [.singleton 0, .ofList [1, 2, 4], .singleton 3]), u) ∧
        ofTables tables d.flags (some [.singleton 0, .ofList [1, 2, 4], .singleton 3]) = .ok m := by
  obtain ⟨d, hd⟩ : ∃ d, ofTables
      ⟨5, 0, [1, 2, 4], [.ofList [("a", 1), ("b", 2)], ∅, .ofList [("a", 3)], ∅, ∅], none⟩ = .ok d := ⟨_, rfl⟩
  obtain ⟨m, classes, hm, -, hsources, -, -, hforests⟩ := minimize_isQuotient d d.flags
  have hclasses : classes = [.singleton 0, .ofList [1, 2, 4], .singleton 3] := by
    obtain rfl := Except.ok.inj hd
    obtain rfl := Except.ok.inj hm
    exact (Option.some.inj hsources).symm
  have hroot : d.forest.root 1 = 1 := by
    obtain rfl := Except.ok.inj hd
    decide
  have hroots : ∀ p < d.count, ∀ q < d.count, (UnionFind.run [.union 4 2, .union 2 1]).root p =
      (UnionFind.run [.union 4 2, .union 2 1]).root q ↔ classOf d.classes p = classOf d.classes q := by
    obtain rfl := Except.ok.inj hd
    decide
  subst hclasses
  refine ⟨d, m, hd, hm, hsources, hroot, by decide, hforests [.union 4 2, .union 2 1] fun p hp q hq => ?_⟩
  rw [← (UnionFind.describes_run _).partitions.root_eq_iff, hroots p hp q hq, classOf_eq_iff hp hq, languageFrom_eq_iff]

end Dfa

end FormalLang
