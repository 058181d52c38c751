import FormalLang.Proofs.Nfa.Edits
import FormalLang.Proofs.Nfa.Part
import FormalLang.Regex.Language

/-!
# The automaton of an expression

The construction adds a part whose walks spell the words of the expression. The part begins at a given state and is
otherwise made of new states, so what the automaton held before has no influence on it.

* `Nfa.addRegex_induction`: what holds of each way to add a part holds of the construction.
* `Nfa.exists_addsPart`: what the construction adds, in both ways to join the parts of a concatenation.
* `Nfa.rows_isPrefix_build`: what it leaves as it was.
* `Nfa.spells_build_iff`: an automaton spells the words of the expression that was built last.
* `Nfa.accepts_build_edit`: it accepts them, after whatever edits.
-/

namespace FormalLang

theorem Regex.IsPlain.ne_epsilon {r : Regex} (h : r.IsPlain) : ∀ a ∈ r.literals, a ≠ epsilon := by
  intro a ha
  obtain ⟨_, _, hne⟩ := h a ha
  exact hne

namespace Nfa

variable {n m : Nfa} {p q x : Nat}

/-! ## Transitions after an edit -/

theorem links_link {a : Symbol} (hp : p < n.count) : (n.link p a q).links = n.links ∪ {(p, a, q)} := by
  ext ⟨s, b, r⟩
  rw [mem_links, mem_targets_link hp, Set.mem_union, mem_links, Set.mem_singleton_iff]
  simp only [Prod.mk.injEq]

@[simp] theorem links_addState : n.addState.2.links = n.links := by
  simp only [links, targets_addState]

theorem lt_count_of_mem_links {a : Symbol} (h : (p, a, q) ∈ n.links) : p < n.count := lt_count_of_mem_targets h

/-! ## What the construction adds -/

/-- The automaton `m` is `n` with a part from `p` to `x` on new states, and the walks through the part spell the words of
an expression. -/
structure AddsPart (n m : Nfa) (p x : Nat) (r : Regex) (E : Set (Nat × Symbol × Nat)) (S : Set Nat) : Prop where
  part : Part E S p x
  new : ∀ q ∈ S, n.count ≤ q ∧ q < m.count
  links_eq : m.links = n.links ∪ E
  walk_iff : ∀ w, Walk E p w x ↔ r.Matches w

/-- A part that has no state to begin at begins at one more new state. -/
theorem addRegex_none (r : Regex) (n : Nfa) : addRegex r none n = addRegex r (some n.count) n.addState.2 := by
  induction r generalizing n with
  | literal a => rfl
  | concat l r ihl _ => simp only [addRegex, ihl]
  | alternation l r => rfl
  | star r => rfl

namespace AddsPart

variable {r : Regex} {E : Set (Nat × Symbol × Nat)} {S : Set Nat}

theorem exit_lt (h : AddsPart n m p x r E S) : n.count ≤ x ∧ x < m.count := h.new x h.part.exit_mem

/-- The states of a part are new. -/
theorem notMem_of_lt (h : AddsPart n m p x r E S) (hq : q < n.count) : q ∉ S := fun hS => by
  have := h.new q hS
  omega

/-- A part with a new entry is made of new states, its entry included. -/
theorem new_entry (h : AddsPart n.addState.2 m p x r E S) (hp : p = n.count) :
    ∀ q ∈ {p} ∪ S, n.count ≤ q ∧ q < m.count := by
  have hx := h.exit_lt
  rw [count_addState] at hx
  rintro q (rfl | hq)
  · omega
  · have := h.new q hq
    rw [count_addState] at this
    omega

/-- A transition on a symbol of an expression, to a new state. -/
theorem literal {a : Symbol} (ha : a ≠ epsilon) (hp : p < n.count) :
    AddsPart n (n.addState.2.link p a n.count) p n.count (.literal a) {(p, a, n.count)} {n.count} where
  part := .single (Nat.ne_of_lt hp)
  new := by
    rintro q rfl
    rw [count_link, count_addState]
    omega
  links_eq := by
    rw [links_link (by rw [count_addState]; omega), links_addState]
  walk_iff w := by
    rw [Part.walk_single_iff (Nat.ne_of_lt hp), reading_of_ne ha, Regex.matches_literal_iff]

section Concat

variable {k : Nfa} {y : Nat} {l r : Regex} {E F : Set (Nat × Symbol × Nat)} {S T : Set Nat}

/-- Parts that are added one after the other have no states in common. -/
theorem disjoint (hl : AddsPart n m p x l E S) (hr : AddsPart m k x y r F T) : ∀ q ∈ S, q ∉ T :=
  fun q hq => hr.notMem_of_lt (hl.new q hq).2

/-- A part that begins at the exit of another one. -/
theorem concat (hl : AddsPart n m p x l E S) (hr : AddsPart m k x y r F T) (hp : p < n.count) :
    AddsPart n k p y (.concat l r) (E ∪ F) (S ∪ T) := by
  have hx := hl.exit_lt
  have hy := hr.exit_lt
  have hdisj := hl.disjoint hr
  have hpT : p ∉ T := hr.notMem_of_lt (by omega)
  refine ⟨hl.part.seq hr.part hdisj hpT, ?_, ?_, fun w => ?_⟩
  · rintro q (hq | hq)
    · have := hl.new q hq
      omega
    · have := hr.new q hq
      omega
  · rw [hr.links_eq, hl.links_eq, Set.union_assoc]
  · rw [hl.part.walk_seq_iff hr.part hdisj hpT, Regex.matches_concat_iff]
    simp only [hl.walk_iff, hr.walk_iff]

/-- A silent step to a part with a new entry. -/
theorem lead (hr : AddsPart n.addState.2 m n.count y r F T) (hx : x < n.count) :
    AddsPart n (m.link x epsilon n.count) x y r ({(x, epsilon, n.count)} ∪ F) ({n.count} ∪ T) := by
  have hnew := hr.new_entry rfl
  have hm := hnew n.count (.inl rfl)
  have hxT : x ∉ T := hr.notMem_of_lt (by rw [count_addState]; omega)
  have hxn := Nat.ne_of_lt hx
  refine ⟨hr.part.lead hxn hxT, ?_, ?_, fun w => ?_⟩
  · rw [count_link]
    exact hnew
  · rw [links_link (by omega), hr.links_eq, links_addState, Set.union_assoc, Set.union_comm F]
  · rw [hr.part.walk_lead_iff hxn hxT, hr.walk_iff]

end Concat

section Branches

variable {k : Nfa} {l r : Regex} {u v : Nat} {E F : Set (Nat × Symbol × Nat)} {S T : Set Nat}

/-- Two parts that are added between the same states have only the exit in common. -/
theorem shared (hl : AddsPart n.addState.2.addState.2 m (n.count + 1) u l E S)
    (hr : AddsPart m.addState.2 k m.count v r F T) :
    ∀ q ∈ {n.count + 1} ∪ S ∪ {n.count}, q ∈ {m.count} ∪ T ∪ {n.count} → q = n.count := by
  rintro q (hq | hq) (h | h)
  · have := hl.new_entry (count_addState n).symm q hq
    have := hr.new_entry rfl q h
    omega
  · exact h
  · exact hq
  · exact hq

/-- Two parts with new entries, between a given state and a new one. -/
theorem alternation (hl : AddsPart n.addState.2.addState.2 m (n.count + 1) u l E S)
    (hr : AddsPart m.addState.2 k m.count v r F T) (hp : p < n.count) :
    AddsPart n ((((k.link p epsilon (n.count + 1)).link p epsilon m.count).link u epsilon n.count).link v epsilon n.count)
      p n.count (.alternation l r) (Part.enclosed E p (n.count + 1) u n.count ∪ Part.enclosed F p m.count v n.count)
      (({n.count + 1} ∪ S ∪ {n.count}) ∪ ({m.count} ∪ T ∪ {n.count})) := by
  have hS := hl.new_entry (count_addState n).symm
  rw [count_addState] at hS
  have hT := hr.new_entry rfl
  have hu := hS u (.inr hl.part.exit_mem)
  have hv := hT v (.inr hr.part.exit_mem)
  have hpS : p ∉ S := hl.notMem_of_lt (by simp only [count_addState]; omega)
  have hxS : n.count ∉ S := hl.notMem_of_lt (by simp only [count_addState]; omega)
  have hpT : p ∉ T := hr.notMem_of_lt (by rw [count_addState]; omega)
  have hxT : n.count ∉ T := hr.notMem_of_lt (by rw [count_addState]; omega)
  have hpu : p ≠ n.count + 1 := by omega
  have hpv : p ≠ m.count := by omega
  have hpx : p ≠ n.count := by omega
  have hux : n.count + 1 ≠ n.count := by omega
  have hvx : m.count ≠ n.count := by omega
  have hupper := hl.part.enclose hpu hpS hpx hux hxS
  have hlower := hr.part.enclose hpv hpT hpx hvx hxT
  have hshared := hl.shared hr
  refine ⟨hupper.par hlower, ?_, ?_, fun w => ?_⟩
  · simp only [count_link]
    rintro q ((hq | rfl) | (hq | rfl))
    · have := hS q hq
      omega
    · omega
    · have := hT q hq
      omega
    · omega
  · rw [links_link (by simp only [count_link]; omega), links_link (by simp only [count_link]; omega),
      links_link (by simp only [count_link]; omega), links_link (by omega), hr.links_eq, links_addState,
      hl.links_eq, links_addState, links_addState]
    ext e
    simp only [Part.enclosed, Set.mem_union]
    grind
  · rw [hupper.walk_par_iff hlower hshared, hl.part.walk_enclose_iff hpu hpS hpx hux hxS,
      hr.part.walk_enclose_iff hpv hpT hpx hvx hxT, hl.walk_iff, hr.walk_iff, Regex.matches_alternation_iff]

/-- A part with a new entry, made into a loop between a given state and a new one. -/
theorem star (hr : AddsPart n.addState.2.addState.2 m (n.count + 1) u r E S) (hp : p < n.count) :
    AddsPart n ((((m.link p epsilon n.count).link p epsilon (n.count + 1)).link u epsilon (n.count + 1)).link u
      epsilon n.count) p n.count (.star r) (Part.looped E p (n.count + 1) u n.count) ({n.count, n.count + 1} ∪ S) := by
  have hS := hr.new_entry (count_addState n).symm
  rw [count_addState] at hS
  have hu := hS u (.inr hr.part.exit_mem)
  have hpS : p ∉ S := hr.notMem_of_lt (by simp only [count_addState]; omega)
  have hxS : n.count ∉ S := hr.notMem_of_lt (by simp only [count_addState]; omega)
  have hpx : p ≠ n.count := by omega
  have hpg : p ≠ n.count + 1 := by omega
  have hxg : n.count ≠ n.count + 1 := by omega
  refine ⟨hr.part.loop hpS hxS hpx hpg hxg, ?_, ?_, fun w => ?_⟩
  · simp only [count_link]
    rintro q ((rfl | hq) | hq)
    · omega
    · have := hS q (.inl hq)
      omega
    · have := hS q (.inr hq)
      omega
  · rw [links_link (by simp only [count_link]; omega), links_link (by simp only [count_link]; omega),
      links_link (by simp only [count_link]; omega), links_link (by omega), hr.links_eq, links_addState,
      links_addState, Part.looped]
    ext e
    simp only [Set.mem_union, Set.mem_insert_iff, Set.mem_singleton_iff, or_assoc]
  · rw [hr.part.walk_loop_iff hpS hxS hpx hpg hxg, Regex.matches_star_iff]
    simp only [hr.walk_iff]

end Branches

end AddsPart

/-- What holds of each way to add a part to an automaton holds of the construction from a state that the automaton has. The parts
of a concatenation are joined in one of two ways, and `b` tells in which. -/
theorem addRegex_induction {motive : Nfa → Nfa → Nat → Nat → Regex → Prop} {P : Symbol → Prop} (b : Bool)
    (exit_lt : ∀ {n m p x r}, motive n m p x r → n.count ≤ x ∧ x < m.count)
    (literal : ∀ {n p a}, P a → p < n.count → motive n (n.addState.2.link p a n.count) p n.count (.literal a))
    (glue : b = false → ∀ {n m k p x y l r}, p < n.count → motive n m p x l → motive m k x y r →
      motive n k p y (.concat l r))
    (join : b = true → ∀ {n m k p x y l r}, p < n.count → motive n m p x l → motive m.addState.2 k m.count y r →
      motive n (k.link x epsilon m.count) p y (.concat l r))
    (alternation : ∀ {n m k p u v l r}, p < n.count → motive n.addState.2.addState.2 m (n.count + 1) u l →
      motive m.addState.2 k m.count v r →
      motive n ((((k.link p epsilon (n.count + 1)).link p epsilon m.count).link u epsilon n.count).link v epsilon n.count)
        p n.count (.alternation l r))
    (star : ∀ {n m p u r}, p < n.count → motive n.addState.2.addState.2 m (n.count + 1) u r →
      motive n ((((m.link p epsilon n.count).link p epsilon (n.count + 1)).link u epsilon (n.count + 1)).link u epsilon n.count)
        p n.count (.star r))
    {r : Regex} (hr : ∀ a ∈ r.literals, P a) (hb : n.flags.silentConcat = b) (hp : p < n.count) :
    (addRegex r (some p) n).1.entry = p ∧ motive n (addRegex r (some p) n).2 p (addRegex r (some p) n).1.exit r := by
  induction r generalizing n p with
  | literal a =>
    exact ⟨rfl, literal (hr a (List.mem_singleton.mpr rfl)) hp⟩
  | concat l r ihl ihr =>
    obtain ⟨hl, hr⟩ := List.forall_mem_append.mp hr
    obtain ⟨hentry, hM⟩ := ihl hl hb hp
    have hx := (exit_lt hM).2
    have hflags : (addRegex l (some p) n).2.flags.silentConcat = b := by rw [flags_addRegex, hb]
    rw [addRegex]
    dsimp only
    split
    · next hsilent =>
      rw [addRegex_none]
      obtain ⟨hg, hK⟩ := ihr (n := (addRegex l (some p) n).2.addState.2) (p := (addRegex l (some p) n).2.count) hr hflags
        (by rw [count_addState]; omega)
      rw [hg]
      exact ⟨hentry, join (hflags ▸ hsilent) hp hM hK⟩
    · next hsilent =>
      obtain ⟨-, hK⟩ := ihr hr hflags hx
      exact ⟨hentry, glue (by simpa [hflags] using hsilent) hp hM hK⟩
  | alternation l r ihl ihr =>
    obtain ⟨hl, hr⟩ := List.forall_mem_append.mp hr
    rw [addRegex]
    dsimp only [addFragment]
    rw [addRegex_none l, addRegex_none r]
    obtain ⟨hu, hM⟩ := ihl (n := n.addState.2.addState.2) (p := n.count + 1) hl hb (by simp only [count_addState]; omega)
    have hflags : (addRegex l (some (n.count + 1)) n.addState.2.addState.2).2.flags.silentConcat = b := by
      rw [flags_addRegex]
      exact hb
    obtain ⟨hv, hK⟩ := ihr (n := (addRegex l (some (n.count + 1)) n.addState.2.addState.2).2.addState.2)
      (p := (addRegex l (some (n.count + 1)) n.addState.2.addState.2).2.count) hr hflags (by rw [count_addState]; omega)
    refine ⟨rfl, ?_⟩
    rw [count_addState, hu, hv]
    exact alternation hp hM hK
  | star r ih =>
    rw [addRegex]
    dsimp only [addFragment]
    rw [addRegex_none r]
    obtain ⟨hg, hM⟩ := ih (n := n.addState.2.addState.2) (p := n.count + 1) hr hb (by simp only [count_addState]; omega)
    rw [count_addState, hg]
    exact ⟨rfl, star hp hM⟩

/-- The construction from a state of the automaton adds a part with that entry. -/
theorem exists_addsPart {r : Regex} (hr : ∀ a ∈ r.literals, a ≠ epsilon) (hp : p < n.count) :
    (addRegex r (some p) n).1.entry = p ∧
      ∃ E S, AddsPart n (addRegex r (some p) n).2 p (addRegex r (some p) n).1.exit r E S := by
  refine addRegex_induction (motive := fun n m p x r => ∃ E S, AddsPart n m p x r E S) n.flags.silentConcat
    ?_ ?_ ?_ ?_ ?_ ?_ hr rfl hp
  · rintro n m p x r ⟨E, S, h⟩
    exact h.exit_lt
  · intro n p a ha hp
    exact ⟨_, _, .literal ha hp⟩
  · rintro - n m k p x y l r hp ⟨E, S, hl⟩ ⟨F, T, hr⟩
    exact ⟨_, _, hl.concat hr hp⟩
  · rintro - n m k p x y l r hp ⟨E, S, hl⟩ ⟨F, T, hr⟩
    exact ⟨_, _, hl.concat (hr.lead hl.exit_lt.2) hp⟩
  · rintro n m k p u v l r hp ⟨E, S, hl⟩ ⟨F, T, hr⟩
    exact ⟨_, _, hl.alternation hr hp⟩
  · rintro n m p u r hp ⟨E, S, h⟩
    exact ⟨_, _, h.star hp⟩

/-! ## What was there before -/

theorem getElem?_rows_link {a : Symbol} {i : Nat} (h : i ≠ p) : (n.link p a q).rows[i]? = n.rows[i]? := by
  simp [link, h.symm]

theorem getElem?_rows_addState {i : Nat} (h : i < n.count) : n.addState.2.rows[i]? = n.rows[i]? :=
  List.getElem?_append_left h

/-- The construction changes no row but that of the state where it begins. -/
theorem getElem?_rows_addRegex (r : Regex) (hp : p < n.count) {i : Nat} (hi : i < n.count) (hip : i ≠ p) :
    (addRegex r (some p) n).2.rows[i]? = n.rows[i]? := by
  refine (addRegex_induction (P := fun _ => True) (r := r)
    (motive := fun n m p x _ => (n.count ≤ x ∧ x < m.count) ∧ ∀ i < n.count, i ≠ p → m.rows[i]? = n.rows[i]?)
    n.flags.silentConcat ?_ ?_ ?_ ?_ ?_ ?_ (fun _ _ => trivial) rfl hp).2.2 i hi hip
  · exact fun h => h.1
  · intro n p a _ hp
    refine ⟨by simp, fun i hi hip => ?_⟩
    rw [getElem?_rows_link hip, getElem?_rows_addState hi]
  · rintro - n m k p x y l r hp ⟨hx, hl⟩ ⟨hy, hr⟩
    refine ⟨by omega, fun i hi hip => ?_⟩
    rw [hr i (by omega) (by omega), hl i hi hip]
  · rintro - n m k p x y l r hp ⟨hx, hl⟩ ⟨hy, hr⟩
    simp only [count_addState] at hy hr
    refine ⟨by rw [count_link]; omega, fun i hi hip => ?_⟩
    rw [getElem?_rows_link (by omega), hr i (by omega) (by omega), getElem?_rows_addState (by omega), hl i hi hip]
  · rintro n m k p u v l r hp ⟨hu, hl⟩ ⟨hv, hr⟩
    simp only [count_addState] at hu hl hv hr
    refine ⟨by simp only [count_link]; omega, fun i hi hip => ?_⟩
    rw [getElem?_rows_link (by omega), getElem?_rows_link (by omega), getElem?_rows_link hip, getElem?_rows_link hip,
      hr i (by omega) (by omega), getElem?_rows_addState (by omega), hl i (by omega) (by omega),
      getElem?_rows_addState (by rw [count_addState]; omega), getElem?_rows_addState hi]
  · rintro n m p u r hp ⟨hu, hr⟩
    simp only [count_addState] at hu hr
    refine ⟨by simp only [count_link]; omega, fun i hi hip => ?_⟩
    rw [getElem?_rows_link (by omega), getElem?_rows_link (by omega), getElem?_rows_link hip, getElem?_rows_link hip,
      hr i (by omega) (by omega), getElem?_rows_addState (by rw [count_addState]; omega), getElem?_rows_addState hi]

/-- An expression is built beside what was there before: the rows of the older states stay as they are. -/
theorem rows_isPrefix_build (n : Nfa) (r : Regex) : n.rows <+: (n.build r).rows := by
  rw [List.prefix_iff_getElem?]
  intro i hi
  have hbuild : (n.build r).rows = (addRegex r (some n.count) n.addState.2).2.rows := by
    rw [← addRegex_none]
    rfl
  have hi : i < n.count := hi
  rw [hbuild, getElem?_rows_addRegex r (by rw [count_addState]; omega) (by rw [count_addState]; omega) (by omega),
    getElem?_rows_addState hi, List.getElem?_eq_getElem]

/-! ## The language of the construction -/

theorem start_build_lt {r : Regex} (hr : ∀ a ∈ r.literals, a ≠ epsilon) (n : Nfa) :
    (n.build r).start < (n.build r).count := by
  have hp : n.count < n.addState.2.count := by rw [count_addState]; omega
  obtain ⟨hentry, E, S, hE⟩ := exists_addsPart hr hp
  have hx := hE.exit_lt
  show (addRegex r none n).1.entry < (addRegex r none n).2.count
  rw [addRegex_none, hentry]
  omega

/-- The automaton of an expression spells the words of the expression, whatever it held before: its start is a new state,
and no transition leads from the part of the expression to an older state. -/
theorem spells_build_iff {r : Regex} (hr : ∀ a ∈ r.literals, a ≠ epsilon) (n : Nfa) {w : List Symbol} :
    (n.build r).Spells w ↔ r.Matches w := by
  have hp : n.count < n.addState.2.count := by rw [count_addState]; omega
  obtain ⟨hentry, E, S, hE⟩ := exists_addsPart hr hp
  have hstart : (n.build r).start = n.count := by
    show (addRegex r none n).1.entry = n.count
    rw [addRegex_none, hentry]
  have hlinks : (n.build r).links = n.links ∪ E := by
    show (addRegex r none n).2.links = n.links ∪ E
    rw [addRegex_none, hE.links_eq, links_addState]
  have haccept : (n.build r).accept = OrderedSet.singleton (addRegex r (some n.count) n.addState.2).1.exit := by
    rw [← addRegex_none]
    rfl
  have hregion : ∀ q a s, (q, a, s) ∈ n.links ∪ E → q ∈ {n.count} ∪ S → (q, a, s) ∈ E ∧ s ∈ {n.count} ∪ S := by
    rintro q a s (h | h) hq
    · have := lt_count_of_mem_links h
      have := (hE.new_entry rfl q hq).1
      omega
    · exact ⟨h, .inr (hE.part.target h)⟩
  rw [← hE.walk_iff, Spells, hstart, haccept]
  constructor
  · rintro ⟨q, hq, h⟩
    rw [OrderedSet.mem_singleton] at hq
    subst hq
    rw [path_iff_walk, hlinks] at h
    exact h.of_region hregion (.inl rfl)
  · intro h
    refine ⟨_, OrderedSet.mem_singleton.mpr rfl, ?_⟩
    rw [path_iff_walk, hlinks]
    exact h.mono Set.subset_union_right

/-- After any edits, and however the parts of a concatenation are joined, an automaton in which an expression is built
accepts exactly the words of the expression, of the texts without ε. Neither the edits nor the way to join has an
influence on the answer. -/
theorem accepts_build_edit (flags : BuildFlags) (edits : List NfaEdit) {r : Regex} (hr : r.IsPlain) {text : String}
    (ht : 'ε' ∉ text.toList) :
    ∃ b, ((edit { flags } edits).build r).accepts text = .ok b ∧ (b = true ↔ r.Matches (symbols text)) ∧
      ∀ flags' edits', ((edit { flags := flags' } edits').build r).accepts text = .ok b := by
  have hlit := hr.ne_epsilon
  have hw := epsilon_notMem_symbols ht
  obtain ⟨b, hb, hiff⟩ := acceptsWord_iff_spells (start_build_lt hlit (edit { flags } edits)) hw
  rw [spells_build_iff hlit] at hiff
  refine ⟨b, hb, hiff, fun flags' edits' => ?_⟩
  obtain ⟨b', hb', hiff'⟩ := acceptsWord_iff_spells (start_build_lt hlit (edit { flags := flags' } edits')) hw
  rw [spells_build_iff hlit, ← hiff] at hiff'
  rw [accepts, hb', Bool.eq_iff_iff.mpr hiff']

/-- Two stars in a row, which share a state, beside a loop that stood there before. -/
theorem accepts_build_edit_stars :
    (Regex.concat (.star (.literal "a")) (.star (.literal "b"))).IsPlain ∧ 'ε' ∉ "aab".toList ∧
      ((edit {} [.addState, .addTransition 0 "a" 0]).build
        (.concat (.star (.literal "a")) (.star (.literal "b")))).accepts "aab" = .ok true := by
  have hplain : (Regex.concat (.star (.literal "a")) (.star (.literal "b"))).IsPlain := by
    intro a ha
    rcases List.mem_cons.mp ha with rfl | ha
    · exact ⟨'a', rfl, by decide⟩
    · rw [List.mem_singleton.mp ha]
      exact ⟨'b', rfl, by decide⟩
  have htext : 'ε' ∉ "aab".toList := by decide
  obtain ⟨b, hb, hiff, -⟩ := accepts_build_edit {} [.addState, .addTransition 0 "a" 0] hplain htext
  have hmatch : Regex.Matches (.concat (.star (.literal "a")) (.star (.literal "b"))) (["a", "a"] ++ ["b"]) :=
    .concat (.more (u := ["a"]) (v := ["a"]) (.literal "a") (.more (u := ["a"]) (v := []) (.literal "a") .none))
      (.more (u := ["b"]) (v := []) (.literal "b") .none)
  rw [hiff.mpr hmatch] at hb
  exact ⟨hplain, htext, hb⟩

end Nfa

end FormalLang
