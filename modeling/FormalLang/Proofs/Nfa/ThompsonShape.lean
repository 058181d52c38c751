import FormalLang.Proofs.Nfa.Slender
import FormalLang.Proofs.Nfa.Thompson
import Mathlib.Data.Finset.Card

/-!
# The shape of the automaton of an expression

Each literal, alternation and star of an expression adds two states, and the parts of a concatenation either share one
or are joined by one more silent step. What is added is a slender part, whatever the parts are nested in: where two parts
share a state, the one ends there and the other begins.

* `Nfa.AddsSlender`: a part that takes up all new states and is slender, with one lemma for each way to put parts together.
* `Nfa.Sized`: the numbers of states and transitions that are added, in the same cases.
* `Nfa.HasShape`: the shape of an automaton that is a slender part from its start to its accepting state.
* `Nfa.ofRegex_shape`: the size and the shape of the automaton of an expression.
-/

namespace FormalLang

namespace Nfa

variable {n m : Nfa} {p q x : Nat}

/-! ## Slender parts -/

/-- What is added to an automaton is a slender part with so many transitions, and there are no other new states. -/
structure AddsSlender (n m : Nfa) (p x : Nat) (r : Regex) (E : Set (Nat × Symbol × Nat)) (S : Set Nat) (k : Nat) : Prop
    extends AddsPart n m p x r E S, Slender E S p x k where
  covers : ∀ q, n.count ≤ q → q < m.count → q ∈ S

namespace AddsSlender

variable {k : Nfa} {y u v d e : Nat} {l r : Regex} {E F : Set (Nat × Symbol × Nat)} {S T : Set Nat}

theorem literal {a : Symbol} (ha : a ≠ epsilon) (hp : p < n.count) :
    AddsSlender n (n.addState.2.link p a n.count) p n.count (.literal a) {(p, a, n.count)} {n.count} 1 where
  toAddsPart := .literal ha hp
  toSlender := .single (Nat.ne_of_lt hp)
  covers q hn hq := by
    rw [count_link, count_addState] at hq
    show q = n.count
    omega

theorem concat (hl : AddsSlender n m p x l E S d) (hr : AddsSlender m k x y r F T e) (hp : p < n.count) :
    AddsSlender n k p y (.concat l r) (E ∪ F) (S ∪ T) (d + e) where
  toAddsPart := hl.toAddsPart.concat hr.toAddsPart hp
  toSlender := by
    have hx := hl.exit_lt
    exact hl.toSlender.seq hr.toSlender (hl.disjoint hr.toAddsPart) (hr.notMem_of_lt (by omega))
  covers q hn hq := by
    by_cases hm : q < m.count
    · exact .inl (hl.covers q hn hm)
    · exact .inr (hr.covers q (by omega) hq)

theorem lead (hr : AddsSlender n.addState.2 m n.count y r F T e) (hx : x < n.count) :
    AddsSlender n (m.link x epsilon n.count) x y r ({(x, epsilon, n.count)} ∪ F) ({n.count} ∪ T) (1 + e) where
  toAddsPart := hr.toAddsPart.lead hx
  toSlender := hr.toSlender.lead (Nat.ne_of_lt hx) (hr.notMem_of_lt (by rw [count_addState]; omega))
  covers q hn hq := by
    rw [count_link] at hq
    by_cases h : q = n.count
    · exact .inl h
    · exact .inr (hr.covers q (by rw [count_addState]; omega) hq)

theorem alternation (hl : AddsSlender n.addState.2.addState.2 m (n.count + 1) u l E S d)
    (hr : AddsSlender m.addState.2 k m.count v r F T e) (hp : p < n.count) :
    AddsSlender n
      ((((k.link p epsilon (n.count + 1)).link p epsilon m.count).link u epsilon n.count).link v epsilon n.count) p n.count
      (.alternation l r) (Part.enclosed E p (n.count + 1) u n.count ∪ Part.enclosed F p m.count v n.count)
      (({n.count + 1} ∪ S ∪ {n.count}) ∪ ({m.count} ∪ T ∪ {n.count})) ((1 + d + 1) + (1 + e + 1)) where
  toAddsPart := hl.toAddsPart.alternation hr.toAddsPart hp
  toSlender := by
    have hu := hl.exit_lt
    simp only [count_addState] at hu
    have hpS : p ∉ S := hl.notMem_of_lt (by simp only [count_addState]; omega)
    have hxS : n.count ∉ S := hl.notMem_of_lt (by simp only [count_addState]; omega)
    have hpT : p ∉ T := hr.notMem_of_lt (by rw [count_addState]; omega)
    have hxT : n.count ∉ T := hr.notMem_of_lt (by rw [count_addState]; omega)
    have hupper := hl.toSlender.enclose (x := n.count) (p := p) (by omega) hpS (by omega) (by omega) hxS
    have hlower := hr.toSlender.enclose (x := n.count) (p := p) (by omega) hpT (by omega) (by omega) hxT
    exact hupper.par hlower (hl.shared hr.toAddsPart) (hl.part.leaving_enclosed (by omega) hpS)
      (hr.part.leaving_enclosed (by omega) hpT) (by omega)
  covers q hn hq := by
    simp only [count_link] at hq
    by_cases hx : q = n.count
    · exact .inl (.inr hx)
    by_cases hg : q = n.count + 1
    · exact .inl (.inl (.inl hg))
    by_cases hm : q < m.count
    · exact .inl (.inl (.inr (hl.covers q (by simp only [count_addState]; omega) hm)))
    by_cases hh : q = m.count
    · exact .inr (.inl (.inl hh))
    · exact .inr (.inl (.inr (hr.covers q (by rw [count_addState]; omega) hq)))

theorem star (hr : AddsSlender n.addState.2.addState.2 m (n.count + 1) u r E S d) (hp : p < n.count) :
    AddsSlender n ((((m.link p epsilon n.count).link p epsilon (n.count + 1)).link u epsilon (n.count + 1)).link u
      epsilon n.count) p n.count (.star r) (Part.looped E p (n.count + 1) u n.count) ({n.count, n.count + 1} ∪ S) (d + 4)
    where
  toAddsPart := hr.toAddsPart.star hp
  toSlender := by
    have hpS : p ∉ S := hr.notMem_of_lt (by simp only [count_addState]; omega)
    have hxS : n.count ∉ S := hr.notMem_of_lt (by simp only [count_addState]; omega)
    exact hr.toSlender.loop hpS hxS (by omega) (by omega) (by omega)
  covers q hn hq := by
    simp only [count_link] at hq
    by_cases hx : q = n.count
    · exact .inl (.inl hx)
    by_cases hg : q = n.count + 1
    · exact .inl (.inr hg)
    · exact .inr (hr.covers q (by simp only [count_addState]; omega) hq)

end AddsSlender

/-! ## Sizes -/

/-- An expression adds four transitions for an alternation or a star and one for a literal, and two states for each of
them. A concatenation adds one transition if `b` holds, and else it saves one state. The state that the expression begins
at is one of its states but was there before. -/
structure Sized (b : Bool) (n m : Nfa) (r : Regex) (k : Nat) : Prop where
  links_eq : k = r.number Regex.isLiteral + 4 * (r.number Regex.isAlternation + r.number Regex.isStar) +
    if b then r.number Regex.isConcat else 0
  count_eq : m.count + 1 + (if b then 0 else r.number Regex.isConcat) =
    n.count + 2 * (r.number Regex.isLiteral + r.number Regex.isAlternation + r.number Regex.isStar)

namespace Sized

variable {b : Bool} {k : Nfa} {g h u v d e : Nat} {l r : Regex}

attribute [local simp] Regex.isLiteral Regex.isConcat Regex.isAlternation Regex.isStar

theorem literal {a : Symbol} : Sized b n (n.addState.2.link p a q) (.literal a) 1 := by
  constructor <;> simp

theorem glue (hl : Sized false n m l d) (hr : Sized false m k r e) : Sized false n k (.concat l r) (d + e) := by
  obtain ⟨rfl, hm⟩ := hl
  obtain ⟨rfl, hk⟩ := hr
  constructor <;> simp at * <;> omega

theorem join (hl : Sized true n m l d) (hr : Sized true m.addState.2 k r e) :
    Sized true n (k.link p epsilon q) (.concat l r) (d + (1 + e)) := by
  obtain ⟨rfl, hm⟩ := hl
  obtain ⟨rfl, hk⟩ := hr
  constructor <;> simp at * <;> omega

theorem alternation (hl : Sized b n.addState.2.addState.2 m l d) (hr : Sized b m.addState.2 k r e) :
    Sized b n ((((k.link p epsilon g).link p epsilon h).link u epsilon x).link v epsilon x) (.alternation l r)
      ((1 + d + 1) + (1 + e + 1)) := by
  obtain ⟨rfl, hm⟩ := hl
  obtain ⟨rfl, hk⟩ := hr
  constructor <;> cases b <;> simp at * <;> omega

theorem star (hr : Sized b n.addState.2.addState.2 m r d) :
    Sized b n ((((m.link p epsilon x).link p epsilon g).link u epsilon g).link u epsilon x) (.star r) (d + 4) := by
  obtain ⟨rfl, hm⟩ := hr
  constructor <;> cases b <;> simp at * <;> omega

end Sized

/-! ## The construction -/

/-- The construction from a state of the automaton adds a slender part, of the size that the expression tells. -/
theorem exists_addsSlender {r : Regex} (hr : ∀ a ∈ r.literals, a ≠ epsilon) (hp : p < n.count) :
    (addRegex r (some p) n).1.entry = p ∧ ∃ E S k,
      AddsSlender n (addRegex r (some p) n).2 p (addRegex r (some p) n).1.exit r E S k ∧
      Sized n.flags.silentConcat n (addRegex r (some p) n).2 r k := by
  generalize hb : n.flags.silentConcat = b
  refine addRegex_induction
    (motive := fun n m p x r => ∃ E S k, AddsSlender n m p x r E S k ∧ Sized b n m r k) b ?_ ?_ ?_ ?_ ?_ ?_ hr hb hp
  · rintro n m p x r ⟨E, S, k, h, -⟩
    exact h.exit_lt
  · intro n p a ha hp
    exact ⟨_, _, _, .literal ha hp, .literal⟩
  · rintro rfl n m k p x y l r hp ⟨E, S, d, hl, hd⟩ ⟨F, T, e, hr, he⟩
    exact ⟨_, _, _, hl.concat hr hp, hd.glue he⟩
  · rintro rfl n m k p x y l r hp ⟨E, S, d, hl, hd⟩ ⟨F, T, e, hr, he⟩
    exact ⟨_, _, _, hl.concat (hr.lead hl.exit_lt.2) hp, hd.join he⟩
  · rintro n m k p u v l r hp ⟨E, S, d, hl, hd⟩ ⟨F, T, e, hr, he⟩
    exact ⟨_, _, _, hl.alternation hr hp, hd.alternation he⟩
  · rintro n m p u r hp ⟨E, S, d, h, hd⟩
    exact ⟨_, _, _, h.star hp, hd.star⟩

/-! ## The shape -/

/-- The transitions that leave a state. -/
def outgoing (n : Nfa) (p : Nat) : List (Nat × Symbol × Nat) := n.transitions.filter (·.1 = p)

theorem links_eq (n : Nfa) : n.links = {e | e ∈ n.transitions} := Set.ext fun _ => mem_transitions.symm

theorem encard_setOf_mem {l : List (Nat × Symbol × Nat)} (h : l.Nodup) : {e | e ∈ l}.encard = l.length := by
  rw [← List.coe_toFinset, Set.encard_coe_eq_coe_finsetCard, List.toFinset_card_of_nodup h]

/-- What leaves a state, as a set and as a list. -/
theorem leaving_links (n : Nfa) (p : Nat) : leaving n.links p = {e | e ∈ n.outgoing p} := by
  ext e
  simp [leaving, links_eq, outgoing]

theorem nodup_outgoing (n : Nfa) (p : Nat) : (n.outgoing p).Nodup := n.nodup_transitions.filter _

/-- The transitions that leave a state of the list are as few as those of the set. -/
theorem outgoing_of_narrow (h : Narrow n.links p) :
    ((n.outgoing p).length ≤ 2 ∧ ∀ e ∈ n.outgoing p, e.2.1 = epsilon) ∨
      ∃ a q, a ≠ epsilon ∧ n.outgoing p = [(p, a, q)] := by
  rw [Narrow, leaving_links, encard_setOf_mem (n.nodup_outgoing p)] at h
  rcases h with ⟨hlen, hsilent⟩ | ⟨a, q, ha, h⟩
  · exact .inl ⟨by exact_mod_cast hlen, hsilent⟩
  · refine .inr ⟨a, q, ha, ?_⟩
    rw [← List.perm_singleton, List.perm_ext_iff_of_nodup (n.nodup_outgoing p) (List.nodup_singleton _)]
    intro e
    rw [List.mem_singleton]
    exact Set.ext_iff.mp h e

/-- The automaton accepts in `x` alone, and each of its states lies on a path from the start to `x`. No transition leads
to the start or leaves `x`. Only silent steps leave a state, at most two, or a single transition on a symbol does. -/
structure HasShape (n : Nfa) (x : Nat) : Prop where
  start_lt : n.start < n.count
  exit_lt : x < n.count
  accept_eq : n.accept = .singleton x
  start_ne : n.start ≠ x
  target_ne : ∀ e ∈ n.transitions, e.2.2 ≠ n.start
  source_ne : ∀ e ∈ n.transitions, e.1 ≠ x
  outgoing : ∀ p < n.count, ((n.outgoing p).length ≤ 2 ∧ ∀ e ∈ n.outgoing p, e.2.1 = epsilon) ∨
    ∃ a q, a ≠ epsilon ∧ n.outgoing p = [(p, a, q)]
  through : ∀ q < n.count, ∃ u v, n.Path n.start u q ∧ n.Path q v x

/-- An automaton that is a slender part from its start to its accepting state has the shape of the part. -/
theorem hasShape_of_slender {S : Set Nat} {k : Nat} (h : Slender n.links S n.start x k) (haccept : n.accept = .singleton x)
    (hmem : ∀ q, q < n.count ↔ q = n.start ∨ q ∈ S) : n.HasShape x where
  start_lt := (hmem _).mpr (.inl rfl)
  exit_lt := (hmem x).mpr (.inr h.exit_mem)
  accept_eq := haccept
  start_ne := fun heq => h.entry_notMem (heq ▸ h.exit_mem)
  target_ne e he heq := by
    have hS : e.2.2 ∈ S := h.target (q := e.1) (a := e.2.1) (mem_transitions.mp he)
    exact h.entry_notMem (heq ▸ hS)
  source_ne e he := (h.source (q := e.1) (a := e.2.1) (r := e.2.2) (mem_transitions.mp he)).2
  outgoing p _ := outgoing_of_narrow (h.narrow p)
  through q hq := by
    rcases (hmem q).mp hq with rfl | hS
    · obtain ⟨w, hw⟩ := h.through
      exact ⟨[], w, .here _, path_iff_walk.mpr hw⟩
    · obtain ⟨u, hu⟩ := h.reached q hS
      obtain ⟨v, hv⟩ := h.leads q hS
      exact ⟨u, v, path_iff_walk.mpr hu, path_iff_walk.mpr hv⟩

/-- The automaton of an expression is a slender part from its start to its accepting state, and has no other states. -/
theorem exists_slender_ofRegex (flags : BuildFlags) {r : Regex} (hr : ∀ a ∈ r.literals, a ≠ epsilon) :
    ∃ S x k, Slender (ofRegex r flags).links S (ofRegex r flags).start x k ∧ (ofRegex r flags).accept = .singleton x ∧
      (∀ q, q < (ofRegex r flags).count ↔ q = (ofRegex r flags).start ∨ q ∈ S) ∧
      Sized flags.silentConcat (addState { flags }).2 (ofRegex r flags) r k := by
  -- The construction begins at the only state of an automaton without transitions.
  obtain ⟨hentry, E, S, k, hE, hsize⟩ :=
    exists_addsSlender (n := (addState { flags }).2) hr (p := 0) (Nat.zero_lt_succ 0)
  have hbuild : ofRegex r flags =
      { (addRegex r (some 0) (addState { flags }).2).2 with
        start := (addRegex r (some 0) (addState { flags }).2).1.entry
        accept := .singleton (addRegex r (some 0) (addState { flags }).2).1.exit } := by
    rw [ofRegex, build, addRegex_none]
    rfl
  generalize addRegex r (some 0) (addState { flags }).2 = f at hentry hE hsize hbuild
  have hlinks : f.2.links = E := by
    have hempty : (addState { flags }).2.links = ∅ := by
      rw [links_addState, Set.eq_empty_iff_forall_notMem]
      intro e he
      exact absurd (lt_count_of_mem_links he) (Nat.not_lt_zero _)
    rw [hE.links_eq, hempty, Set.empty_union]
  have hmem : ∀ q, q < f.2.count ↔ q = 0 ∨ q ∈ S := by
    intro q
    have hx := hE.exit_lt
    constructor
    · intro hq
      by_cases h0 : q = 0
      · exact .inl h0
      · exact .inr (hE.covers q (Nat.pos_of_ne_zero h0) hq)
    · rintro (rfl | hq)
      · omega
      · exact (hE.new q hq).2
  rw [hbuild, hentry]
  refine ⟨S, f.1.exit, k, ?_, rfl, hmem, ⟨hsize.links_eq, hsize.count_eq⟩⟩
  show Slender f.2.links S 0 f.1.exit k
  rw [hlinks]
  exact hE.toSlender

/-- The automaton of an expression has two states for each literal, alternation and star, and one state less for each
concatenation unless a silent step joins its parts. It has one transition for each literal, four for each alternation and
star, and those silent steps; and it has the promised shape. -/
theorem ofRegex_shape (flags : BuildFlags) {r : Regex} (hr : ∀ a ∈ r.literals, a ≠ epsilon) :
    (ofRegex r flags).count + (if flags.silentConcat then 0 else r.number Regex.isConcat) =
      2 * (r.number Regex.isLiteral + r.number Regex.isAlternation + r.number Regex.isStar) ∧
    (ofRegex r flags).transitionCount =
      r.number Regex.isLiteral + 4 * (r.number Regex.isAlternation + r.number Regex.isStar) +
        (if flags.silentConcat then r.number Regex.isConcat else 0) ∧
    ∃ x, (ofRegex r flags).HasShape x := by
  obtain ⟨S, x, k, hslender, haccept, hmem, hsize⟩ := exists_slender_ofRegex flags hr
  refine ⟨?_, ?_, x, hasShape_of_slender hslender haccept hmem⟩
  · have hcount := hsize.count_eq
    change _ + 1 + _ = 1 + _ at hcount
    omega
  · have hcard := hslender.size
    rw [links_eq, encard_setOf_mem (nodup_transitions _)] at hcard
    exact (Nat.cast_injective hcard).trans hsize.links_eq

/-- A star over an alternation and another star, joined in both ways. -/
theorem ofRegex_shape_nested :
    let r : Regex := .concat (.star (.alternation (.literal "a") (.concat (.literal "b") (.literal "c")))) (.star (.literal "c"))
    (∀ a ∈ r.literals, a ≠ epsilon) ∧
      ((ofRegex r {}).count = 12 ∧ (ofRegex r {}).transitionCount = 16 ∧ ∃ x, (ofRegex r {}).HasShape x) ∧
      (ofRegex r { silentConcat := true }).count = 14 ∧ (ofRegex r { silentConcat := true }).transitionCount = 18 ∧
        ∃ x, (ofRegex r { silentConcat := true }).HasShape x := by
  intro r
  have hlit : ∀ a ∈ r.literals, a ≠ epsilon := by decide
  have hl : r.number Regex.isLiteral = 4 := by decide
  have ha : r.number Regex.isAlternation = 1 := by decide
  have hs : r.number Regex.isStar = 2 := by decide
  have hc : r.number Regex.isConcat = 2 := by decide
  have hglued := ofRegex_shape {} hlit
  have hjoined := ofRegex_shape { silentConcat := true } hlit
  rw [hl, ha, hs, hc] at hglued hjoined
  obtain ⟨hcount, hlinks, hshape⟩ := hglued
  obtain ⟨hcount', hlinks', hshape'⟩ := hjoined
  exact ⟨hlit, ⟨Nat.add_right_cancel hcount, hlinks, hshape⟩, hcount', hlinks', hshape'⟩

end Nfa

end FormalLang
