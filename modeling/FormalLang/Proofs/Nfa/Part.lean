import FormalLang.Nfa.Path
import Mathlib.Data.Set.Insert

/-!
# Parts of automata

A set of transitions on its own, apart from the automaton that holds it. A part has an entry that none of its
transitions leads to and an exit that none of them leaves, and apart from the entry its states are its own. Under these
conditions parts can be put together at a state that they share, and no walk can take a way that neither part has.

* `Walk`: the walks along a set of transitions, and what they spell.
* `Part.walk_seq_iff`: a part that begins at the exit of another one.
* `Part.walk_enclose_iff`: a part between two silent steps.
* `Part.walk_par_iff`: two parts with the same entry and the same exit.
* `Part.walk_loop_iff`: a part that can be repeated or left out.
-/

namespace FormalLang

/-- What a transition on a symbol reads. -/
def reading (a : Symbol) : List Symbol := if a = epsilon then [] else [a]

/-- There is a walk between two states, along the transitions of a set, that spells a word. -/
inductive Walk (E : Set (Nat × Symbol × Nat)) : Nat → List Symbol → Nat → Prop where
  | here (p) : Walk E p [] p
  | step {p q r a w} : (p, a, q) ∈ E → Walk E q w r → Walk E p (reading a ++ w) r

theorem reading_epsilon : reading epsilon = [] := if_pos rfl

theorem reading_of_ne {a : Symbol} (ha : a ≠ epsilon) : reading a = [a] := if_neg ha

namespace Walk

variable {E F : Set (Nat × Symbol × Nat)} {Z : Set Nat} {p q r : Nat} {u v w : List Symbol}

theorem silent (h : (p, epsilon, q) ∈ E) (k : Walk E q w r) : Walk E p w r := by
  have := Walk.step h k
  rwa [reading_epsilon] at this

theorem append (h : Walk E p u q) (k : Walk E q v r) : Walk E p (u ++ v) r := by
  induction h with
  | here => exact k
  | step he _ ih =>
    rw [List.append_assoc]
    exact .step he (ih k)

theorem mono (hEF : E ⊆ F) (h : Walk E p w q) : Walk F p w q := by
  induction h with
  | here => exact .here _
  | step he _ ih => exact .step (hEF he) ih

/-- A walk that begins in a region which the transitions cannot leave takes only the transitions of the region. -/
theorem of_region (hZ : ∀ p a q, (p, a, q) ∈ E → p ∈ Z → (p, a, q) ∈ F ∧ q ∈ Z) (h : Walk E p w q) (hp : p ∈ Z) :
    Walk F p w q := by
  induction h with
  | here => exact .here _
  | step he _ ih =>
    obtain ⟨hF, hq⟩ := hZ _ _ _ he hp
    exact .step hF (ih hq)

/-- A walk from a state that no transition leaves stays there. -/
theorem of_sink (hp : ∀ a q, (p, a, q) ∉ E) (h : Walk E p w q) : w = [] ∧ q = p := by
  cases h with
  | here => exact ⟨rfl, rfl⟩
  | step he => exact absurd he (hp _ _)

end Walk

/-- The transitions of an automaton. -/
def Nfa.links (n : Nfa) : Set (Nat × Symbol × Nat) := {e | e.2.2 ∈ n.targets e.1 e.2.1}

theorem Nfa.mem_links {n : Nfa} {p q : Nat} {a : Symbol} : (p, a, q) ∈ n.links ↔ q ∈ n.targets p a := Iff.rfl

/-- The paths of an automaton are the walks along its transitions. -/
theorem Nfa.path_iff_walk {n : Nfa} {p q : Nat} {w : List Symbol} : n.Path p w q ↔ Walk n.links p w q := by
  constructor
  · intro h
    induction h with
    | here => exact .here _
    | silent hq _ ih => exact .silent hq ih
    | @symbol p q r a w ha hq _ ih =>
      have := Walk.step (E := n.links) hq ih
      rwa [reading_of_ne ha] at this
  · intro h
    induction h with
    | here => exact .here _
    | @step p q r a w hq _ ih =>
      by_cases ha : a = epsilon
      · subst ha
        rw [reading_epsilon]
        exact .silent hq ih
      · rw [reading_of_ne ha]
        exact .symbol ha hq ih

/-! ## Parts -/

/-- The transitions `E` make a part that is entered at `p` and left at `x`, on the states `S` of its own. -/
structure Part (E : Set (Nat × Symbol × Nat)) (S : Set Nat) (p x : Nat) : Prop where
  entry_notMem : p ∉ S
  exit_mem : x ∈ S
  source : ∀ {q a r}, (q, a, r) ∈ E → (q = p ∨ q ∈ S) ∧ q ≠ x
  target : ∀ {q a r}, (q, a, r) ∈ E → r ∈ S

namespace Part

variable {E F : Set (Nat × Symbol × Nat)} {S T : Set Nat} {p q x y : Nat} {w : List Symbol}

theorem single {a : Symbol} (h : p ≠ x) : Part {(p, a, x)} {x} p x where
  entry_notMem := h
  exit_mem := rfl
  source := by
    rintro q b r ⟨⟩
    exact ⟨.inl rfl, h⟩
  target := by
    rintro q b r ⟨⟩
    rfl

/-- One transition spells what it reads. -/
theorem walk_single_iff {a : Symbol} (h : p ≠ x) : Walk {(p, a, x)} p w x ↔ w = reading a := by
  constructor
  · intro hw
    cases hw with
    | here => exact absurd rfl h
    | step he hw =>
      cases he
      obtain ⟨rfl, -⟩ := hw.of_sink fun b q hb => h (by cases hb; rfl)
      exact List.append_nil _
  · rintro rfl
    have := Walk.step (E := {(p, a, x)}) rfl (.here x)
    rwa [List.append_nil] at this

/-! ### One after the other -/

section Seq

variable (hE : Part E S p x) (hF : Part F T x y) (hST : ∀ q ∈ S, q ∉ T) (hp : p ∉ T)

include hE hF hST hp

theorem seq : Part (E ∪ F) (S ∪ T) p y where
  entry_notMem := fun h => h.elim hE.entry_notMem hp
  exit_mem := .inr hF.exit_mem
  source := by
    rintro q a r (he | he)
    · obtain ⟨h, -⟩ := hE.source he
      refine ⟨h.imp_right .inl, ?_⟩
      rintro rfl
      rcases h with rfl | h
      · exact hp hF.exit_mem
      · exact hST _ h hF.exit_mem
    · obtain ⟨h, hy⟩ := hF.source he
      rcases h with rfl | h
      · exact ⟨.inr (.inl hE.exit_mem), hy⟩
      · exact ⟨.inr (.inr h), hy⟩
  target := fun h => h.imp hE.target hF.target

/-- From the first part a walk passes through the state that both parts share. -/
private theorem exists_split_of_walk (h : Walk (E ∪ F) q w y) (hq : q = p ∨ q ∈ S) :
    ∃ u v, w = u ++ v ∧ Walk E q u x ∧ Walk F x v y := by
  induction h with
  | here q =>
    rcases hq with rfl | hq
    · exact absurd hF.exit_mem hp
    · exact absurd hF.exit_mem (hST _ hq)
  | @step q r s a w he hw ih =>
    rcases he with he | he
    · obtain ⟨u, v, rfl, hu, hv⟩ := ih hF (.inr (hE.target he))
      exact ⟨reading a ++ u, v, (List.append_assoc _ _ _).symm, .step he hu, hv⟩
    · -- A transition of the second part leaves from the first one only at the shared state.
      have hqx : q = x := by
        rcases (hF.source he).1 with h | h
        · exact h
        · rcases hq with rfl | hq
          · exact absurd h hp
          · exact absurd h (hST _ hq)
      subst hqx
      refine ⟨[], reading a ++ w, rfl, .here q, ?_⟩
      refine Walk.of_region (Z := {q} ∪ T) ?_ (.step (.inr he) hw) (.inl rfl)
      rintro q' b r' (he' | he') hq'
      · obtain ⟨h, hne⟩ := hE.source he'
        rcases hq' with h' | h'
        · exact absurd h' hne
        · rcases h with rfl | h
          · exact absurd h' hp
          · exact absurd h' (hST _ h)
      · exact ⟨he', .inr (hF.target he')⟩

/-- A part that begins where another one ends: first a word of the one, then a word of the other. -/
theorem walk_seq_iff : Walk (E ∪ F) p w y ↔ ∃ u v, w = u ++ v ∧ Walk E p u x ∧ Walk F x v y := by
  constructor
  · exact fun h => exists_split_of_walk hE hF hST hp h (.inl rfl)
  · rintro ⟨u, v, rfl, hu, hv⟩
    exact (hu.mono Set.subset_union_left).append (hv.mono Set.subset_union_right)

end Seq

/-! ### A part between silent steps -/

section Silent

variable {g : Nat} (hE : Part E S g y) (hpg : p ≠ g) (hp : p ∉ S)

include hE hpg hp

theorem lead : Part ({(p, epsilon, g)} ∪ E) ({g} ∪ S) p y :=
  (single hpg).seq hE (fun _ h hS => hE.entry_notMem (h ▸ hS)) hp

/-- A silent step before a part adds nothing to its words. -/
theorem walk_lead_iff : Walk ({(p, epsilon, g)} ∪ E) p w y ↔ Walk E g w y := by
  rw [(single hpg).walk_seq_iff hE (fun _ h hS => hE.entry_notMem (h ▸ hS)) hp]
  constructor
  · rintro ⟨u, v, rfl, hu, hv⟩
    rw [walk_single_iff hpg, reading_epsilon] at hu
    rwa [hu]
  · intro h
    exact ⟨[], w, rfl, (walk_single_iff hpg).mpr reading_epsilon.symm, h⟩

/-- The transitions of a part from `g` to `y`, with those that enter it from `p` and leave it for `x`. -/
def enclosed (E : Set (Nat × Symbol × Nat)) (p g y x : Nat) : Set (Nat × Symbol × Nat) :=
  {(p, epsilon, g)} ∪ E ∪ {(y, epsilon, x)}

variable (hpx : p ≠ x) (hgx : g ≠ x) (hx : x ∉ S)

include hpx hgx hx

theorem enclose : Part (enclosed E p g y x) ({g} ∪ S ∪ {x}) p x := by
  have hyx : y ≠ x := fun h => hx (h ▸ hE.exit_mem)
  refine (hE.lead hpg hp).seq (single hyx) ?_ hpx
  rintro q (hq | hq) rfl
  · exact hgx hq.symm
  · exact hx hq

/-- Silent steps before and after a part add nothing to its words. -/
theorem walk_enclose_iff : Walk (enclosed E p g y x) p w x ↔ Walk E g w y := by
  have hyx : y ≠ x := fun h => hx (h ▸ hE.exit_mem)
  have hdisj : ∀ q ∈ {g} ∪ S, q ∉ ({x} : Set Nat) := by
    rintro q (hq | hq) rfl
    · exact hgx hq.symm
    · exact hx hq
  rw [enclosed, (hE.lead hpg hp).walk_seq_iff (single hyx) hdisj hpx]
  constructor
  · rintro ⟨u, v, rfl, hu, hv⟩
    rw [walk_single_iff hyx, reading_epsilon] at hv
    rw [hv, List.append_nil]
    exact (hE.walk_lead_iff hpg hp).mp hu
  · intro h
    refine ⟨w, [], (List.append_nil w).symm, (hE.walk_lead_iff hpg hp).mpr h, ?_⟩
    exact (walk_single_iff hyx).mpr reading_epsilon.symm

end Silent

/-! ### Side by side -/

section Par

variable (hE : Part E S p x) (hF : Part F T p x) (hST : ∀ q ∈ S, q ∈ T → q = x)

include hE hF

theorem par : Part (E ∪ F) (S ∪ T) p x where
  entry_notMem := fun h => h.elim hE.entry_notMem hF.entry_notMem
  exit_mem := .inl hE.exit_mem
  source := by
    rintro q a r (he | he)
    · exact ⟨(hE.source he).1.imp_right .inl, (hE.source he).2⟩
    · exact ⟨(hF.source he).1.imp_right .inr, (hF.source he).2⟩
  target := fun h => h.imp hE.target hF.target

include hST

/-- A walk that has entered the first of two parts side by side stays in it. -/
private theorem walk_of_walk_par (h : Walk (E ∪ F) q w x) (hq : q ∈ S) : Walk E q w x := by
  refine h.of_region (Z := S) ?_ hq
  rintro q a r (he | he) hq
  · exact ⟨he, hE.target he⟩
  · obtain ⟨h, hne⟩ := hF.source he
    rcases h with rfl | h
    · exact absurd hq hE.entry_notMem
    · exact absurd (hST q hq h) hne

/-- Two parts with the same entry and exit: a word of the one or a word of the other. -/
theorem walk_par_iff : Walk (E ∪ F) p w x ↔ Walk E p w x ∨ Walk F p w x := by
  constructor
  · intro h
    cases h with
    | here => exact absurd hE.exit_mem hE.entry_notMem
    | step he hw =>
      rcases he with he | he
      · exact .inl (.step he (walk_of_walk_par hE hF hST hw (hE.target he)))
      · rw [Set.union_comm] at hw
        exact .inr (.step he (walk_of_walk_par hF hE (fun q h h' => hST q h' h) hw (hF.target he)))
  · rintro (h | h)
    · exact h.mono Set.subset_union_left
    · exact h.mono Set.subset_union_right

end Par

/-! ### Again and again -/

section Loop

/-- The transitions of a part from `g` to `y`, with those that enter it from `p`, repeat it, leave it for `x` and go past
it. -/
def looped (E : Set (Nat × Symbol × Nat)) (p g y x : Nat) : Set (Nat × Symbol × Nat) :=
  E ∪ {(p, epsilon, x), (p, epsilon, g), (y, epsilon, g), (y, epsilon, x)}

variable {g : Nat} (hE : Part E S g y) (hp : p ∉ S) (hx : x ∉ S) (hpx : p ≠ x) (hpg : p ≠ g) (hxg : x ≠ g)

include hE hp hx hpx hpg hxg

theorem loop : Part (looped E p g y x) ({x, g} ∪ S) p x where
  entry_notMem := by
    rintro ((h | h) | h)
    · exact hpx h
    · exact hpg h
    · exact hp h
  exit_mem := .inl (.inl rfl)
  source := by
    have hy : y ≠ x := fun h => hx (h ▸ hE.exit_mem)
    rintro q a r (he | he | he | he | he)
    · obtain ⟨h, -⟩ := hE.source he
      rcases h with rfl | h
      · exact ⟨.inr (.inl (.inr rfl)), hxg.symm⟩
      · exact ⟨.inr (.inr h), fun e => hx (e ▸ h)⟩
    · cases he
      exact ⟨.inl rfl, hpx⟩
    · cases he
      exact ⟨.inl rfl, hpx⟩
    · cases he
      exact ⟨.inr (.inr hE.exit_mem), hy⟩
    · cases he
      exact ⟨.inr (.inr hE.exit_mem), hy⟩
  target := by
    rintro q a r (he | he | he | he | he)
    · exact .inr (hE.target he)
    · cases he
      exact .inl (.inl rfl)
    · cases he
      exact .inl (.inr rfl)
    · cases he
      exact .inl (.inr rfl)
    · cases he
      exact .inl (.inl rfl)

/-- From within the repeated part a walk ends the round that it is in and then makes some further rounds. -/
private theorem exists_rounds_of_walk
    {z : Nat} (hz : z = x) (h : Walk (looped E p g y x) q w z) (hq : q = g ∨ q ∈ S) :
    ∃ u ws, w = u ++ List.flatten ws ∧ Walk E q u y ∧ ∀ v ∈ ws, Walk E g v y := by
  induction h with
  | here =>
    subst hz
    exact absurd hq (not_or.mpr ⟨hxg, hx⟩)
  | @step q r s a w he hw ih =>
    subst hz
    rcases he with he | he | he | he | he
    · obtain ⟨u, ws, rfl, hu, hws⟩ := ih rfl (.inr (hE.target he))
      exact ⟨reading a ++ u, ws, (List.append_assoc _ _ _).symm, .step he hu, hws⟩
    · cases he
      exact absurd hq (not_or.mpr ⟨hpg, hp⟩)
    · cases he
      exact absurd hq (not_or.mpr ⟨hpg, hp⟩)
    · cases he
      obtain ⟨u, ws, rfl, hu, hws⟩ := ih rfl (.inl rfl)
      exact ⟨[], u :: ws, by rw [reading_epsilon]; rfl, .here _, List.forall_mem_cons.mpr ⟨hu, hws⟩⟩
    · cases he
      obtain ⟨rfl, -⟩ := hw.of_sink fun b r he => ((loop hE hp hx hpx hpg hxg).source he).2 rfl
      exact ⟨[], [], by rw [reading_epsilon]; rfl, .here _, List.forall_mem_nil _⟩

omit hE hp hx hpx hpg hxg in
/-- After a round, some further rounds lead to the exit. -/
private theorem walk_rounds {ws : List (List Symbol)} (hws : ∀ v ∈ ws, Walk E g v y) :
    Walk (looped E p g y x) y ws.flatten x := by
  induction ws with
  | nil => exact .silent (.inr (.inr (.inr (.inr rfl)))) (.here x)
  | cons v ws ih =>
    obtain ⟨hv, hws⟩ := List.forall_mem_cons.mp hws
    exact .silent (.inr (.inr (.inr (.inl rfl)))) ((hv.mono Set.subset_union_left).append (ih hws))

/-- A part that can be repeated or left out: any number of its words one after the other. -/
theorem walk_loop_iff :
    Walk (looped E p g y x) p w x ↔
      ∃ ws : List (List Symbol), w = ws.flatten ∧ ∀ u ∈ ws, Walk E g u y := by
  constructor
  · intro h
    cases h with
    | here => exact absurd rfl hpx
    | step he hw =>
      rcases he with he | he | he | he | he
      · rcases (hE.source he).1 with h | h
        · exact absurd h hpg
        · exact absurd h hp
      · cases he
        obtain ⟨rfl, -⟩ := hw.of_sink fun b r he => ((loop hE hp hx hpx hpg hxg).source he).2 rfl
        exact ⟨[], by rw [reading_epsilon]; rfl, List.forall_mem_nil _⟩
      · cases he
        obtain ⟨u, ws, rfl, hu, hws⟩ := exists_rounds_of_walk hE hp hx hpx hpg hxg rfl hw (.inl rfl)
        exact ⟨u :: ws, by rw [reading_epsilon]; rfl, List.forall_mem_cons.mpr ⟨hu, hws⟩⟩
      · cases he
        exact absurd hE.exit_mem hp
      · cases he
        exact absurd hE.exit_mem hp
  · rintro ⟨ws, rfl, hws⟩
    cases ws with
    | nil => exact .silent (.inr (.inl rfl)) (.here x)
    | cons u ws =>
      obtain ⟨hu, hws⟩ := List.forall_mem_cons.mp hws
      have hrest := walk_rounds (p := p) (x := x) hws
      exact .silent (.inr (.inr (.inl rfl))) ((hu.mono Set.subset_union_left).append hrest)

end Loop

end Part

end FormalLang
