import FormalLang.Grammar.Analysis
import FormalLang.Proofs.Grammar.Derivations

/-!
# Marked nonterminals

A marking ends when a round marks nothing more, and then every production whose body passes the test has its head
marked. Both tests look at the letters of a body one by one, and so the marked nonterminals are those that derive a
word of allowed terminals.

* `Grammar.settles_mark`: the rounds come to an end by themselves.
* `Grammar.Letterwise.head_mem_mark`: the marks are closed.
* `Grammar.Letterwise.test_mark_iff`: a sequence passes the test on the marks if it derives a word of allowed terminals.
* `Grammar.canVanish_nullable_iff`, `Grammar.mem_nullable_iff`: the nullable nonterminals are those that derive the
  empty word.
* `Grammar.canFinish_generators_iff`, `Grammar.mem_generators_iff`: the generators are those that derive some word.
* `Grammar.nullable_exact`: with the first result, how the nullable nonterminals are found.
-/

namespace FormalLang

namespace Grammar

variable {g : Grammar} {test : OrderedSet Int → List Letter → Bool} {marks : OrderedSet Int}

/-! ## Rounds -/

/-- What holds of the marks, and of the head of each production that passes the test on marks of which it holds, holds
of the marks after a round. -/
theorem forall_markRound {P : Int → Prop}
    (hP : ∀ p ∈ g.productions, ∀ s, (∀ n ∈ s, P n) → test s p.body = true → P p.head) (hm : ∀ n ∈ marks, P n) :
    ∀ n ∈ g.markRound test marks, P n := by
  refine List.foldlRecOn (motive := fun s : OrderedSet Int => ∀ n ∈ s, P n) g.productions _ hm fun s hs p hp => ?_
  split
  · next ht =>
    intro n hn
    rcases OrderedSet.mem_insert.mp hn with rfl | hn
    · exact hP p hp s hs ht
    · exact hs n hn
  · exact hs

/-- What holds of the head of each production that passes the test on marks of which it holds, holds of all marks. -/
theorem forall_mark {P : Int → Prop}
    (hP : ∀ p ∈ g.productions, ∀ s, (∀ n ∈ s, P n) → test s p.body = true → P p.head) : ∀ n ∈ g.mark test, P n :=
  settle_induction (P := fun s : OrderedSet Int => ∀ n ∈ s, P n) (fun _ _ => forall_markRound hP) _ nofun

/-- A production only adds to the marks. -/
theorem marks_grow (test : OrderedSet Int → List Letter → Bool) (s : OrderedSet Int) (p : Production) :
    ∀ n ∈ s, n ∈ if test s p.body then s.insert p.head else s := by
  intro n hn
  split
  · exact OrderedSet.mem_insert.mpr (.inr hn)
  · exact hn

theorem mem_markRound_of_mem {n : Int} (h : n ∈ marks) : n ∈ g.markRound test marks :=
  List.foldlRecOn (motive := fun s => n ∈ s) g.productions _ h fun s hs p _ => marks_grow test s p n hs

/-- A round that marks something adds to the number of marks. -/
theorem size_lt_size_markRound (h : g.markRound test marks ≠ marks) : marks.size < (g.markRound test marks).size :=
  OrderedSet.size_lt_size (fun _ => mem_markRound_of_mem) h.symm

/-- Without a limit on their number, the rounds come to an end in the marks: each one but the last marks a nonterminal. Only
heads of productions are marked, so that there are rounds enough. -/
theorem settles_mark (g : Grammar) (test : OrderedSet Int → List Letter → Bool) :
    ∃ t, Settles (fun _ => g.markRound test) 0 ∅ t ∧ t.state = g.mark test ∧ t.rounds ≤ (g.mark test).size + 1 := by
  have hheads : ∀ s : OrderedSet Int, (∀ n ∈ s, n ∈ g.productions.map Production.head) →
      s.size ≤ g.productions.length := fun s hs => by
    simpa using OrderedSet.size_le_length hs
  have hsettles : Settles (fun _ => g.markRound test) 0 ∅ (settle (fun _ => g.markRound test) (g.productions.length + 1) ∅) :=
    settles_settle (P := fun s : OrderedSet Int => ∀ n ∈ s, n ∈ g.productions.map Production.head)
      (fun _ _ => forall_markRound fun p hp _ _ _ => List.mem_map_of_mem hp) hheads
      (fun _ _ _ => size_lt_size_markRound) nofun (by omega)
  have hrounds := hsettles.rounds_le fun _ _ => size_lt_size_markRound
  refine ⟨_, hsettles, rfl, ?_⟩
  rw [mark]
  omega

/-- A round that marks nothing new was made last. -/
theorem markRound_mark (g : Grammar) (test : OrderedSet Int → List Letter → Bool) :
    g.markRound test (g.mark test) = g.mark test := by
  obtain ⟨t, ht, hstate, -⟩ := settles_mark g test
  rw [← hstate]
  exact ht.fixed

/-! ## Tests of letters -/

/-- The test looks at the letters one by one: the nonterminals must be marked and the terminals allowed. -/
def Letterwise (test : OrderedSet Int → List Letter → Bool) (allowed : Symbol → Prop) : Prop :=
  ∀ marks body, test marks body = true ↔
    (∀ n, Letter.nonterminal n ∈ body → n ∈ marks) ∧ ∀ a, Letter.terminal a ∈ body → allowed a

theorem letterwise_canVanish : Letterwise canVanish (· = epsilon) := by
  intro marks body
  simp only [canVanish, List.all_eq_true]
  constructor
  · intro h
    exact ⟨fun n hn => by simpa using h _ hn, fun a ha => by simpa using h _ ha⟩
  · rintro ⟨hn, ha⟩ (n | a) hl
    · simpa using hn n hl
    · simpa using ha a hl

theorem letterwise_canFinish : Letterwise canFinish fun _ => True := by
  intro marks body
  simp only [canFinish, List.all_eq_true]
  constructor
  · intro h
    exact ⟨fun n hn => by simpa using h _ hn, fun _ _ => trivial⟩
  · rintro ⟨hn, -⟩ (n | a) hl
    · simpa using hn n hl
    · rfl

namespace Letterwise

variable {allowed : Symbol → Prop} {u v : List Letter} (h : Letterwise test allowed)
include h

theorem append_iff : test marks (u ++ v) = true ↔ test marks u = true ∧ test marks v = true := by
  simp only [h marks, List.mem_append, or_imp, forall_and]
  exact ⟨fun ⟨⟨a, b⟩, c, d⟩ => ⟨⟨a, c⟩, b, d⟩, fun ⟨⟨a, c⟩, b, d⟩ => ⟨⟨a, b⟩, c, d⟩⟩

theorem nonterminal_iff {n : Int} : test marks [.nonterminal n] = true ↔ n ∈ marks := by
  simp [h marks]

theorem mono {marks' : OrderedSet Int} (hm : ∀ n ∈ marks, n ∈ marks') (ht : test marks u = true) :
    test marks' u = true := by
  obtain ⟨hn, ha⟩ := (h marks u).mp ht
  exact (h marks' u).mpr ⟨fun n hu => hm n (hn n hu), ha⟩

/-- A round marks the heads of the productions that pass the test. -/
theorem head_mem_markRound {p : Production} (hp : p ∈ g.productions) (ht : test marks p.body = true) :
    p.head ∈ g.markRound test marks := by
  obtain ⟨s, hs, hend⟩ := exists_foldl_step (r := fun s t : OrderedSet Int => ∀ n ∈ s, n ∈ t) (fun _ _ h => h)
    (fun hst htu n h => htu n (hst n h)) (marks_grow test) marks hp
  refine hend p.head ?_
  rw [if_pos (h.mono hs ht)]
  exact OrderedSet.mem_insert.mpr (.inl rfl)

theorem head_mem_mark {p : Production} (hp : p ∈ g.productions) (ht : test (g.mark test) p.body = true) :
    p.head ∈ g.mark test := by
  rw [← markRound_mark]
  exact h.head_mem_markRound hp ht

/-- What derives a sequence that passes the test on the marks passes it itself. -/
theorem test_of_derives (hd : g.Derives u v) (hv : test (g.mark test) v = true) : test (g.mark test) u = true := by
  induction hd with
  | refl => exact hv
  | @step x y p _ hp ih =>
    rw [h.append_iff, h.append_iff] at hv
    obtain ⟨⟨hx, hb⟩, hy⟩ := hv
    refine ih ?_
    rw [List.append_cons, h.append_iff, h.append_iff, h.nonterminal_iff]
    exact ⟨⟨hx, h.head_mem_mark hp hb⟩, hy⟩

/-- A sequence that passes the test derives a word of allowed terminals, if each marked nonterminal does. -/
theorem exists_word (hm : ∀ n ∈ marks, ∃ w : List Symbol, (∀ a ∈ w, allowed a) ∧
      g.Derives [.nonterminal n] (w.map .terminal)) (ht : test marks u = true) :
    ∃ w : List Symbol, (∀ a ∈ w, allowed a) ∧ g.Derives u (w.map .terminal) := by
  obtain ⟨hn, ha⟩ := (h marks u).mp ht
  exact exists_word_of_forall (fun n hu => hm n (hn n hu)) ha

/-- A sequence passes the test on the marks if it derives a word of allowed terminals. -/
theorem test_mark_iff :
    test (g.mark test) u = true ↔ ∃ w : List Symbol, (∀ a ∈ w, allowed a) ∧ g.Derives u (w.map .terminal) := by
  constructor
  · refine h.exists_word (forall_mark fun p hp s hs ht => ?_)
    obtain ⟨w, hw, hd⟩ := h.exists_word hs ht
    exact ⟨w, hw, derives_head hp hd⟩
  · rintro ⟨w, hw, hd⟩
    exact h.test_of_derives hd ((h _ _).mpr ⟨by simp, by simpa using hw⟩)

end Letterwise

/-! ## The two markings -/

/-- A sequence whose letters may vanish derives the empty word. -/
theorem canVanish_nullable_iff {u : List Letter} : canVanish g.nullable u = true ↔ g.Vanishes u := by
  rw [Vanishes, generates_iff, nullable, letterwise_canVanish.test_mark_iff]
  simp [and_comm]

theorem mem_nullable_iff {n : Int} : n ∈ g.nullable ↔ g.Vanishes [.nonterminal n] := by
  rw [← canVanish_nullable_iff, letterwise_canVanish.nonterminal_iff]

/-- A sequence whose letters can become words derives a word of terminals. -/
theorem canFinish_generators_iff {u : List Letter} :
    canFinish g.generators u = true ↔ ∃ w : List Symbol, g.Derives u (w.map .terminal) := by
  rw [generators, letterwise_canFinish.test_mark_iff]
  simp

theorem mem_generators_iff {n : Int} :
    n ∈ g.generators ↔ ∃ w : List Symbol, g.Derives [.nonterminal n] (w.map .terminal) := by
  rw [← canFinish_generators_iff, letterwise_canFinish.nonterminal_iff]

/-- The nullable nonterminals are those that derive the empty word, once ε is erased. Whatever the productions are, the
rounds that mark them come to an end without a limit on their number: each one but the last marks a nonterminal. -/
theorem nullable_exact (g : Grammar) :
    (∀ n, n ∈ g.nullable ↔ g.Vanishes [.nonterminal n]) ∧
      ∃ t, Settles (fun _ => g.markRound canVanish) 0 ∅ t ∧ t.state = g.nullable ∧ t.rounds ≤ g.nullable.size + 1 :=
  ⟨fun _ => mem_nullable_iff, settles_mark g canVanish⟩

example : (⟨0, [⟨0, [.nonterminal 1, .terminal epsilon, .nonterminal 1]⟩, ⟨1, [.nonterminal 0]⟩, ⟨2, [.nonterminal 2]⟩,
    ⟨1, [.terminal epsilon]⟩, ⟨1, [.terminal epsilon]⟩]⟩ : Grammar).nullable = .ofList [0, 1] := by decide

end Grammar

end FormalLang
