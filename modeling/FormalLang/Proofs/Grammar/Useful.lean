import FormalLang.Grammar.Simplify
import FormalLang.Proofs.Grammar.Marking
import FormalLang.Proofs.Grammar.Words
import FormalLang.Search.Reach

/-!
# Grammars without useless productions

The productions that are kept are enough to derive a word from every nonterminal of theirs: first those are kept whose
nonterminals all derive words, and what is dropped then cannot be reached, so that no derivation from what is left
misses it. They are the productions that some derivation of a word uses: such a derivation needs no others, and a
nonterminal that can be reached by productive productions can be reached among letters that can all become words.

* `Grammar.mem_reachable_of_mem`: where a nonterminal is reachable, those of its bodies are.
* `Grammar.exists_word_productive`: the productive productions derive a word from each generator.
* `Grammar.finishing_removeUseless`: without useless productions every letter of a body can become a word.
* `Grammar.mem_removeUseless_iff_useful`: the productions that are kept are the useful ones.
* `Grammar.derives_removeUseless_iff`: the start derives the same words.
* `Grammar.removeUseless_exact`: with this, what is left is reachable and derives words, and a second removal changes
  nothing.
-/

namespace FormalLang

namespace Production

theorem mem_nonterminals {p : Production} {n : Int} : n ∈ p.nonterminals ↔ Letter.nonterminal n ∈ p.body := by
  have h (l : Letter) : l.nonterminal? = some n ↔ l = .nonterminal n := by
    cases l <;> simp [Letter.nonterminal?]
  simp [nonterminals, h]

end Production

namespace Grammar

variable {g : Grammar} {n m : Int} {u v : List Letter}

/-! ## Reachable nonterminals -/

theorem mem_successors : m ∈ g.successors n ↔ ∃ p ∈ g.productions, p.head = n ∧ Letter.nonterminal m ∈ p.body := by
  simp [successors, mem_productionsOf, Production.mem_nonterminals, and_assoc]

theorem mem_nonterminals_of_mem_successors (h : m ∈ g.successors n) : m ∈ g.nonterminals := by
  obtain ⟨p, hp, -, hb⟩ := mem_successors.mp h
  exact mem_nonterminals.mpr (.inr ⟨p, hp, .inr hb⟩)

/-- A search that stays among the nonterminals of the grammar finds all that it can find. -/
theorem mem_reach_iff {next : Int → List Int} (hnext : ∀ k, ∀ m ∈ next k, m ∈ g.nonterminals)
    (hn : n ∈ g.nonterminals) : m ∈ g.reach next n ↔ Search.Reach next [n] m := by
  rw [reach, OrderedSet.mem_ofList]
  refine Search.mem_found_iff (u := g.nonterminals.toList) ?_ (fun k _ => hnext k) (Nat.le_refl _)
  intro k hk
  rw [List.mem_singleton.mp hk]
  exact hn

theorem mem_reachable_iff : n ∈ g.reachable ↔ Search.Reach g.successors [g.start] n :=
  mem_reach_iff (fun _ _ => mem_nonterminals_of_mem_successors) (mem_nonterminals.mpr (.inl rfl))

theorem mem_reachable_of_mem {p : Production} (hp : p ∈ g.productions) (hh : p.head ∈ g.reachable)
    (hn : Letter.nonterminal n ∈ p.body) : n ∈ g.reachable :=
  mem_reachable_iff.mpr (.step (mem_reachable_iff.mp hh) (mem_successors.mpr ⟨p, hp, rfl, hn⟩))

/-! ## Productive productions -/

theorem mem_productive {p : Production} : p ∈ g.productive.productions ↔
    p ∈ g.productions ∧ p.head ∈ g.generators ∧ ∀ n, Letter.nonterminal n ∈ p.body → n ∈ g.generators := by
  simp only [productive, mem_retain, Production.mem_nonterminals]

/-- A production whose body can become a word is productive. -/
theorem mem_productive_of_canFinish {p : Production} (hp : p ∈ g.productions)
    (hb : canFinish g.generators p.body = true) : p ∈ g.productive.productions :=
  mem_productive.mpr ⟨hp, letterwise_canFinish.head_mem_mark hp hb, ((letterwise_canFinish _ _).mp hb).1⟩

/-- The productive productions derive a word from each generator. -/
theorem exists_word_productive (hn : n ∈ g.generators) :
    ∃ w : List Symbol, g.productive.Derives [.nonterminal n] (w.map .terminal) := by
  -- The marking itself uses productive productions only: its marks are generators.
  have h : ∀ n ∈ g.mark canFinish, n ∈ g.generators ∧ ∃ w : List Symbol, (∀ a ∈ w, True) ∧
      g.productive.Derives [.nonterminal n] (w.map .terminal) := by
    refine forall_mark fun p hp s hs ht => ?_
    have hp' := mem_productive_of_canFinish hp (letterwise_canFinish.mono (fun n hn => (hs n hn).1) ht)
    obtain ⟨w, hw, hd⟩ := letterwise_canFinish.exists_word (fun n hn => (hs n hn).2) ht
    exact ⟨(mem_productive.mp hp').2.1, w, hw, derives_head hp' hd⟩
  obtain ⟨-, w, -, hd⟩ := h n hn
  exact ⟨w, hd⟩

/-! ## Productions that can be reached -/

/-- The nonterminals of the sequence are reachable. -/
def Reaches (g : Grammar) (u : List Letter) : Prop := ∀ n, Letter.nonterminal n ∈ u → n ∈ g.reachable

theorem mem_retain_reachable {p : Production} (hp : p ∈ g.productions) (hh : p.head ∈ g.reachable) :
    p ∈ (g.retain g.reachable).productions :=
  mem_retain.mpr ⟨hp, hh, fun _ hn => mem_reachable_of_mem hp hh (Production.mem_nonterminals.mp hn)⟩

/-- What is derived from reachable nonterminals is derived by the productions that are kept. -/
theorem Derives.retain_reachable (hd : g.Derives u v) (hu : g.Reaches u) :
    (g.retain g.reachable).Derives u v ∧ g.Reaches v := by
  induction hd with
  | refl => exact ⟨.refl _, hu⟩
  | @step x y p _ hp ih =>
    obtain ⟨hd, hr⟩ := ih
    have hh : p.head ∈ g.reachable := hr p.head (by simp)
    refine ⟨.step hd (mem_retain_reachable hp hh), fun n hn => ?_⟩
    rcases List.mem_append.mp hn with hn | hn
    · rcases List.mem_append.mp hn with hn | hn
      · exact hr n (List.mem_append_left _ hn)
      · exact mem_reachable_of_mem hp hh hn
    · exact hr n (List.mem_append_right _ (.tail _ hn))

theorem mem_removeUseless {p : Production} : p ∈ g.removeUseless.productions ↔
    p ∈ g.productive.productions ∧ p.head ∈ g.productive.reachable := by
  refine ⟨fun h => ?_, fun ⟨hp, hh⟩ => mem_retain_reachable hp hh⟩
  obtain ⟨hp, hh, -⟩ := mem_retain.mp h
  exact ⟨hp, hh⟩

/-- Without useless productions every letter of a body can become a word. -/
theorem finishing_removeUseless (g : Grammar) : g.removeUseless.Finishing := by
  intro p hp n hn
  obtain ⟨hp, hh⟩ := mem_removeUseless.mp hp
  obtain ⟨w, hd⟩ := exists_word_productive ((mem_productive.mp hp).2.2 n hn)
  refine ⟨w, (hd.retain_reachable fun m hm => ?_).1⟩
  obtain rfl : m = n := by simpa using hm
  exact mem_reachable_of_mem hp hh hn

/-! ## Useful productions -/

theorem Derives.mono {g' : Grammar} (h : ∀ p ∈ g.productions, p ∈ g'.productions) (hd : g.Derives u v) :
    g'.Derives u v := by
  induction hd with
  | refl => exact .refl _
  | step _ hp ih => exact .step ih (h _ hp)

theorem mem_productions_of_mem_removeUseless {p : Production} (hp : p ∈ g.removeUseless.productions) :
    p ∈ g.productions := (mem_productive.mp (mem_removeUseless.mp hp).1).1

theorem reaches_start (g : Grammar) : g.Reaches [.nonterminal g.start] := by
  intro n hn
  obtain rfl : n = g.start := by simpa using hn
  exact mem_reachable_iff.mpr (.seed (.head _))

/-- A reachable nonterminal is derived among letters that have come from bodies. -/
theorem exists_derives_of_mem_reachable (h : n ∈ g.reachable) :
    ∃ x y, g.Derives [.nonterminal g.start] (x ++ .nonterminal n :: y) ∧
      ∀ l ∈ x ++ y, ∃ p ∈ g.productions, l ∈ p.body := by
  rw [mem_reachable_iff] at h
  induction h with
  | seed h =>
    obtain rfl := List.mem_singleton.mp h
    exact ⟨[], [], .refl _, nofun⟩
  | step _ hs ih =>
    obtain ⟨x, y, hd, hl⟩ := ih
    obtain ⟨p, hp, rfl, hn⟩ := mem_successors.mp hs
    obtain ⟨b, c, hbody⟩ := List.append_of_mem hn
    refine ⟨x ++ b, c ++ y, by simpa [hbody] using hd.step hp, fun l h => ?_⟩
    by_cases hb : l ∈ p.body
    · exact ⟨p, hp, hb⟩
    · refine hl l ?_
      simp_all

theorem mem_reachable_iff_derives :
    n ∈ g.reachable ↔ ∃ x y, g.Derives [.nonterminal g.start] (x ++ .nonterminal n :: y) := by
  constructor
  · intro h
    obtain ⟨x, y, hd, -⟩ := exists_derives_of_mem_reachable h
    exact ⟨x, y, hd⟩
  · rintro ⟨x, y, hd⟩
    exact (hd.retain_reachable (reaches_start g)).2 n (by simp)

/-- Productive productions that can be reached are reached among letters that can all become words. -/
theorem canFinish_of_mem_productive {p : Production} {x y : List Letter} (hp : p ∈ g.productive.productions)
    (hl : ∀ l ∈ x ++ y, ∃ q ∈ g.productive.productions, l ∈ q.body) :
    canFinish g.generators (x ++ p.body ++ y) = true := by
  refine (letterwise_canFinish _ _).mpr ⟨fun n hn => ?_, fun _ _ => trivial⟩
  by_cases hbody : .nonterminal n ∈ p.body
  · exact (mem_productive.mp hp).2.2 n hbody
  · obtain ⟨q, hq, hn⟩ := hl (.nonterminal n) (by simp_all)
    exact (mem_productive.mp hq).2.2 n hn

/-- A step to something that can become a word uses a productive production, and what the step starts from can become a
word as well. -/
theorem mem_productive_of_step {p : Production} {x y : List Letter} (hp : p ∈ g.productions)
    (h : canFinish g.generators (x ++ p.body ++ y) = true) :
    p ∈ g.productive.productions ∧ canFinish g.generators (x ++ .nonterminal p.head :: y) = true := by
  have hhead := letterwise_canFinish.test_of_derives ((Derives.refl _).step hp) h
  rw [letterwise_canFinish.append_iff, letterwise_canFinish.append_iff] at h
  exact ⟨mem_productive_of_canFinish hp h.1.2, hhead⟩

/-- A derivation of something that can become a word uses productive productions only. By induction from its end. -/
theorem Derives.productive (hd : g.Derives u v) (hv : canFinish g.generators v = true) :
    g.productive.Derives u v := by
  induction hd with
  | refl => exact .refl _
  | step _ hp ih =>
    obtain ⟨hproductive, hhead⟩ := mem_productive_of_step hp hv
    exact .step (ih hhead) hproductive

/-- The productions that are kept are those that a derivation of a word uses. -/
theorem mem_removeUseless_iff_useful {p : Production} :
    p ∈ g.removeUseless.productions ↔ p ∈ g.productions ∧ g.Useful p := by
  rw [mem_removeUseless]
  constructor
  · rintro ⟨hp, hh⟩
    obtain ⟨x, y, hd, hl⟩ := exists_derives_of_mem_reachable hh
    obtain ⟨w, hw⟩ := canFinish_generators_iff.mp (canFinish_of_mem_productive hp hl)
    have hd := hd.mono fun q hq => (mem_productive.mp hq).1
    exact ⟨(mem_productive.mp hp).1, x, y, _, hd, generates_iff.mpr ⟨w, hw, rfl⟩⟩
  · rintro ⟨hp, x, y, w, hd, hw⟩
    obtain ⟨w', hw', -⟩ := generates_iff.mp hw
    obtain ⟨hproductive, hhead⟩ := mem_productive_of_step hp (canFinish_generators_iff.mpr ⟨w', hw'⟩)
    -- The derivation up to the head needs no other productions, so it reaches the head without the dropped ones.
    exact ⟨hproductive, mem_reachable_iff_derives.mpr ⟨x, y, hd.productive hhead⟩⟩

/-- The start derives the same words by the productions that are kept. -/
theorem derives_removeUseless_iff {w : List Symbol} :
    g.removeUseless.Derives [.nonterminal g.start] (w.map .terminal) ↔
      g.Derives [.nonterminal g.start] (w.map .terminal) := by
  refine ⟨.mono fun p => mem_productions_of_mem_removeUseless, fun hd => ?_⟩
  have hw : canFinish g.generators (w.map .terminal) = true := canFinish_generators_iff.mpr ⟨w, .refl _⟩
  exact ((hd.productive hw).retain_reachable (reaches_start g.productive)).1

/-- A nonterminal of the productions that are kept can be reached by them. -/
theorem mem_reachable_removeUseless {p : Production} (hp : p ∈ g.removeUseless.productions)
    (hn : n = p.head ∨ .nonterminal n ∈ p.body) : n ∈ g.removeUseless.reachable := by
  obtain ⟨x, y, hd⟩ := mem_reachable_iff_derives.mp (mem_removeUseless.mp hp).2
  have hhead : p.head ∈ g.removeUseless.reachable :=
    mem_reachable_iff_derives.mpr ⟨x, y, (hd.retain_reachable (reaches_start g.productive)).1⟩
  rcases hn with rfl | hn
  · exact hhead
  · exact mem_reachable_of_mem hp hhead hn

/-- A nonterminal of the productions that are kept derives a word by them. -/
theorem mem_generators_removeUseless {p : Production} (hp : p ∈ g.removeUseless.productions)
    (hn : n = p.head ∨ .nonterminal n ∈ p.body) : n ∈ g.removeUseless.generators := by
  have hbody : g.removeUseless.Finishes p.body := finishing_removeUseless g p hp
  rcases hn with rfl | hn
  · obtain ⟨w, hw⟩ := hbody.exists_word
    exact mem_generators_iff.mpr ⟨w, derives_head hp hw⟩
  · exact mem_generators_iff.mpr (hbody n hn)

theorem retain_eq_self {keep : OrderedSet Int}
    (h : ∀ p ∈ g.productions, ∀ n, n = p.head ∨ .nonterminal n ∈ p.body → n ∈ keep) : g.retain keep = g := by
  have hall : g.productions.filter (fun p => p.head ∈ keep && p.nonterminals.all (· ∈ keep)) = g.productions := by
    refine List.filter_eq_self.mpr fun p hp => ?_
    rw [Bool.and_eq_true, List.all_eq_true]
    refine ⟨decide_eq_true (h p hp p.head (.inl rfl)), fun n hn => decide_eq_true (h p hp n (.inr ?_))⟩
    exact Production.mem_nonterminals.mp hn
  rw [retain, hall]

theorem removeUseless_removeUseless (g : Grammar) : g.removeUseless.removeUseless = g.removeUseless := by
  have hproductive : g.removeUseless.productive = g.removeUseless :=
    retain_eq_self fun _ hp _ hn => mem_generators_removeUseless hp hn
  rw [removeUseless, hproductive]
  exact retain_eq_self fun _ hp _ hn => mem_reachable_removeUseless hp hn

/-- The productions that are left when the useless ones are removed are those that a derivation of a word from the start
uses, in their order and as often as they were there. The start derives the same words by them, all their nonterminals
can be reached and derive words by them, and a second removal changes nothing. -/
theorem removeUseless_exact (g : Grammar) :
    (∃ keep : Production → Bool, (∀ p ∈ g.productions, keep p = true ↔ g.Useful p) ∧
        g.removeUseless.productions = g.productions.filter keep) ∧
      (∀ w : List Symbol, g.removeUseless.Derives [.nonterminal g.removeUseless.start] (w.map .terminal) ↔
        g.Derives [.nonterminal g.start] (w.map .terminal)) ∧
      (∀ p ∈ g.removeUseless.productions, ∀ n, n = p.head ∨ .nonterminal n ∈ p.body →
        (n ∈ g.removeUseless.reachable ∧
          ∃ x y, g.removeUseless.Derives [.nonterminal g.removeUseless.start] (x ++ .nonterminal n :: y)) ∧
        n ∈ g.removeUseless.generators ∧
          ∃ w : List Symbol, g.removeUseless.Derives [.nonterminal n] (w.map .terminal)) ∧
      g.removeUseless.removeUseless = g.removeUseless := by
  refine ⟨?_, fun w => derives_removeUseless_iff, fun p hp n hn => ?_, removeUseless_removeUseless g⟩
  · have hfilter : ∃ keep, g.removeUseless.productions = g.productions.filter keep := ⟨_, List.filter_filter⟩
    obtain ⟨keep, hkeep⟩ := hfilter
    refine ⟨keep, fun p hp => ?_, hkeep⟩
    have hmem : p ∈ g.productions.filter keep ↔ p ∈ g.productions ∧ g.Useful p := hkeep ▸ mem_removeUseless_iff_useful
    simpa [hp] using hmem
  · have hreach := mem_reachable_removeUseless hp hn
    have hgenerator := mem_generators_removeUseless hp hn
    exact ⟨⟨hreach, mem_reachable_iff_derives.mp hreach⟩, hgenerator, mem_generators_iff.mp hgenerator⟩

/-- A grammar in which a nonterminal derives a word but occurs only beside one that derives none; the start replaces
itself, and a production is written twice. -/
def overgrown : Grammar where
  start := 0
  productions := [
    ⟨0, [.nonterminal 1, .nonterminal 2]⟩, ⟨0, [.terminal "a"]⟩, ⟨0, [.nonterminal 0]⟩,
    ⟨1, [.terminal "b"]⟩, ⟨2, [.nonterminal 2, .terminal "c"]⟩, ⟨0, [.terminal "a"]⟩]

/-- The production that replaces the start by itself is used in a derivation of a word. The one of the nonterminal that
derives a word is not: what it stands beside never ends. -/
theorem removeUseless_exact_overgrown :
    overgrown.removeUseless.productions = [⟨0, [.terminal "a"]⟩, ⟨0, [.nonterminal 0]⟩, ⟨0, [.terminal "a"]⟩] ∧
      ⟨0, [.nonterminal 0]⟩ ∈ overgrown.productions ∧ overgrown.Useful ⟨0, [.nonterminal 0]⟩ ∧
      ⟨1, [.terminal "b"]⟩ ∈ overgrown.productions ∧ ¬ overgrown.Useful ⟨1, [.terminal "b"]⟩ ∧
      (∃ w : List Symbol, overgrown.removeUseless.Derives [.nonterminal 0] (w.map .terminal)) ∧
      overgrown.removeUseless.removeUseless = overgrown.removeUseless := by
  obtain ⟨⟨keep, hkeep, hproductions⟩, -, hletters, htwice⟩ := removeUseless_exact overgrown
  have hvalue : overgrown.removeUseless.productions =
      [⟨0, [.terminal "a"]⟩, ⟨0, [.nonterminal 0]⟩, ⟨0, [.terminal "a"]⟩] := by decide +kernel
  have hself : ⟨0, [.nonterminal 0]⟩ ∈ overgrown.productions := by decide
  have hother : ⟨1, [.terminal "b"]⟩ ∈ overgrown.productions := by decide
  have hmem (p : Production) : p ∈ overgrown.removeUseless.productions ↔ p ∈ overgrown.productions ∧ keep p = true := by
    rw [hproductions, List.mem_filter]
  refine ⟨hvalue, hself, ?_, hother, fun h => ?_, ?_, htwice⟩
  · exact (hkeep _ hself).mp ((hmem _).mp (by rw [hvalue]; decide)).2
  · have h' := (hmem _).mpr ⟨hother, (hkeep _ hother).mpr h⟩
    rw [hvalue] at h'
    exact absurd h' (by decide)
  · exact (hletters ⟨0, [.terminal "a"]⟩ (by rw [hvalue]; decide) 0 (.inl rfl)).2.2

end Grammar

end FormalLang
