import FormalLang.Proofs.Grammar.Useful
import FormalLang.Proofs.Item.Query

/-!
# Valid items and the canonical collection

The items that a sequence of letters leads to, from the items that begin the productions of the start, are the valid
ones. Shifts and predictions keep items valid, as long as every letter behind the dot can become a word, which is so in
a grammar without useless productions. Conversely a rightmost derivation is followed from its start: each of its steps
replaces a nonterminal that was predicted when the letters before it had been recognized.

* `Grammar.Valid.shift`, `Grammar.Valid.predict`: shifts and predictions keep items valid.
* `Grammar.reached_of_rightDerives`: what a rightmost derivation can replace is predicted.
* `Grammar.reached_iff_valid`: the items that a sequence leads to are the valid ones.
* `Memo.collect_valid`: the state that a sequence leads to holds exactly the items that are valid for it.
-/

namespace FormalLang

open FirstFollow

variable {g : Grammar} {i j : Item} {l : Letter} {γ : List Letter} {s : ItemSet}

/-! ## Lookaheads of words -/

theorem lookaheadOf_append {v w : List Symbol} : lookaheadOf (v ++ w) = (v.find? (· ≠ epsilon)).getD (lookaheadOf w) := by
  rw [lookaheadOf, List.find?_append]
  cases v.find? (· ≠ epsilon) <;> rfl

namespace Production

/-- A body with a nonterminal is not ε alone. -/
theorem core_eq_body {p : Production} {n : Int} (h : Letter.nonterminal n ∈ p.body) : p.core = p.body := by
  refine if_neg fun hb => ?_
  simp [hb] at h

end Production

namespace Grammar

variable {rest : List Letter} {w : List Symbol}

/-- What can follow comes after the nonterminal in some word. -/
theorem Finishing.exists_word_of_canFollow (hf : g.Finishing) (hrest : g.Finishes rest) {b : Option Symbol}
    (hb : g.CanFollow rest (some (lookaheadOf w)) b) :
    ∃ v : List Symbol, g.Derives rest (v.map .terminal) ∧ b = some (lookaheadOf (v ++ w)) := by
  rcases hb with ⟨a, rfl, ha⟩ | ⟨rfl, hv⟩
  · obtain ⟨v, hd, hv⟩ := hf.exists_word_of_begins hrest ha
    exact ⟨v, hd, by rw [lookaheadOf_append, hv, Option.getD_some]⟩
  · obtain ⟨v, hd, hv⟩ := generates_iff.mp hv
    have hnone : v.find? (· ≠ epsilon) = none := by rw [← List.head?_filter, hv, List.head?_nil]
    exact ⟨v, hd, by rw [lookaheadOf_append, hnone, Option.getD_none]⟩

/-- What comes after the nonterminal in some word can follow. -/
theorem canFollow_lookaheadOf {v : List Symbol} (hd : g.Derives rest (v.map .terminal)) :
    g.CanFollow rest (some (lookaheadOf w)) (some (lookaheadOf (v ++ w))) := by
  rw [lookaheadOf_append]
  exact canFollow_of_word hd _

/-! ## Valid items -/

theorem Valid.shift (hg : g.Undotted) (h : g.Valid γ i) (hl : i.next? = some l) : g.Valid (γ ++ [l]) i.shift := by
  obtain ⟨p, hp, δ, α, β, w, hd, rfl, hcore, rfl⟩ := h
  obtain ⟨rest, ha⟩ := Item.next?_eq_some_iff.mp hl
  obtain rfl := Option.some.inj ((Item.after?_dotted (hg p hp) hcore _).symm.trans ha)
  refine ⟨p, hp, δ, α ++ [l], rest, w, hd, (List.append_assoc _ _ _).symm, by simpa using hcore, ?_⟩
  exact Item.shift_dotted (hg p hp) hcore _

/-- The rest of the body of a valid item becomes a word, and then the predicted nonterminal is the last one. -/
theorem Valid.predict (hg : g.Undotted) (hf : g.Finishing) (h : g.Valid γ i) (hij : g.Predicts i j) :
    g.Valid γ j := by
  obtain ⟨p, hp, δ, α, β, w, hd, rfl, hcore, rfl⟩ := h
  obtain ⟨n, rest, b, q, ha, hb, hq, rfl, rfl⟩ := predicts_iff.mp hij
  obtain rfl := Option.some.inj ((Item.after?_dotted (hg p hp) hcore _).symm.trans ha)
  have hmem : Letter.nonterminal q.head ∈ p.core := by simp [hcore]
  have hbody : p.body = α ++ .nonterminal q.head :: rest := by
    rw [← Production.core_eq_body (Production.mem_core hmem), hcore]
  have hrest : g.Finishes rest := fun m hm => hf p hp m (by simp [hbody, hm])
  obtain ⟨v, hv, rfl⟩ := hf.exists_word_of_canFollow hrest hb
  have hnext : g.RightDerives [.nonterminal g.start] (δ ++ p.body ++ w.map .terminal) := .step hd hp
  have hword := hv.rightmost.context (δ ++ α ++ [.nonterminal q.head]) w
  refine ⟨q, hq, δ ++ α, [], q.core, v ++ w, ?_, List.append_nil _, rfl, rfl⟩
  rw [hbody] at hnext
  simpa using hnext.trans (by simpa using hword)

/-! ## The items that begin the productions of the start -/

/-- The items that begin the productions of the start, before the end of the word. -/
def startItems (g : Grammar) : ItemSet :=
  OrderedSet.ofList ((g.productionsOf g.start).map (·.initialItem (some endMarker)))

theorem mem_startItems :
    i ∈ g.startItems ↔ ∃ p ∈ g.productions, p.head = g.start ∧ p.initialItem (some endMarker) = i := by
  simp [startItems, mem_productionsOf, and_assoc]

theorem fits_of_mem_startItems (h : i ∈ g.startItems) : i.Fits g := by
  obtain ⟨p, hp, -, rfl⟩ := mem_startItems.mp h
  exact Item.fits_initialItem hp _

theorem valid_of_mem_startItems (h : i ∈ g.startItems) : g.Valid [] i := by
  obtain ⟨p, hp, hs, rfl⟩ := mem_startItems.mp h
  refine ⟨p, hp, [], [], p.core, [], ?_, rfl, rfl, rfl⟩
  rw [hs]
  exact .refl _

theorem valid_of_reached (hg : g.Undotted) (hf : g.Finishing) (h : g.Reached g.startItems γ i) : g.Valid γ i := by
  induction h with
  | seed h => exact valid_of_mem_startItems h
  | shift _ hl ih => exact ih.shift hg hl
  | predict _ hp ih => exact ih.predict hg hf hp

/-! ## Rightmost derivations are followed -/

/-- The dot of an item is shifted along the letters behind it. -/
theorem Reached.shift_all (hg : g.Undotted) {p : Production} (hp : p ∈ g.productions) {a : Option Symbol}
    (α : List Letter) {β : List Letter} (hcore : p.core = α ++ β) (h : g.Reached s γ (p.initialItem a)) :
    g.Reached s (γ ++ α) ⟨p.head, α ++ dot :: β, a⟩ := by
  induction α using List.reverseRecOn generalizing β with
  | nil =>
    obtain rfl : p.core = β := hcore
    rw [List.append_nil]
    exact h
  | append_singleton α l ih =>
    have hcore : p.core = α ++ l :: β := by simpa using hcore
    rw [← List.append_assoc, ← Item.shift_dotted (hg p hp) hcore]
    exact .shift (ih hcore) (Item.next?_eq_some_iff.mpr ⟨β, Item.after?_dotted (hg p hp) hcore a⟩)

/-- Terminals at the end of what derives a word are the end of the word. -/
theorem exists_derives_append_map_terminal {u : List Letter} {w w₀ : List Symbol}
    (h : g.Derives (u ++ w₀.map .terminal) (w.map .terminal)) :
    ∃ w₁ : List Symbol, g.Derives u (w₁.map .terminal) ∧ w = w₁ ++ w₀ := by
  have hinj : Function.Injective Letter.terminal := fun a b h => Letter.terminal.inj h
  obtain ⟨y, z, hy, hz, hw⟩ := derives_append_iff.mp h
  obtain rfl := derives_map_terminal_iff.mp hz
  obtain ⟨w₁, w₂, rfl, rfl, h₂⟩ := List.map_eq_append_iff.mp hw
  obtain rfl := (List.map_inj_right hinj).mp h₂
  exact ⟨w₁, hy, rfl⟩

/-- Wherever a nonterminal stands in a sequence that is derived rightmost, its productions have been predicted when the
letters before it have been recognized, and for every word that the letters behind it can become. By induction on the
derivation: the nonterminal stood there before the last step, or the step has put it there. -/
theorem reached_of_rightDerives (hg : g.Undotted) {σ : List Letter} (h : g.RightDerives [.nonterminal g.start] σ)
    {δ ζ : List Letter} {p : Production} {w : List Symbol} (hp : p ∈ g.productions)
    (hσ : σ = δ ++ .nonterminal p.head :: ζ) (hw : g.Derives ζ (w.map .terminal)) :
    g.Reached g.startItems δ (p.initialItem (some (lookaheadOf w))) := by
  induction h generalizing δ ζ p w with
  | refl =>
    obtain ⟨rfl, h⟩ | ⟨-, h⟩ := List.append_eq_singleton_iff.mp hσ.symm
    · obtain ⟨hs, rfl⟩ := List.cons.inj h
      obtain rfl : w = [] := List.map_eq_nil_iff.mp ((derives_map_terminal_iff (w := [])).mp hw)
      exact .seed (mem_startItems.mpr ⟨p, hp, Letter.nonterminal.inj hs, rfl⟩)
    · cases h
  | @step x q w₀ _ hq ih =>
    rcases append_eq_append_cons hσ with ⟨m, hm, rfl⟩ | ⟨m, -, hm⟩
    · rcases append_eq_append_cons hm with ⟨m, rfl, rfl⟩ | ⟨k, rfl, hbody⟩
      · -- The nonterminal stood there before the step.
        have hbefore : g.Derives (m ++ .nonterminal q.head :: w₀.map .terminal) (m ++ q.body ++ w₀.map .terminal) := by
          simpa using (Derives.production hq).context m (w₀.map .terminal)
        refine ih hp ?_ (hbefore.trans (by simpa using hw))
        simp
      · -- The step has put the nonterminal there.
        obtain ⟨w₁, hw₁, rfl⟩ := exists_derives_append_map_terminal hw
        have hmem : Letter.nonterminal p.head ∈ q.body := by simp [hbody]
        have hcore : q.core = k ++ .nonterminal p.head :: m := (Production.core_eq_body hmem).trans hbody
        have hq' := Reached.shift_all hg hq k hcore (ih hq rfl (.refl _))
        refine hq'.predict (predicts_iff.mpr ⟨p.head, m, _, p, Item.after?_dotted (hg q hq) hcore _, ?_, hp, rfl, rfl⟩)
        exact canFollow_lookaheadOf hw₁
    · have hmem : Letter.nonterminal p.head ∈ w₀.map Letter.terminal := by simp [hm]
      exact absurd hmem (Letter.nonterminal_not_mem_map_terminal _ _)

theorem reached_of_valid (hg : g.Undotted) (h : g.Valid γ i) : g.Reached g.startItems γ i := by
  obtain ⟨p, hp, δ, α, β, w, hd, rfl, hcore, rfl⟩ := h
  exact (reached_of_rightDerives hg hd hp rfl (.refl _)).shift_all hg hp α hcore

/-- The items that a sequence leads to are the valid ones. -/
theorem reached_iff_valid (hg : g.Undotted) (hf : g.Finishing) : g.Reached g.startItems γ i ↔ g.Valid γ i :=
  ⟨valid_of_reached hg hf, reached_of_valid hg⟩

end Grammar

/-! ## The collection of a grammar without useless productions -/

/-- In a grammar without useless productions, whose start has productions and whose terminals are not the dot, a
sequence of letters can be followed if some item is valid for it, and the state that it leads to holds exactly the items
that are valid for it. -/
theorem Memo.collect_valid (m : Memo)
    (hstart : ∃ p ∈ m.removeUseless.grammar.productions, p.head = m.removeUseless.grammar.start)
    (hdot : ∀ p ∈ m.removeUseless.grammar.productions, dot ∉ p.body) :
    ∃ c, (m.removeUseless.collect m.removeUseless.grammar.startItems).1 = .ok c ∧
      (∀ γ, (∃ k, c.run? 0 γ = some k) ↔ ∃ i, m.removeUseless.grammar.Valid γ i) ∧
      ∀ γ k, c.run? 0 γ = some k →
        ∃ s, c.states[k]? = some s ∧ ∀ i, i ∈ s ↔ m.removeUseless.grammar.Valid γ i := by
  have hm : m.removeUseless.Coherent := coherent_setProductions _ _
  have hf : m.removeUseless.grammar.Finishing := m.grammar.finishing_removeUseless
  generalize m.removeUseless = m at hstart hdot hm hf ⊢
  have hfits : ∀ i ∈ m.grammar.startItems, i.Fits m.grammar := fun i => Grammar.fits_of_mem_startItems
  obtain ⟨c, hc, hcollection⟩ := Grammar.exists_collect hfits
  refine ⟨c, ?_, fun γ => ?_, fun γ k hk => ?_⟩
  · exact hm.collect_eq_ok hc
  · rw [hcollection.exists_run?_iff hfits]
    simp only [Grammar.reached_iff_valid hdot hf]
    refine ⟨?_, .inr⟩
    rintro (rfl | h)
    · obtain ⟨p, hp, hs⟩ := hstart
      exact ⟨_, Grammar.valid_of_mem_startItems (Grammar.mem_startItems.mpr ⟨p, hp, hs, rfl⟩)⟩
    · exact h
  · obtain ⟨s, hs, hmem⟩ := hcollection.mem_state_iff hfits hk
    exact ⟨s, hs, fun i => (hmem i).trans (Grammar.reached_iff_valid hdot hf)⟩

/-- A grammar in which a nonterminal that may vanish comes last, and whose fourth and last productions are useless. -/
def vanishingEnd : Memo where
  grammar := {
    start := 0
    productions := [
      ⟨0, [.terminal "d", .nonterminal 1, .nonterminal 2]⟩,
      ⟨1, [.nonterminal 1, .terminal "b"]⟩, ⟨1, [.terminal "b"]⟩, ⟨1, [.nonterminal 4, .terminal "e"]⟩,
      ⟨2, [.terminal "a"]⟩, ⟨2, [.terminal epsilon]⟩,
      ⟨3, [.terminal "c"]⟩] }

/-- After "d" a "b" may come, with "a", "b" or the end after it, the last since what comes last may vanish. -/
theorem Memo.collect_valid_vanishingEnd :
    (∃ p ∈ vanishingEnd.removeUseless.grammar.productions, p.head = vanishingEnd.removeUseless.grammar.start) ∧
    (∀ p ∈ vanishingEnd.removeUseless.grammar.productions, dot ∉ p.body) ∧
    ∃ c, (vanishingEnd.removeUseless.collect vanishingEnd.removeUseless.grammar.startItems).1 = .ok c ∧
      c.run? 0 [.terminal "d"] = some 1 ∧
      vanishingEnd.removeUseless.grammar.Valid [.terminal "d"] ⟨1, [dot, .terminal "b"], some "a"⟩ ∧
      vanishingEnd.removeUseless.grammar.Valid [.terminal "d"] ⟨1, [dot, .terminal "b"], some endMarker⟩ ∧
      ¬ vanishingEnd.removeUseless.grammar.Valid [.terminal "d"] ⟨1, [dot, .terminal "b"], some "d"⟩ ∧
      ¬ ∃ i, vanishingEnd.removeUseless.grammar.Valid [.terminal "c"] i := by
  have hstart : ∃ p ∈ vanishingEnd.removeUseless.grammar.productions,
      p.head = vanishingEnd.removeUseless.grammar.start := by decide
  have hdot : ∀ p ∈ vanishingEnd.removeUseless.grammar.productions, dot ∉ p.body := by decide
  obtain ⟨c, hc, hruns, hstates⟩ := Memo.collect_valid vanishingEnd hstart hdot
  have hvalue : (vanishingEnd.removeUseless.collect vanishingEnd.removeUseless.grammar.startItems).1.map
      (fun c => (c.run? 0 [.terminal "d"], c.run? 0 [.terminal "c"], c.states[1]?.map fun s : ItemSet =>
        [some "a", some endMarker, some "d"].map fun a => decide (⟨1, [dot, .terminal "b"], a⟩ ∈ s))) =
      .ok (some 1, none, some [true, true, false]) := by
    decide +kernel
  rw [hc] at hvalue
  obtain ⟨hd, hnone, hs⟩ : c.run? 0 [.terminal "d"] = some 1 ∧ c.run? 0 [.terminal "c"] = none ∧ _ := by
    simpa using Except.ok.inj hvalue
  obtain ⟨s, hs1, hvalid⟩ := hstates _ _ hd
  simp only [← hvalid, ← hruns, hnone]
  refine ⟨hstart, hdot, c, hc, hd, ?_⟩
  simpa [hs1] using hs

end FormalLang
