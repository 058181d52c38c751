import FormalLang.Proofs.Grammar.Useful
import FormalLang.Proofs.Item.Query

/-!
# Items without their lookaheads

Lookaheads tell the items of a state apart, but not where a sequence of letters leads. An item with a lookahead predicts
a nonterminal with at least one lookahead, if the letters behind that nonterminal can become a word, and this is so in a
grammar without useless productions. So the items that are reached from items with lookaheads are, without them, those
that are reached from the items without lookaheads.

* `ItemSet.goto_eraseLookaheads`: the dot passes a letter whatever the lookaheads are.
* `Item.Sighted`: an item with a lookahead whose nonterminals become words; shifts and predictions of such items are
  such items.
* `Item.Sighted.exists_predicts`: what a sighted item predicts without its lookahead, it predicts with one.
* `Grammar.reached_eraseLookaheads_iff`: the items that a sequence leads to.
* `Memo.collect_eraseLookaheads`: closures, shifted items and collections without lookaheads.
-/

namespace FormalLang

open Relation

variable {g : Grammar} {i j : Item} {l : Letter} {rest : List Letter} {γ : List Letter} {s : ItemSet}

/-! ## The dot without lookaheads -/

namespace Item

@[simp] theorem after?_eraseLookahead (i : Item) : i.eraseLookahead.after? = i.after? := rfl

@[simp] theorem shift_eraseLookahead (i : Item) : i.eraseLookahead.shift = i.shift.eraseLookahead := by
  unfold shift
  rw [after?_eraseLookahead]
  split <;> rfl

theorem Fits.eraseLookahead (h : i.Fits g) : i.eraseLookahead.Fits g := ⟨h.hasDot, h.mem_nonterminals⟩

end Item

namespace ItemSet

@[simp] theorem mem_eraseLookaheads : j ∈ s.eraseLookaheads ↔ ∃ i ∈ s, i.eraseLookahead = j := OrderedSet.mem_image

theorem fits_of_mem_eraseLookaheads (hs : ∀ i ∈ s, i.Fits g) (h : i ∈ s.eraseLookaheads) : i.Fits g := by
  obtain ⟨i, hi, rfl⟩ := mem_eraseLookaheads.mp h
  exact (hs i hi).eraseLookahead

theorem shifted_eraseLookaheads (s : ItemSet) (l : Letter) :
    s.eraseLookaheads.shifted l = (s.shifted l).eraseLookaheads := by
  refine OrderedSet.ext fun j => ?_
  simp only [mem_shifted, mem_eraseLookaheads]
  constructor
  · rintro ⟨_, ⟨⟨i, hi, rfl⟩, hl⟩, rfl⟩
    exact ⟨i.shift, ⟨i, ⟨hi, hl⟩, rfl⟩, i.shift_eraseLookahead.symm⟩
  · rintro ⟨_, ⟨i, ⟨hi, hl⟩, rfl⟩, rfl⟩
    exact ⟨i.eraseLookahead, ⟨⟨i, hi, rfl⟩, hl⟩, i.shift_eraseLookahead⟩

theorem all_hasDot_eraseLookaheads (s : ItemSet) :
    s.eraseLookaheads.toList.all Item.hasDot = s.toList.all Item.hasDot := by
  rw [Bool.eq_iff_iff, List.all_eq_true, List.all_eq_true]
  constructor
  · exact fun h i hi => h i.eraseLookahead (mem_eraseLookaheads.mpr ⟨i, hi, rfl⟩)
  · intro h j hj
    obtain ⟨i, hi, rfl⟩ := mem_eraseLookaheads.mp hj
    exact h i hi

/-- The dot passes a letter whatever the lookaheads are. -/
theorem goto_eraseLookaheads (s : ItemSet) (l : Letter) :
    s.eraseLookaheads.goto l = (s.goto l).map eraseLookaheads := by
  rw [goto, goto, all_hasDot_eraseLookaheads, shifted_eraseLookaheads]
  split <;> rfl

end ItemSet

/-! ## Predictions -/

theorem Grammar.Predicts.eraseLookahead (h : g.Predicts i j) : g.Predicts i.eraseLookahead j.eraseLookahead := by
  obtain ⟨n, rest, b, p, ha, -, hp, hn, rfl⟩ := predicts_iff.mp h
  exact predicts_iff.mpr ⟨n, rest, none, p, ha, rfl, hp, hn, rfl⟩

/-- Something can follow before letters that become a word. -/
theorem Grammar.Finishes.exists_canFollow (h : g.Finishes rest) (a : Symbol) :
    ∃ b : Symbol, g.CanFollow rest (some a) (some b) := by
  obtain ⟨w, hw⟩ := h.exists_word
  exact ⟨_, canFollow_of_word hw a⟩

namespace Item

/-- The item has a lookahead, and its nonterminals become words. -/
structure Sighted (g : Grammar) (i : Item) : Prop where
  lookahead : i.lookahead.isSome = true
  finishes : g.Finishes i.body

theorem sighted_initialItem (hg : g.Finishing) {p : Production} (hp : p ∈ g.productions) (b : Symbol) :
    (p.initialItem (some b)).Sighted g where
  lookahead := rfl
  finishes n hn := hg p hp n ((dots_initialItem p _).mem_body hn)

theorem Dots.sighted (hg : g.Finishing) {p : Production} (h : i.Dots p) (hp : p ∈ g.productions)
    (ha : i.lookahead.isSome = true) : i.Sighted g where
  lookahead := ha
  finishes n hn := hg p hp n (h.mem_body hn)

namespace Sighted

theorem shift (h : i.Sighted g) : i.shift.Sighted g where
  lookahead := by rw [shift_lookahead, h.lookahead]
  finishes n hn := h.finishes n ((shift_body_perm i).mem_iff.mp hn)

/-- What can follow in a sighted item is a terminal. -/
theorem of_predicts (h : i.Sighted g) (hg : g.Finishing) (hij : g.Predicts i j) : j.Sighted g := by
  obtain ⟨n, rest, b, p, -, hb, hp, -, rfl⟩ := Grammar.predicts_iff.mp hij
  obtain ⟨a, ha⟩ := Option.isSome_iff_exists.mp h.lookahead
  rw [ha] at hb
  obtain ⟨c, rfl, -⟩ | ⟨rfl, -⟩ := hb
  · exact sighted_initialItem hg hp c
  · exact sighted_initialItem hg hp a

/-- What a sighted item predicts without its lookahead, it predicts with one. -/
theorem exists_predicts (h : i.Sighted g) (hij : g.Predicts i.eraseLookahead j) :
    ∃ k, g.Predicts i k ∧ k.eraseLookahead = j := by
  obtain ⟨n, rest, b, p, hafter, hb, hp, hn, rfl⟩ := Grammar.predicts_iff.mp hij
  obtain rfl : b = none := hb
  obtain ⟨a, ha⟩ := Option.isSome_iff_exists.mp h.lookahead
  have hrest : g.Finishes rest := fun m hm => h.finishes m (mem_body_of_after? (i := i) hafter (.tail _ hm))
  obtain ⟨c, hc⟩ := hrest.exists_canFollow a
  exact ⟨p.initialItem (some c), Grammar.predicts_iff.mpr ⟨n, rest, _, p, hafter, by rw [ha]; exact hc, hp, hn, rfl⟩, rfl⟩

end Sighted

end Item

/-! ## What sequences lead to -/

namespace Grammar

theorem Reached.sighted (hg : g.Finishing) (hs : ∀ i ∈ s, i.Sighted g) (h : g.Reached s γ i) : i.Sighted g := by
  induction h with
  | seed h => exact hs _ h
  | shift _ _ ih => exact ih.shift
  | predict _ hp ih => exact ih.of_predicts hg hp

theorem Reached.eraseLookahead (h : g.Reached s γ i) : g.Reached s.eraseLookaheads γ i.eraseLookahead := by
  induction h with
  | seed h => exact .seed (ItemSet.mem_eraseLookaheads.mpr ⟨_, h, rfl⟩)
  | shift _ hl ih =>
    rw [← Item.shift_eraseLookahead]
    exact .shift ih hl
  | predict _ hp ih => exact .predict ih hp.eraseLookahead

/-- The items that a sequence leads to without lookaheads are those that it leads to with them, when they are erased. -/
theorem reached_eraseLookaheads_iff (hg : g.Finishing) (hs : ∀ i ∈ s, i.Sighted g) :
    g.Reached s.eraseLookaheads γ j ↔ ∃ i, g.Reached s γ i ∧ i.eraseLookahead = j := by
  constructor
  · intro h
    induction h with
    | seed h =>
      obtain ⟨i, hi, rfl⟩ := ItemSet.mem_eraseLookaheads.mp h
      exact ⟨i, .seed hi, rfl⟩
    | shift _ hl ih =>
      obtain ⟨i, hi, rfl⟩ := ih
      exact ⟨i.shift, .shift hi hl, i.shift_eraseLookahead.symm⟩
    | predict _ hp ih =>
      obtain ⟨i, hi, rfl⟩ := ih
      obtain ⟨k, hk, rfl⟩ := (hi.sighted hg hs).exists_predicts hp
      exact ⟨k, .predict hi hk, rfl⟩
  · rintro ⟨i, hi, rfl⟩
    exact hi.eraseLookahead

theorem closedSet_eraseLookaheads (hg : g.Finishing) (hfits : ∀ i ∈ s, i.Fits g) (hs : ∀ i ∈ s, i.Sighted g) :
    g.closedSet s.eraseLookaheads = (g.closedSet s).eraseLookaheads := by
  refine OrderedSet.ext fun j => ?_
  rw [mem_closedSet_iff fun _ hi => ItemSet.fits_of_mem_eraseLookaheads hfits hi, ← reached_nil_iff,
    reached_eraseLookaheads_iff hg hs, ItemSet.mem_eraseLookaheads]
  simp only [reached_nil_iff, mem_closedSet_iff hfits]

section Collections

variable {c d : Collection} (hg : g.Finishing) (hfits : ∀ i ∈ s, i.Fits g) (hs : ∀ i ∈ s, i.Sighted g)
  (hc : g.IsCollection (g.closedSet s) c) (hd : g.IsCollection (g.closedSet s.eraseLookaheads) d)
include hg hfits hs hc hd

/-- Without lookaheads the same sequences can be followed. -/
theorem exists_run?_eraseLookaheads_iff : (∃ k, d.run? 0 γ = some k) ↔ ∃ k, c.run? 0 γ = some k := by
  rw [hd.exists_run?_iff fun _ hi => ItemSet.fits_of_mem_eraseLookaheads hfits hi, hc.exists_run?_iff hfits]
  simp only [reached_eraseLookaheads_iff hg hs]
  refine or_congr_right ⟨?_, ?_⟩
  · rintro ⟨_, i, hi, -⟩
    exact ⟨i, hi⟩
  · rintro ⟨i, hi⟩
    exact ⟨_, i, hi, rfl⟩

/-- Without lookaheads a sequence leads to the same items. -/
theorem states_eraseLookaheads {k m : Nat} (hk : c.run? 0 γ = some k) (hm : d.run? 0 γ = some m) :
    ∃ t, c.states[k]? = some t ∧ d.states[m]? = some t.eraseLookaheads := by
  obtain ⟨t, ht, hct⟩ := hc.mem_state_iff hfits hk
  obtain ⟨u, hu, hdu⟩ := hd.mem_state_iff (fun _ hi => ItemSet.fits_of_mem_eraseLookaheads hfits hi) hm
  have htu : u = t.eraseLookaheads := OrderedSet.ext fun j => by
    rw [hdu, reached_eraseLookaheads_iff hg hs, ItemSet.mem_eraseLookaheads]
    simp only [hct]
  exact ⟨t, ht, htu ▸ hu⟩

end Collections

end Grammar

/-! ## Grammars without useless productions -/

/-- In a grammar without useless productions, for dotted productions with lookaheads: the closure of the items without
their lookaheads is their closure without its lookaheads, the dot passes a letter whatever the lookaheads are, the same
sequences of letters can be followed in the collections made with and without lookaheads, and the states that a sequence
leads to are the same when lookaheads are erased. -/
theorem Memo.collect_eraseLookaheads (m : Memo) (s : ItemSet)
    (hs : ∀ i ∈ s, (∃ p ∈ m.removeUseless.grammar.productions, i.Dots p) ∧ i.lookahead.isSome = true) :
    (∃ t, (m.removeUseless.closure s).1 = .ok t ∧
      (m.removeUseless.closure s.eraseLookaheads).1 = .ok t.eraseLookaheads ∧
      ∀ l, ∃ u, t.goto l = .ok u ∧ t.eraseLookaheads.goto l = .ok u.eraseLookaheads) ∧
    (∀ (t : ItemSet) l, t.eraseLookaheads.goto l = (t.goto l).map ItemSet.eraseLookaheads) ∧
    ∃ c d, (m.removeUseless.collect s).1 = .ok c ∧ (m.removeUseless.collect s.eraseLookaheads).1 = .ok d ∧
      (∀ γ, (∃ k, c.run? 0 γ = some k) ↔ ∃ k, d.run? 0 γ = some k) ∧
      ∀ γ j k, c.run? 0 γ = some j → d.run? 0 γ = some k →
        ∃ t, c.states[j]? = some t ∧ d.states[k]? = some t.eraseLookaheads := by
  have hm : m.removeUseless.Coherent := coherent_setProductions _ _
  have hg : m.removeUseless.grammar.Finishing := by
    rw [grammar_removeUseless]
    exact m.grammar.finishing_removeUseless
  generalize m.removeUseless = m at hs hm hg ⊢
  have hfits : ∀ i ∈ s, i.Fits m.grammar := by
    intro i hi
    obtain ⟨⟨p, hp, hd⟩, -⟩ := hs i hi
    exact hd.fits fun n hn => Grammar.mem_nonterminals.mpr (.inr ⟨p, hp, .inr hn⟩)
  have hsighted : ∀ i ∈ s, i.Sighted m.grammar := by
    intro i hi
    obtain ⟨⟨p, hp, hd⟩, ha⟩ := hs i hi
    exact hd.sighted hg hp ha
  have herased : ∀ i ∈ s.eraseLookaheads, i.Fits m.grammar := fun _ => ItemSet.fits_of_mem_eraseLookaheads hfits
  refine ⟨⟨m.grammar.closedSet s, ?_, ?_, fun l => ?_⟩, ItemSet.goto_eraseLookaheads, ?_⟩
  · exact hm.closure_eq_ok hfits
  · rw [← Grammar.closedSet_eraseLookaheads hg hfits hsighted]
    exact hm.closure_eq_ok herased
  · have hgoto := ItemSet.goto_eq_ok (fun i hi => (Grammar.fits_of_mem_closedSet hfits hi).hasDot) l
    exact ⟨_, hgoto, by rw [ItemSet.goto_eraseLookaheads, hgoto]; rfl⟩
  · obtain ⟨c, hc, hcollection⟩ := Grammar.exists_collect hfits
    obtain ⟨d, hd, hblind⟩ := Grammar.exists_collect herased
    refine ⟨c, d, ?_, ?_, fun γ => ?_, fun γ j k hj hk => ?_⟩
    · exact hm.collect_eq_ok hc
    · exact hm.collect_eq_ok hd
    · exact (Grammar.exists_run?_eraseLookaheads_iff hg hfits hsighted hcollection hblind).symm
    · exact Grammar.states_eraseLookaheads hg hfits hsighted hcollection hblind hj hk

/-- A grammar of two halves that look alike, in which a third nonterminal is useless. -/
def halves : Memo where
  grammar := {
    start := 0
    productions := [
      ⟨0, [.nonterminal 1, .nonterminal 1]⟩,
      ⟨1, [.terminal "c", .nonterminal 1]⟩, ⟨1, [.terminal "d"]⟩, ⟨1, [.nonterminal 2]⟩,
      ⟨2, [.terminal "e", .nonterminal 2]⟩] }

/-- Before the halves, with the end after them. -/
def halvesStart : ItemSet := .singleton ⟨0, [dot, .nonterminal 1, .nonterminal 1], some endMarker⟩

/-- The lookaheads tell three states of the first half from those of the second half. After "c" and "d" the end is not
expected in the first half, and it is in the second, but without lookaheads the two states are one. -/
theorem Memo.collect_eraseLookaheads_halves :
    (∀ i ∈ halvesStart,
      (∃ p ∈ halves.removeUseless.grammar.productions, i.Dots p) ∧ i.lookahead.isSome = true) ∧
    ∃ c d, (halves.removeUseless.collect halvesStart).1 = .ok c ∧
      (halves.removeUseless.collect halvesStart.eraseLookaheads).1 = .ok d ∧
      c.states.length = 9 ∧ d.states.length = 6 ∧
      ∃ (k₁ k₂ m : Nat) (t₁ t₂ : ItemSet), k₁ ≠ k₂ ∧
        c.run? 0 [.terminal "c", .terminal "d"] = some k₁ ∧ c.states[k₁]? = some t₁ ∧
        c.run? 0 [.nonterminal 1, .terminal "c", .terminal "d"] = some k₂ ∧ c.states[k₂]? = some t₂ ∧
        d.run? 0 [.terminal "c", .terminal "d"] = some m ∧ d.states[m]? = some t₁.eraseLookaheads ∧
        d.run? 0 [.nonterminal 1, .terminal "c", .terminal "d"] = some m ∧
        d.states[m]? = some t₂.eraseLookaheads := by
  have hs : ∀ i ∈ halvesStart,
      (∃ p ∈ halves.removeUseless.grammar.productions, i.Dots p) ∧ i.lookahead.isSome = true := by decide
  obtain ⟨-, -, c, d, hc, hd, -, hstates⟩ := Memo.collect_eraseLookaheads halves halvesStart hs
  have hvalue : (halves.removeUseless.collect halvesStart).1.map (fun c => (c.states.length,
      c.run? 0 [.terminal "c", .terminal "d"], c.run? 0 [.nonterminal 1, .terminal "c", .terminal "d"])) =
      .ok (9, some 3, some 6) := by
    decide +kernel
  have hblind : (halves.removeUseless.collect halvesStart.eraseLookaheads).1.map (fun d => (d.states.length,
      d.run? 0 [.terminal "c", .terminal "d"], d.run? 0 [.nonterminal 1, .terminal "c", .terminal "d"])) =
      .ok (6, some 3, some 3) := by
    decide +kernel
  rw [hc] at hvalue
  rw [hd] at hblind
  obtain ⟨hlength, hc₁, hc₂⟩ : c.states.length = 9 ∧ c.run? 0 [.terminal "c", .terminal "d"] = some 3 ∧
      c.run? 0 [.nonterminal 1, .terminal "c", .terminal "d"] = some 6 := by
    simpa using Except.ok.inj hvalue
  obtain ⟨hblindLength, hd₁, hd₂⟩ : d.states.length = 6 ∧ d.run? 0 [.terminal "c", .terminal "d"] = some 3 ∧
      d.run? 0 [.nonterminal 1, .terminal "c", .terminal "d"] = some 3 := by
    simpa using Except.ok.inj hblind
  obtain ⟨t₁, ht₁, hd₁'⟩ := hstates _ _ _ hc₁ hd₁
  obtain ⟨t₂, ht₂, hd₂'⟩ := hstates _ _ _ hc₂ hd₂
  exact ⟨hs, c, d, hc, hd, hlength, hblindLength, 3, 6, 3, t₁, t₂, by decide, hc₁, ht₁, hc₂, ht₂, hd₁, hd₁', hd₂, hd₂'⟩

end FormalLang
