import FormalLang.Proofs.Grammar.Useful
import Mathlib.Data.List.Nodup

/-!
# Grammars without unit productions

A nonterminal gets the bodies of all nonterminals that it derives by unit productions, but for those that are unit
productions themselves. Words are derived as before: a chain of unit productions ends in a body that has been copied to
where the chain begins, and a copied body is derived by the chain.

* `Grammar.mem_unitTargets_iff`: the nonterminals found are those derived by unit productions.
* `Grammar.mem_removeUnits_iff`: the productions of the result.
* `Grammar.yields_removeUnits_iff`: every sequence of letters yields the same words.
* `Grammar.removeUnits_of_grouped`: a grammar without unit productions whose productions are grouped by ascending heads
  stays as it is.
* `Grammar.removeUnits_exact`: with this, a second removal changes nothing.
-/

namespace FormalLang

/-! ## Lists without repetitions -/

theorem nodup_eraseDups {α : Type} [DecidableEq α] (l : List α) : l.eraseDups.Nodup := by
  match l with
  | [] => exact .nil
  | a :: l =>
    rw [List.eraseDups_cons, List.nodup_cons]
    refine ⟨fun h => ?_, nodup_eraseDups _⟩
    simpa using (List.mem_filter.mp (List.mem_eraseDups.mp h)).2
termination_by l.length
decreasing_by exact Nat.lt_succ_of_le (List.length_filter_le _ _)

theorem eraseDups_of_nodup {α : Type} [DecidableEq α] {l : List α} (h : l.Nodup) : l.eraseDups = l := by
  induction l with
  | nil => rfl
  | cons a l ih =>
    obtain ⟨ha, hl⟩ := List.nodup_cons.mp h
    have hfilter : l.filter (fun b => !b == a) = l := List.filter_eq_self.mpr fun b hb => by
      simpa using fun hba : b = a => ha (hba ▸ hb)
    rw [List.eraseDups_cons, hfilter, ih hl]

/-- Elements that yield nothing can be left out. -/
theorem flatMap_filter_eq {α β : Type} {f : α → List β} {keep : α → Bool} {l : List α}
    (h : ∀ a ∈ l, keep a = false → f a = []) : (l.filter keep).flatMap f = l.flatMap f := by
  induction l with
  | nil => rfl
  | cons a l ih =>
    obtain ⟨ha, hl⟩ := List.forall_mem_cons.mp h
    cases hk : keep a with
    | true => rw [List.filter_cons_of_pos hk, List.flatMap_cons, List.flatMap_cons, ih hl]
    | false => rw [List.filter_cons_of_neg (by simp [hk]), List.flatMap_cons, ha hk, List.nil_append, ih hl]

/-- Groups that are told apart by a key are found again by it. -/
theorem filter_flatMap_eq {α β : Type} [DecidableEq α] {f : α → List β} {key : β → α} (hf : ∀ a, ∀ b ∈ f a, key b = a)
    {l : List α} (hl : l.Nodup) {a : α} (ha : a ∈ l) : (l.flatMap f).filter (key · = a) = f a := by
  induction l with
  | nil => cases ha
  | cons c l ih =>
    obtain ⟨hc, hl⟩ := List.nodup_cons.mp hl
    rw [List.flatMap_cons, List.filter_append]
    rcases List.mem_cons.mp ha with rfl | ha
    · have hother : (l.flatMap f).filter (key · = a) = [] := List.filter_eq_nil_iff.mpr fun b hb => by
        obtain ⟨d, hd, hb⟩ := List.mem_flatMap.mp hb
        simpa [hf d b hb] using fun h : d = a => hc (h ▸ hd)
      rw [hother, List.append_nil]
      exact List.filter_eq_self.mpr fun b hb => by simpa using hf a b hb
    · have hother : (f c).filter (key · = a) = [] := List.filter_eq_nil_iff.mpr fun b hb => by
        simpa [hf c b hb] using fun h : c = a => hc (h ▸ ha)
      rw [hother, List.nil_append, ih hl ha]

namespace Production

theorem isUnit_iff {p : Production} : p.isUnit = true ↔ ∃ m, p.body = [.nonterminal m] := by
  unfold isUnit
  split
  · next m h => exact iff_of_true rfl ⟨m, h⟩
  · next h => exact iff_of_false Bool.false_ne_true fun ⟨m, hm⟩ => h m hm

/-- Only the body decides. -/
theorem isUnit_congr {p q : Production} (h : p.body = q.body) : p.isUnit = q.isUnit := by rw [isUnit, isUnit, h]

end Production

namespace Grammar

variable {g : Grammar} {n m k : Int} {u : List Letter} {w : List Symbol}

/-! ## Chains of unit productions -/

theorem mem_unitSuccessors : m ∈ g.unitSuccessors n ↔ ∃ p ∈ g.productions, p.head = n ∧ p.body = [.nonterminal m] := by
  simp only [unitSuccessors, List.mem_flatMap, List.mem_filter, mem_productionsOf, Production.mem_nonterminals,
    Production.isUnit_iff]
  constructor
  · rintro ⟨p, ⟨⟨hp, rfl⟩, k, hk⟩, hm⟩
    obtain rfl : m = k := by simpa [hk] using hm
    exact ⟨p, hp, rfl, hk⟩
  · rintro ⟨p, hp, rfl, hb⟩
    exact ⟨p, ⟨⟨hp, rfl⟩, m, hb⟩, by simp [hb]⟩

theorem mem_nonterminals_of_mem_unitSuccessors (h : m ∈ g.unitSuccessors n) : m ∈ g.nonterminals := by
  obtain ⟨p, hp, -, hb⟩ := mem_unitSuccessors.mp h
  exact mem_nonterminals.mpr (.inr ⟨p, hp, .inr (by simp [hb])⟩)

/-- The nonterminals found are those derived by unit productions. -/
theorem mem_unitTargets_iff (hn : n ∈ g.nonterminals) : m ∈ g.unitTargets n ↔ g.UnitDerives n m := by
  rw [unitTargets, mem_reach_iff (fun _ _ => mem_nonterminals_of_mem_unitSuccessors) hn]
  constructor
  · intro h
    induction h with
    | seed h =>
      obtain rfl := List.mem_singleton.mp h
      exact .refl _
    | step _ hs ih =>
      obtain ⟨p, hp, rfl, hb⟩ := mem_unitSuccessors.mp hs
      exact ih.step hp hb
  · intro h
    induction h with
    | refl => exact .seed (.head _)
    | step _ hp hb ih => exact .step ih (mem_unitSuccessors.mpr ⟨_, hp, rfl, hb⟩)

theorem UnitDerives.derives (h : g.UnitDerives n m) : g.Derives [.nonterminal n] [.nonterminal m] := by
  induction h with
  | refl => exact .refl _
  | step _ hp hb ih => exact ih.trans (hb ▸ Derives.production hp)

/-- A chain of unit productions with one more in front. -/
theorem UnitDerives.cons {p : Production} (hp : p ∈ g.productions) (hb : p.body = [.nonterminal m])
    (h : g.UnitDerives m k) : g.UnitDerives p.head k := by
  induction h with
  | refl => exact .step (.refl _) hp hb
  | step _ hq hqb ih => exact .step ih hq hqb

theorem UnitDerives.mem_nonterminals (h : g.UnitDerives n m) (hm : m ∈ g.nonterminals) : n ∈ g.nonterminals := by
  induction h with
  | refl => exact hm
  | step _ hp _ ih => exact ih (Grammar.mem_nonterminals.mpr (.inr ⟨_, hp, .inl rfl⟩))

/-! ## The productions of the result -/

/-- The productions are the bodies, but for unit productions, of what their heads derive by unit productions. -/
theorem mem_removeUnits_iff {p : Production} : p ∈ g.removeUnits.productions ↔
    p.isUnit = false ∧ ∃ q ∈ g.productions, q.body = p.body ∧ g.UnitDerives p.head q.head := by
  rw [mem_removeUnits, mem_expansion]
  constructor
  · rintro ⟨hn, -, q, hu, hq, hb, h⟩
    refine ⟨Production.isUnit_congr hb ▸ hu, q, hq, hb, ?_⟩
    rcases h with h | h
    · exact h ▸ .refl _
    · exact (mem_unitTargets_iff hn).mp h
  · rintro ⟨hu, q, hq, hb, h⟩
    have hn : p.head ∈ g.nonterminals := h.mem_nonterminals (mem_nonterminals.mpr (.inr ⟨q, hq, .inl rfl⟩))
    exact ⟨hn, rfl, q, (Production.isUnit_congr hb).trans hu, hq, hb, .inr ((mem_unitTargets_iff hn).mpr h)⟩

/-! ## Words -/

/-- A chain of unit productions is replaced by the copy of the body that it ends in. -/
theorem Yields.removeUnits (h : g.Yields u w) : g.removeUnits.Yields u w := by
  induction h with
  | nil => exact .nil
  | terminal _ ih => exact .terminal ih
  | @nonterminal p u w w' hp _ _ ihb ih =>
    obtain ⟨q, hq, hhead, hyields⟩ :
        ∃ q ∈ g.removeUnits.productions, q.head = p.head ∧ g.removeUnits.Yields q.body w := by
      cases hu : p.isUnit with
      | false => exact ⟨p, mem_removeUnits_iff.mpr ⟨hu, p, hp, rfl, .refl _⟩, rfl, ihb⟩
      | true =>
        -- What the unit production leads to yields the word by a production whose body has been copied to here too.
        obtain ⟨m, hm⟩ := Production.isUnit_iff.mp hu
        rw [hm] at ihb
        obtain ⟨q, hq, rfl, hyields⟩ := yields_nonterminal_iff.mp ihb
        obtain ⟨hqu, r, hr, hb, hchain⟩ := mem_removeUnits_iff.mp hq
        have hlonger := hchain.cons hp hm
        exact ⟨⟨p.head, q.body⟩, mem_removeUnits_iff.mpr ⟨hqu, r, hr, hb, hlonger⟩, rfl, hyields⟩
    rw [← hhead]
    exact .nonterminal hq hyields ih

/-- A copied body is derived by the chain of unit productions that leads to it. -/
theorem Yields.of_removeUnits (h : g.removeUnits.Yields u w) : g.Yields u w := by
  induction h with
  | nil => exact .nil
  | terminal _ ih => exact .terminal ih
  | @nonterminal p u w w' hp _ _ ihb ih =>
    obtain ⟨-, q, hq, hb, hchain⟩ := mem_removeUnits_iff.mp hp
    have hhead : g.Yields [.nonterminal p.head] w :=
      .of_derives hchain.derives (yields_nonterminal_iff.mpr ⟨q, hq, rfl, hb ▸ ihb⟩)
    exact hhead.append ih

theorem yields_removeUnits_iff : g.removeUnits.Yields u w ↔ g.Yields u w := ⟨.of_removeUnits, .removeUnits⟩

/-! ## The second removal -/

theorem head_of_mem_expansion {p : Production} (hp : p ∈ g.expansion n) : p.head = n := (mem_expansion.mp hp).1

theorem nodup_removeUnits (g : Grammar) : g.removeUnits.productions.Nodup := by
  refine List.nodup_flatMap.mpr ⟨fun n _ => nodup_eraseDups _, g.nonterminals.nodup_toList.imp fun hne p hp hq => ?_⟩
  exact hne ((head_of_mem_expansion hp).symm.trans (head_of_mem_expansion hq))

/-- Without unit productions, a nonterminal keeps the productions that it has. -/
theorem expansion_eq_productionsOf (hu : ∀ p ∈ g.productions, p.isUnit = false) (hnodup : g.productions.Nodup)
    (hn : n ∈ g.nonterminals) : g.expansion n = g.productionsOf n := by
  have hchain : ∀ m, g.UnitDerives n m → m = n := by
    intro m h
    cases h with
    | refl => rfl
    | step _ hp hb => exact absurd (Production.isUnit_iff.mpr ⟨m, hb⟩) (by simp [hu _ hp])
  have hothers : ((g.unitTargets n).filter (· ≠ n)).toList = [] := by
    refine List.eq_nil_iff_forall_not_mem.mpr fun m hm => ?_
    obtain ⟨hm, hne⟩ := OrderedSet.mem_filter.mp hm
    exact of_decide_eq_true hne (hchain m ((mem_unitTargets_iff hn).mp hm))
  have hproper : g.properProductions n = g.productionsOf n :=
    List.filter_eq_self.mpr fun p hp => by simp [hu p (mem_productionsOf.mp hp).1]
  rw [expansion, hproper]
  simp only [hothers, List.flatMap_nil, List.append_nil]
  exact eraseDups_of_nodup (hnodup.filter _)

/-- A grammar without unit productions whose productions are grouped by ascending heads stays as it is. -/
theorem removeUnits_of_grouped (hu : ∀ p ∈ g.productions, p.isUnit = false) (hnodup : g.productions.Nodup)
    (hgrouped : g.nonterminals.toList.flatMap g.productionsOf = g.productions) : g.removeUnits = g := by
  have hexpansion : g.nonterminals.toList.flatMap g.expansion = g.nonterminals.toList.flatMap g.productionsOf :=
    List.flatMap_congr fun n hn => expansion_eq_productionsOf hu hnodup hn
  rw [removeUnits, hexpansion, hgrouped]

theorem nonterminals_removeUnits_subset (hn : n ∈ g.removeUnits.nonterminals) : n ∈ g.nonterminals := by
  obtain rfl | ⟨p, hp, hn⟩ := mem_nonterminals.mp hn
  · exact mem_nonterminals.mpr (.inl rfl)
  · rcases hn with rfl | hn
    · exact (mem_removeUnits.mp hp).1
    · obtain ⟨-, q, hq, hb, -⟩ := mem_removeUnits_iff.mp hp
      exact mem_nonterminals.mpr (.inr ⟨q, hq, .inr (hb ▸ hn)⟩)

/-- The productions of the result are grouped by ascending heads. A nonterminal of the grammar that is none of the
result has no productions there. -/
theorem flatMap_productionsOf_removeUnits (g : Grammar) :
    g.removeUnits.nonterminals.toList.flatMap g.removeUnits.productionsOf = g.removeUnits.productions := by
  have hkept : g.removeUnits.nonterminals = g.nonterminals.filter (· ∈ g.removeUnits.nonterminals) :=
    OrderedSet.ext fun n => by simpa using nonterminals_removeUnits_subset
  have hgroup : ∀ n ∈ g.removeUnits.nonterminals.toList, g.removeUnits.productionsOf n = g.expansion n :=
    fun n hn => filter_flatMap_eq (fun _ _ => head_of_mem_expansion) g.nonterminals.nodup_toList
      (nonterminals_removeUnits_subset hn)
  have hempty : ∀ n ∈ g.nonterminals.toList, decide (n ∈ g.removeUnits.nonterminals) = false → g.expansion n = [] := by
    refine fun n hn hnot => List.eq_nil_iff_forall_not_mem.mpr fun p hp => of_decide_eq_false hnot ?_
    obtain rfl := head_of_mem_expansion hp
    exact mem_nonterminals.mpr (.inr ⟨p, mem_removeUnits.mpr ⟨hn, hp⟩, .inl rfl⟩)
  rw [List.flatMap_congr hgroup, hkept]
  exact flatMap_filter_eq hempty

/-- When unit productions are removed, each nonterminal derives the same words as before. No unit production is left, no
production occurs twice, and a second removal changes nothing. -/
theorem removeUnits_exact (g : Grammar) :
    (∀ n, ∀ w : List Symbol, g.removeUnits.Derives [.nonterminal n] (w.map .terminal) ↔
        g.Derives [.nonterminal n] (w.map .terminal)) ∧
      (∀ p ∈ g.removeUnits.productions, p.isUnit = false) ∧ g.removeUnits.productions.Nodup ∧
      g.removeUnits.removeUnits = g.removeUnits := by
  have hunit : ∀ p ∈ g.removeUnits.productions, p.isUnit = false := fun p hp => (mem_removeUnits_iff.mp hp).1
  refine ⟨fun n w => ?_, hunit, nodup_removeUnits g, ?_⟩
  · rw [derives_iff_yields, derives_iff_yields, yields_removeUnits_iff]
  · exact removeUnits_of_grouped hunit (nodup_removeUnits g) (flatMap_productionsOf_removeUnits g)

/-- A grammar with a cycle of unit productions, a nonterminal that also replaces itself, a production that is written
twice, and a nonterminal with nothing but a unit production, which leads nowhere. -/
def chained : Grammar where
  start := 0
  productions := [
    ⟨0, [.nonterminal 1]⟩, ⟨1, [.nonterminal 0]⟩, ⟨0, [.nonterminal 0]⟩, ⟨1, [.terminal "a"]⟩,
    ⟨1, [.terminal "b", .nonterminal 2]⟩, ⟨2, [.nonterminal 3]⟩, ⟨1, [.terminal "a"]⟩]

/-- Both nonterminals of the cycle get the same bodies, each once, and the start derives "a" as before. -/
theorem removeUnits_exact_chained :
    chained.removeUnits.productions = [
      ⟨0, [.terminal "a"]⟩, ⟨0, [.terminal "b", .nonterminal 2]⟩,
      ⟨1, [.terminal "a"]⟩, ⟨1, [.terminal "b", .nonterminal 2]⟩] ∧
      ⟨0, [.terminal "a"]⟩ ∈ chained.removeUnits.productions ∧ (⟨0, [.terminal "a"]⟩ : Production).isUnit = false ∧
      chained.Derives [.nonterminal 0] [.terminal "a"] ∧ chained.removeUnits.removeUnits = chained.removeUnits := by
  obtain ⟨hwords, hunit, -, htwice⟩ := removeUnits_exact chained
  have hvalue : chained.removeUnits.productions = [
      ⟨0, [.terminal "a"]⟩, ⟨0, [.terminal "b", .nonterminal 2]⟩,
      ⟨1, [.terminal "a"]⟩, ⟨1, [.terminal "b", .nonterminal 2]⟩] := by decide +kernel
  have hmem : ⟨0, [.terminal "a"]⟩ ∈ chained.removeUnits.productions := by
    rw [hvalue]
    exact .head _
  exact ⟨hvalue, hmem, hunit _ hmem, (hwords 0 ["a"]).mp (.production hmem), htwice⟩

end Grammar

end FormalLang
