import FormalLang.Item.Validity
import FormalLang.Proofs.Faults
import FormalLang.Proofs.Grammar.First
import FormalLang.Search.Run
import Mathlib.Logic.Relation

/-!
# Closures

What an item predicts is told by the tables. A closure ends: its items are the given ones and those that begin a production,
with one of finitely many lookaheads. It holds all that the given items lead to, unless one of these has a fault.

Items that have a dot, and only nonterminals of the grammar, have no fault. What they predict by the tables is what they
predict by derivations, since first sets are exact, and it fits the grammar again.

* `Item.mem_predicted_iff`: predictions by tables and by derivations are the same.
* `Grammar.predicted_subset_arisingItems`: what is predicted is one of the items that can arise.
* `Grammar.visitItems_eq_search`: the visits, which skip the nonterminals and lookaheads met before, are those of a
  plain search.
* `Grammar.result_close_eq_ok_iff`: when there is a closure, and which items it holds.
* `Grammar.closure_eq_ok`, `Grammar.mem_closedSet_iff`: the closure of items that fit the grammar.
-/

namespace FormalLang

open FirstFollow Relation

variable {g : Grammar} {i j : Item} {n : Int} {rest : List Letter} {s : ItemSet}

namespace Production

theorem mem_core {p : Production} {l : Letter} (h : l ∈ p.core) : l ∈ p.body := by
  unfold core at h
  split at h
  · cases h
  · exact h

@[simp] theorem after?_initialItem (p : Production) (a : Option Symbol) : (p.initialItem a).after? = some p.core := by
  simp [Item.after?, initialItem]

end Production

namespace Item

theorem expected?_eq_some_iff : i.expected? = some (n, rest) ↔ i.after? = some (.nonterminal n :: rest) := by
  unfold expected?
  split
  · next h => simp [h]
  · next h => exact iff_of_false nofun fun hn => h _ _ hn

theorem mem_body_of_after? {l : Letter} (h : i.after? = some rest) (hl : l ∈ rest) : l ∈ i.body := by
  rw [body_eq_of_after? h]
  exact List.mem_append_right _ (.tail _ hl)

/-- The item has a dot, and its nonterminals are those of the grammar. -/
structure Fits (g : Grammar) (i : Item) : Prop where
  hasDot : i.hasDot = true
  mem_nonterminals : ∀ n, Letter.nonterminal n ∈ i.body → n ∈ g.nonterminals

theorem fits_initialItem {p : Production} (hp : p ∈ g.productions) (a : Option Symbol) :
    (p.initialItem a).Fits g where
  hasDot := by rw [Item.hasDot, Production.after?_initialItem]; rfl
  mem_nonterminals n hn := by
    have hn : Letter.nonterminal n ∈ p.core := (List.mem_cons.mp hn).resolve_left nofun
    exact Grammar.mem_nonterminals.mpr (.inr ⟨p, hp, .inr (Production.mem_core hn)⟩)

end Item

/-! ## Predictions -/

namespace Grammar

/-- What can come after a nonterminal that stands before `rest` in an item with a given lookahead. -/
def CanFollow (g : Grammar) (rest : List Letter) : Option Symbol → Option Symbol → Prop
  | none, b => b = none
  | some a, b => (∃ c, b = some c ∧ g.Begins rest c) ∨ b = some a ∧ g.Vanishes rest

theorem predicts_iff : g.Predicts i j ↔
    ∃ n rest b p, i.after? = some (.nonterminal n :: rest) ∧ g.CanFollow rest i.lookahead b ∧
      p ∈ g.productions ∧ p.head = n ∧ p.initialItem b = j := by
  constructor
  · rintro (⟨ha, hl, hp, hn⟩ | ⟨ha, hl, hp, hn, hd, hv⟩ | ⟨ha, hl, hp, hn, hv⟩)
    · exact ⟨_, _, none, _, ha, by rw [hl]; rfl, hp, hn, rfl⟩
    · exact ⟨_, _, _, _, ha, by rw [hl]; exact Or.inl ⟨_, rfl, _, hd, hv⟩, hp, hn, rfl⟩
    · exact ⟨_, _, some _, _, ha, by rw [hl]; exact Or.inr ⟨rfl, hv⟩, hp, hn, rfl⟩
  · rintro ⟨n, rest, b, p, ha, hb, hp, hn, rfl⟩
    cases hl : i.lookahead with
    | none =>
      rw [hl] at hb
      obtain rfl : b = none := hb
      exact .plain ha hl hp hn
    | some a =>
      rw [hl] at hb
      obtain ⟨c, rfl, v, hd, hv⟩ | ⟨rfl, hv⟩ := hb
      · exact .first ha hl hp hn hd hv
      · exact .inherited ha hl hp hn hv

/-- The first symbol of a word can follow, or the given lookahead if the word has none. -/
theorem canFollow_of_word {v : List Symbol} (hd : g.Derives rest (v.map .terminal)) (a : Symbol) :
    g.CanFollow rest (some a) (some ((v.find? (· ≠ epsilon)).getD a)) := by
  cases hv : v.find? (· ≠ epsilon) with
  | some b => exact .inl ⟨b, rfl, _, hd, by rw [Letter.head?_erase_map_terminal, hv, Option.map_some]⟩
  | none =>
    refine .inr ⟨rfl, _, hd, ?_⟩
    rw [List.map_nil, ← List.head?_eq_none_iff, Letter.head?_erase_map_terminal, hv, Option.map_none]

theorem mem_initialItems {d : Int × Option Symbol} :
    j ∈ g.initialItems d ↔ ∃ p ∈ g.productions, p.head = d.1 ∧ p.initialItem d.2 = j := by
  simp [initialItems, mem_productionsOf, and_assoc]

theorem Predicts.fits (h : g.Predicts i j) : j.Fits g := by
  obtain ⟨n, rest, b, p, -, -, hp, -, rfl⟩ := predicts_iff.mp h
  exact Item.fits_initialItem hp b

theorem fits_of_reflTransGen (h : ReflTransGen g.Predicts i j) (hi : i.Fits g) : j.Fits g := by
  cases h with
  | refl => exact hi
  | tail _ h => exact h.fits

end Grammar

/-- A lookahead of what is predicted is absent, the given one, or a terminal of the rest or of a first set. -/
theorem FirstFollow.mem_of_lookaheads {f : FirstFollow} {a b : Option Symbol} {l : List (Option Symbol)}
    (h : f.lookaheads rest a = .ok l) (hb : b ∈ l) :
    b = none ∨ b = a ∨ ∃ c, b = some c ∧ (Letter.terminal c ∈ rest ∨ ∃ n, c ∈ f.first.getD n ∅) := by
  cases a with
  | none =>
    obtain rfl := Except.ok.inj h
    exact .inl (List.mem_singleton.mp hb)
  | some a =>
    obtain ⟨t, ht, h⟩ := bind_eq_ok_iff.mp h
    obtain rfl := Except.ok.inj h
    obtain rfl := eq_sequenceFirst_of_firstOfSequence ht
    rcases List.mem_append.mp hb with hb | hb
    · obtain ⟨c, hc, rfl⟩ := List.mem_map.mp hb
      obtain ⟨hc, hne⟩ := mem_visible.mp hc
      exact .inr (.inr ⟨c, rfl, exists_mem_of_mem_sequenceFirst hne hc⟩)
    · split at hb
      · exact .inr (.inl (List.mem_singleton.mp hb))
      · cases hb

/-- The lookaheads found with the tables are those that derivations allow. -/
theorem FirstFollow.lookaheads_eq_ok (hrest : ∀ n, Letter.nonterminal n ∈ rest → n ∈ g.nonterminals)
    (a : Option Symbol) :
    ∃ l, (ofGrammar g).lookaheads rest a = .ok l ∧ ∀ b, b ∈ l ↔ g.CanFollow rest a b := by
  cases a with
  | none => exact ⟨[none], rfl, fun b => List.mem_singleton⟩
  | some a =>
    refine ⟨_, by rw [lookaheads, firstOfSequence_eq_ok hrest]; rfl, fun b => ?_⟩
    have hbegins : b ∈ (visible (sequenceFirst g.nullable (firstTable g) rest)).toList.map some ↔
        ∃ c, b = some c ∧ g.Begins rest c := by
      rw [List.mem_map]
      constructor
      · rintro ⟨c, hc, rfl⟩
        obtain ⟨hc, hne⟩ := mem_visible.mp hc
        exact ⟨c, rfl, (mem_sequenceFirst_iff hne).mp hc⟩
      · rintro ⟨c, rfl, hc⟩
        exact ⟨c, mem_visible.mpr ⟨(mem_sequenceFirst_iff hc.ne_epsilon).mpr hc, hc.ne_epsilon⟩, rfl⟩
    rw [List.mem_append, hbegins]
    refine or_congr_right ?_
    rw [← epsilon_mem_sequenceFirst_iff (t := firstTable g)]
    split
    · next h => simp [h]
    · next h => simp [h]

namespace Item

theorem exists_demands (h : i.Fits g) :
    ∃ l, i.demands (ofGrammar g) = .ok l ∧
      ∀ n b, (n, b) ∈ l ↔ ∃ rest, i.after? = some (.nonterminal n :: rest) ∧ g.CanFollow rest i.lookahead b := by
  rw [demands, if_pos h.hasDot]
  cases he : i.expected? with
  | none =>
    refine ⟨[], rfl, fun n b => iff_of_false List.not_mem_nil ?_⟩
    rintro ⟨rest, ha, -⟩
    rw [expected?_eq_some_iff.mpr ha] at he
    cases he
  | some e =>
    obtain ⟨m, rest⟩ := e
    have ha := expected?_eq_some_iff.mp he
    obtain ⟨l, hl, hmem⟩ := lookaheads_eq_ok (g := g)
      (fun k hk => h.mem_nonterminals k (mem_body_of_after? ha (.tail _ hk))) i.lookahead
    refine ⟨_, by simp only [hl]; rfl, fun n b => ?_⟩
    simp only [List.mem_map, hmem, ha]
    constructor
    · rintro ⟨b, hb, he⟩
      cases he
      exact ⟨rest, rfl, hb⟩
    · rintro ⟨rest', hr, hb⟩
      cases hr
      exact ⟨b, hb, rfl⟩

/-- What is demanded is the nonterminal after the dot, with a lookahead for it. -/
theorem exists_of_mem_demanded {f : FirstFollow} {d : Int × Option Symbol} (h : d ∈ i.demanded f) :
    ∃ rest l, i.after? = some (.nonterminal d.1 :: rest) ∧ f.lookaheads rest i.lookahead = .ok l ∧ d.2 ∈ l := by
  cases hd : i.demands f with
  | error e =>
    rw [demanded, hd] at h
    cases h
  | ok ds =>
    rw [demanded, hd] at h
    unfold demands at hd
    split at hd
    · split at hd
      · obtain rfl := Except.ok.inj hd
        cases h
      · next n rest he =>
        obtain ⟨l, hl, hds⟩ := bind_eq_ok_iff.mp hd
        obtain rfl := Except.ok.inj hds
        obtain ⟨b, hb, rfl⟩ := List.mem_map.mp h
        exact ⟨rest, l, expected?_eq_some_iff.mp he, mapError_eq_ok_iff.mp hl, hb⟩
    · cases hd

theorem exists_demands_of_fault? {f : FirstFollow} (h : i.fault? f = none) : ∃ l, i.demands f = .ok l := by
  cases hd : i.demands f with
  | error e =>
    rw [fault?, hd] at h
    cases h
  | ok l => exact ⟨l, rfl⟩

theorem fault?_eq_none (h : i.Fits g) : i.fault? (ofGrammar g) = none := by
  obtain ⟨l, hl, -⟩ := exists_demands h
  rw [fault?, hl]

/-- The items that an item predicts by the tables, none for an item with a fault. -/
def predicted (g : Grammar) (f : FirstFollow) (i : Item) : List Item := (i.demanded f).flatMap g.initialItems

/-- An item predicts the same by the tables and by derivations. -/
theorem mem_predicted_iff (h : i.Fits g) : j ∈ i.predicted g (ofGrammar g) ↔ g.Predicts i j := by
  obtain ⟨l, hl, hmem⟩ := exists_demands h
  rw [predicted, demanded, hl, Grammar.predicts_iff]
  simp only [Except.toOption, Option.getD_some, List.mem_flatMap, Prod.exists, hmem, Grammar.mem_initialItems]
  constructor
  · rintro ⟨n, b, ⟨rest, ha, hb⟩, p, hp, hn, hj⟩
    exact ⟨n, rest, b, p, ha, hb, hp, hn, hj⟩
  · rintro ⟨n, rest, b, p, ha, hb, hp, hn, hj⟩
    exact ⟨n, b, ⟨rest, ha, hb⟩, p, hp, hn, hj⟩

end Item

/-! ## Items that can arise -/

namespace Grammar

/-- The lookaheads that can arise from given items. -/
def arisingLookaheads (g : Grammar) (f : FirstFollow) (s : ItemSet) : List (Option Symbol) :=
  none :: s.toList.map Item.lookahead ++ (s.toList.flatMap Item.body).map Letter.terminal? ++
    (g.productions.flatMap (·.body)).map Letter.terminal? ++ (f.first.values.flatMap OrderedSet.toList).map some

theorem length_arisingLookaheads (g : Grammar) (f : FirstFollow) (s : ItemSet) :
    (g.arisingLookaheads f s).length = g.lookaheadBound f s := by
  simp only [arisingLookaheads, lookaheadBound, OrderedSet.size, List.length_append, List.length_cons, List.length_map]
  omega

theorem mem_arisingLookaheads {f : FirstFollow} {a : Option Symbol} : a ∈ g.arisingLookaheads f s ↔
    a = none ∨ (∃ i ∈ s, i.lookahead = a) ∨ (∃ i ∈ s, ∃ l ∈ i.body, l.terminal? = a) ∨
      (∃ p ∈ g.productions, ∃ l ∈ p.body, l.terminal? = a) ∨ ∃ t ∈ f.first.values, ∃ b ∈ t, some b = a := by
  simp only [arisingLookaheads, List.cons_append, List.mem_cons, List.mem_append, List.mem_map, List.mem_flatMap,
    OrderedSet.mem_def]
  grind

theorem lookahead_mem_arisingLookaheads {f : FirstFollow} (h : i ∈ s) : i.lookahead ∈ g.arisingLookaheads f s :=
  mem_arisingLookaheads.mpr (.inr (.inl ⟨i, h, rfl⟩))

theorem terminal_mem_arisingLookaheads {f : FirstFollow} {a : Symbol}
    (h : (∃ i ∈ s, Letter.terminal a ∈ i.body) ∨ ∃ p ∈ g.productions, Letter.terminal a ∈ p.body) :
    some a ∈ g.arisingLookaheads f s := by
  refine mem_arisingLookaheads.mpr (.inr (.inr ?_))
  rcases h with ⟨i, hi, ha⟩ | ⟨p, hp, ha⟩
  · exact .inl ⟨i, hi, _, ha, rfl⟩
  · exact .inr (.inl ⟨p, hp, _, ha, rfl⟩)

theorem first_mem_arisingLookaheads {f : FirstFollow} {a : Symbol} (h : a ∈ f.first.getD n ∅) :
    some a ∈ g.arisingLookaheads f s := by
  cases hn : f.first.get? n with
  | none =>
    rw [Table.getD, hn] at h
    exact absurd h (OrderedSet.not_mem_empty a)
  | some t =>
    rw [Table.getD, hn] at h
    have ht : t ∈ f.first.values := List.mem_map.mpr ⟨_, Table.mem_entries_iff.mpr hn, rfl⟩
    exact mem_arisingLookaheads.mpr (.inr (.inr (.inr (.inr ⟨t, ht, a, h, rfl⟩))))

/-- The given items and those that begin a production, with the lookaheads that can arise. -/
def arisingItems (g : Grammar) (f : FirstFollow) (s : ItemSet) : List Item :=
  s.toList ++ (g.arisingLookaheads f s).flatMap fun a => g.productions.map (·.initialItem a)

theorem mem_arisingItems {f : FirstFollow} : i ∈ g.arisingItems f s ↔
    i ∈ s ∨ ∃ a ∈ g.arisingLookaheads f s, ∃ p ∈ g.productions, p.initialItem a = i := by
  simp [arisingItems, OrderedSet.mem_def]

theorem length_arisingItems_le (g : Grammar) (f : FirstFollow) (s : ItemSet) :
    (g.arisingItems f s).length ≤ g.itemBound f s := by
  have h : (g.arisingItems f s).length = s.size + g.productions.length * g.lookaheadBound f s := by
    simp only [arisingItems, List.length_append, List.length_flatMap, List.length_map, List.map_const',
      List.sum_replicate, length_arisingLookaheads, OrderedSet.size]
    simp [Nat.mul_comm]
  rw [h, itemBound, Nat.add_mul]
  omega

/-- What an item predicts is among the items that can arise, if its lookahead and the terminals after its dot are. -/
theorem mem_arisingItems_of_predicted {f : FirstFollow} (hla : i.lookahead ∈ g.arisingLookaheads f s)
    (hafter : ∀ rest, i.after? = some rest → ∀ a, Letter.terminal a ∈ rest → some a ∈ g.arisingLookaheads f s)
    (h : j ∈ i.predicted g f) : j ∈ g.arisingItems f s := by
  obtain ⟨⟨n, b⟩, hd, hj⟩ := List.mem_flatMap.mp h
  obtain ⟨p, hp, -, rfl⟩ := mem_initialItems.mp hj
  obtain ⟨rest, l, ha, hl, hb⟩ := Item.exists_of_mem_demanded hd
  refine mem_arisingItems.mpr (.inr ⟨b, ?_, p, hp, rfl⟩)
  rcases mem_of_lookaheads hl hb with rfl | rfl | ⟨c, rfl, hc | ⟨m, hc⟩⟩
  · exact mem_arisingLookaheads.mpr (.inl rfl)
  · exact hla
  · exact hafter _ ha c (.tail _ hc)
  · exact first_mem_arisingLookaheads hc

theorem predicted_subset_arisingItems {f : FirstFollow} (hi : i ∈ g.arisingItems f s) :
    i.predicted g f ⊆ g.arisingItems f s := by
  intro j hj
  rcases mem_arisingItems.mp hi with hi | ⟨a, ha, p, hp, rfl⟩
  · refine mem_arisingItems_of_predicted (lookahead_mem_arisingLookaheads hi) (fun rest hr b hb => ?_) hj
    exact terminal_mem_arisingLookaheads (.inl ⟨i, hi, Item.mem_body_of_after? hr hb⟩)
  · refine mem_arisingItems_of_predicted ha (fun rest hr b hb => ?_) hj
    rw [Production.after?_initialItem] at hr
    cases hr
    exact terminal_mem_arisingLookaheads (.inr ⟨p, hp, Production.mem_core hb⟩)

/-! ## Closures -/

/-- The items that a search along the predictions finds. -/
def closedSet (g : Grammar) (s : ItemSet) : ItemSet :=
  OrderedSet.ofList (search .depthFirst (Item.predicted g (ofGrammar g)) (g.itemBound (ofGrammar g) s) s.toList).found

/-- A search from some of the given items has a visit for each item that can arise, so that it is over. -/
theorem finishes_predicted (f : FirstFollow) {l : List Item} (hl : ∀ i ∈ l, i ∈ s) : Search.Finishes .depthFirst
    (Item.predicted g f) l (search .depthFirst (Item.predicted g f) (g.itemBound f s) l) :=
  Search.finishes_search (fun i hi => mem_arisingItems.mpr (.inl (hl i hi))) (fun _ => predicted_subset_arisingItems)
    (length_arisingItems_le g f s)

theorem mem_found_iff (f : FirstFollow) {l : List Item} (hl : ∀ i ∈ l, i ∈ s) :
    i ∈ (search .depthFirst (Item.predicted g f) (g.itemBound f s) l).found ↔ Search.Reach (Item.predicted g f) l i :=
  Search.mem_found_iff (fun i hi => mem_arisingItems.mpr (.inl (hl i hi))) (fun _ => predicted_subset_arisingItems)
    (length_arisingItems_le g f s)

/-- What items that fit the grammar lead to by the tables is what they lead to by derivations. -/
theorem reach_predicted_iff (hs : ∀ i ∈ s, i.Fits g) :
    Search.Reach (Item.predicted g (ofGrammar g)) s.toList i ↔ ∃ i₀ ∈ s, ReflTransGen g.Predicts i₀ i := by
  constructor
  · intro h
    induction h with
    | seed h => exact ⟨_, h, .refl⟩
    | step _ hb ih =>
      obtain ⟨i₀, hi₀, h⟩ := ih
      exact ⟨i₀, hi₀, h.tail ((Item.mem_predicted_iff (fits_of_reflTransGen h (hs i₀ hi₀))).mp hb)⟩
  · rintro ⟨i₀, hi₀, h⟩
    induction h with
    | refl => exact .seed hi₀
    | tail h hp ih => exact .step ih ((Item.mem_predicted_iff (fits_of_reflTransGen h (hs i₀ hi₀))).mpr hp)

/-- The closure of items that fit the grammar holds what they predict, directly or through others. -/
theorem mem_closedSet_iff (hs : ∀ i ∈ s, i.Fits g) :
    i ∈ g.closedSet s ↔ ∃ i₀ ∈ s, ReflTransGen g.Predicts i₀ i := by
  rw [closedSet, OrderedSet.mem_ofList, mem_found_iff _ fun _ h => h, reach_predicted_iff hs]

theorem fits_of_mem_closedSet (hs : ∀ i ∈ s, i.Fits g) (h : i ∈ g.closedSet s) : i.Fits g := by
  obtain ⟨i₀, hi₀, h⟩ := (mem_closedSet_iff hs).mp h
  exact fits_of_reflTransGen h (hs i₀ hi₀)

theorem isClosed_closedSet (hs : ∀ i ∈ s, i.Fits g) : g.IsClosed (g.closedSet s) := by
  intro i hi j hj
  obtain ⟨i₀, hi₀, h⟩ := (mem_closedSet_iff hs).mp hi
  exact (mem_closedSet_iff hs).mpr ⟨i₀, hi₀, h.tail hj⟩

/-- A set that holds all that its items predict is its own closure. -/
theorem IsClosed.closedSet_eq (h : g.IsClosed s) (hs : ∀ i ∈ s, i.Fits g) : g.closedSet s = s := by
  refine OrderedSet.ext fun i => (mem_closedSet_iff hs).trans ⟨?_, fun hi => ⟨i, hi, .refl⟩⟩
  rintro ⟨i₀, hi₀, hp⟩
  induction hp with
  | refl => exact hi₀
  | tail _ hp ih => exact h _ ih _ hp

/-- What is met is entered at once. -/
theorem initialItems_subset_of_met {met : List (Int × Option Symbol)} {found : List Item}
    (hmet : ∀ d ∈ met, g.initialItems d ⊆ found) (l : List (Int × Option Symbol)) :
    ∀ d ∈ met ++ Search.unseen met l,
      g.initialItems d ⊆ found ++ Search.unseen found ((Search.unseen met l).flatMap g.initialItems) := by
  intro d hd j hj
  rcases List.mem_append.mp hd with hd | hd
  · exact List.mem_append_left _ (hmet d hd hj)
  · by_cases hk : j ∈ found
    · exact List.mem_append_left _ hk
    · exact List.mem_append_right _ (Search.mem_unseen.mpr ⟨List.mem_flatMap.mpr ⟨d, hd, hj⟩, hk⟩)

/-- To enter the productions of a nonterminal only once with each lookahead makes no difference: what is left out has
been found when the nonterminal was met. -/
theorem unseen_initialItems {f : FirstFollow} {met : List (Int × Option Symbol)} {found : List Item}
    (hmet : ∀ d ∈ met, g.initialItems d ⊆ found) (i : Item) :
    Search.unseen found ((Search.unseen met (i.demanded f)).flatMap g.initialItems) =
      Search.unseen found (i.predicted g f) := Search.unseen_flatMap hmet

theorem visitItems_eq_explore (f : FirstFollow) (n : Nat) {met : List (Int × Option Symbol)} {found : List Item}
    (hmet : ∀ d ∈ met, g.initialItems d ⊆ found) (waiting : List Item) :
    g.visitItems f n met found waiting = Search.explore .depthFirst (Item.predicted g f) n found waiting := by
  induction n generalizing met found waiting with
  | zero => rfl
  | succ n ih =>
    cases waiting with
    | nil => rfl
    | cons i waiting =>
      rw [visitItems, Search.explore, ← unseen_initialItems hmet, ih (initialItems_subset_of_met hmet _)]
      rfl

/-- The visits of a closure are those of a search along the predictions. -/
theorem visitItems_eq_search (f : FirstFollow) (n : Nat) (s : ItemSet) :
    g.visitItems f n [] s.toList s.toList.reverse = search .depthFirst (Item.predicted g f) n s.toList := by
  have hseeds : Search.unseen [] s.toList = s.toList :=
    Search.unseen_eq_self s.nodup_toList fun _ _ => List.not_mem_nil
  rw [visitItems_eq_explore f n (fun _ hd => absurd hd List.not_mem_nil), search, hseeds]
  exact congrArg _ (List.append_nil _).symm

/-- A closure is the set of all that the given items lead to, and there is one if none of these has a fault: each of them is
visited. -/
theorem result_close_eq_ok_iff {f : FirstFollow} {t : ItemSet} : (g.close f s).result = .ok t ↔
    (∀ i, Search.Reach (Item.predicted g f) s.toList i → i.fault? f = none) ∧
      ∀ i, i ∈ t ↔ Search.Reach (Item.predicted g f) s.toList i := by
  have hfound : ∀ i, i ∈ (search .depthFirst (Item.predicted g f) (g.itemBound f s) s.toList).found ↔
      Search.Reach (Item.predicted g f) s.toList i := fun i => mem_found_iff f fun _ h => h
  have hvisited : ∀ i, i ∈ (search .depthFirst (Item.predicted g f) (g.itemBound f s) s.toList).visited ↔
      Search.Reach (Item.predicted g f) s.toList i := fun i =>
    (finishes_predicted f fun _ h => h).visited_perm.mem_iff.trans (hfound i)
  simp only [close, visitItems_eq_search]
  cases hfault : (search .depthFirst (Item.predicted g f) (g.itemBound f s) s.toList).visited.findSome? (Item.fault? f) with
  | some e =>
    obtain ⟨i, hi, he⟩ := List.exists_of_findSome?_eq_some hfault
    refine iff_of_false (fun h => by cases h) fun h => ?_
    rw [h.1 i ((hvisited i).mp hi)] at he
    cases he
  | none =>
    rw [List.findSome?_eq_none_iff] at hfault
    constructor
    · intro h
      obtain rfl := Except.ok.inj h
      exact ⟨fun i hi => hfault i ((hvisited i).mpr hi), fun i => OrderedSet.mem_ofList.trans (hfound i)⟩
    · intro h
      exact congrArg Except.ok (OrderedSet.ext fun i => (OrderedSet.mem_ofList.trans (hfound i)).trans (h.2 i).symm)

/-- The closure of items that fit the grammar has no fault. -/
theorem result_close (hs : ∀ i ∈ s, i.Fits g) : (g.close (ofGrammar g) s).result = .ok (g.closedSet s) := by
  refine result_close_eq_ok_iff.mpr ⟨fun i hi => ?_, fun i => ?_⟩
  · obtain ⟨i₀, hi₀, h⟩ := (reach_predicted_iff hs).mp hi
    exact Item.fault?_eq_none (fits_of_reflTransGen h (hs i₀ hi₀))
  · rw [closedSet, OrderedSet.mem_ofList, mem_found_iff _ fun _ h => h]

theorem closure_eq_ok (hs : ∀ i ∈ s, i.Fits g) : g.closure (ofGrammar g) s = .ok (g.closedSet s) := result_close hs

end Grammar

end FormalLang
