import FormalLang.Proofs.Item.Shift
import FormalLang.Proofs.Subsets

/-!
# The canonical collection

The search for states has a visit for each set of items that can be reached, so that it ends with every state that a
letter leads to. A sequence of letters leads to the items that are reached by shifting along its letters, with
predictions in between.

* `Grammar.mem_discover_iff`: the states that are discovered.
* `Grammar.collect_eq_ok_iff`: when there is a collection, and which one.
* `Grammar.exists_collect`: the collection of items that fit the grammar has no fault, and each letter after a dot leads
  from a state to the closure of the shifted items.
* `Grammar.Reached`: the items that a sequence of letters leads to, said without states.
* `Grammar.IsCollection.mem_state_iff`: the state that a sequence leads to.
* `Grammar.IsCollection.exists_run?_iff`: the sequences that lead to a state.
-/

namespace FormalLang

open FirstFollow Relation

variable {g : Grammar} {i j : Item} {l : Letter} {s t : ItemSet} {γ : List Letter} {k : Nat}

/-! ## Runs -/

namespace Collection

/-- The state that a letter leads to. -/
def target? (c : Collection) (k : Nat) (l : Letter) : Option Nat :=
  (c.transitions.find? fun t => t.1 = k && t.2.1 = l).map fun t => t.2.2

@[simp] theorem run?_nil (c : Collection) (k : Nat) : c.run? k [] = some k := rfl

theorem run?_concat (c : Collection) (k : Nat) (γ : List Letter) (l : Letter) :
    c.run? k (γ ++ [l]) = (c.run? k γ).bind fun m => c.target? m l := by
  rw [run?, List.foldlM_append]
  refine congrArg (Option.bind _) (funext fun m => ?_)
  exact List.foldlM_cons.trans (bind_pure _)

end Collection

namespace ItemSet

/-- What a letter leads to: the closure of the items in which the dot has passed it. -/
def after (g : Grammar) (s : ItemSet) (l : Letter) : ItemSet := g.closedSet (s.shifted l)

theorem goto_eq_ok (hs : ∀ i ∈ s, i.hasDot = true) (l : Letter) : s.goto l = .ok (s.shifted l) :=
  if_pos (List.all_eq_true.mpr hs)

theorem fits_of_mem_shifted (hs : ∀ i ∈ s, i.Fits g) (h : i ∈ s.shifted l) : i.Fits g := by
  obtain ⟨j, ⟨hj, -⟩, rfl⟩ := mem_shifted.mp h
  exact (hs j hj).shift

theorem mem_after_iff (hs : ∀ i ∈ s, i.Fits g) : i ∈ s.after g l ↔
    ∃ j ∈ s, j.next? = some l ∧ ReflTransGen g.Predicts j.shift i := by
  rw [after, Grammar.mem_closedSet_iff fun i hi => fits_of_mem_shifted hs hi]
  constructor
  · rintro ⟨i₀, hi₀, h⟩
    obtain ⟨j, ⟨hj, hl⟩, rfl⟩ := mem_shifted.mp hi₀
    exact ⟨j, hj, hl, h⟩
  · rintro ⟨j, hj, hl, h⟩
    exact ⟨j.shift, mem_shifted.mpr ⟨j, ⟨hj, hl⟩, rfl⟩, h⟩

theorem fits_of_mem_after (hs : ∀ i ∈ s, i.Fits g) (h : i ∈ s.after g l) : i.Fits g :=
  Grammar.fits_of_mem_closedSet (fun _ hi => fits_of_mem_shifted hs hi) h

end ItemSet

theorem findSome?_upToFirst {α β : Type} (f : α → Option β) (l : List α) :
    (upToFirst (fun a => (f a).isSome) l).findSome? f = l.findSome? f := by
  induction l with
  | nil => rfl
  | cons a l ih =>
    rw [upToFirst]
    cases ha : f a with
    | none => simp [ha, ih]
    | some b => simp [ha]

theorem Closing.fault?_eq_none_iff {c : Closing} : c.fault? = none ↔ ∃ u, c.result = .ok u := by
  rw [fault?]
  cases c.result with
  | error e => simp
  | ok u => simp

namespace Grammar

/-! ## The search for states -/

section Search

variable {f : FirstFollow}

/-- What the letters of a state lead to, unless a fault is in the way. -/
def nextStates (g : Grammar) (f : FirstFollow) (s : ItemSet) : List ItemSet :=
  (g.closings f s).filterMap fun (_, c) => c.result.toOption

theorem mem_nextStates_iff : t ∈ g.nextStates f s ↔ ∃ l ∈ s.nextLetters, (g.close f (s.shifted l)).result = .ok t := by
  rw [nextStates, closings, List.filterMap_map, List.mem_filterMap]
  refine exists_congr fun l => and_congr_right fun _ => ?_
  exact toOption_eq_some_iff

theorem getElem?_discover_zero (g : Grammar) (f : FirstFollow) (s : ItemSet) : (g.discover f s)[0]? = some s :=
  Search.getElem?_found_zero _ _ _ s

theorem nodup_discover (g : Grammar) (f : FirstFollow) (s : ItemSet) : (g.discover f s).Nodup := Search.nodup_found _ _ _ _

/-- A letter leads from items that can be reached to items that can be reached. -/
theorem result_subset_reachedItems {u : ItemSet} (ht : ∀ i ∈ t, i ∈ g.reachedItems f s)
    (h : (g.close f (t.shifted l)).result = .ok u) : ∀ i ∈ u, i ∈ g.reachedItems f s := by
  intro i hi
  replace hi := ((result_close_eq_ok_iff.mp h).2 i).mp hi
  induction hi with
  | seed hi =>
    obtain ⟨j, ⟨hj, -⟩, rfl⟩ := ItemSet.mem_shifted.mp hi
    exact shift_mem_reachedItems (ht j hj)
  | step _ hb ih => exact predicted_subset_reachedItems ih hb

/-- The sets of items that can be reached hold the start, and what letters lead to from them. -/
theorem nextStates_subset_setsOver (ht : t ∈ OrderedSet.setsOver (g.reachedItems f s)) :
    g.nextStates f t ⊆ OrderedSet.setsOver (g.reachedItems f s) := by
  intro u hu
  obtain ⟨l, -, hu⟩ := mem_nextStates_iff.mp hu
  exact OrderedSet.mem_setsOver (result_subset_reachedItems (OrderedSet.mem_of_mem_setsOver ht) hu)

theorem start_subset_setsOver (g : Grammar) (f : FirstFollow) (s : ItemSet) :
    [s] ⊆ OrderedSet.setsOver (g.reachedItems f s) := by
  intro t ht
  rw [List.mem_singleton.mp ht]
  refine OrderedSet.mem_setsOver fun i hi => ?_
  exact arisingItems_subset_reachedItems (mem_arisingItems.mpr (.inl hi))

theorem length_setsOver_reachedItems_le (g : Grammar) (f : FirstFollow) (s : ItemSet) :
    (OrderedSet.setsOver (g.reachedItems f s)).length ≤ Nat.pow 2 (g.itemBound f s) := by
  rw [OrderedSet.length_setsOver]
  exact Nat.pow_le_pow_right Nat.two_pos (length_reachedItems_le g f s)

/-- The search for states has a visit for each set of items that can be reached, so that it is over. -/
theorem finishes_discover (g : Grammar) (f : FirstFollow) (s : ItemSet) : Search.Finishes .breadthFirst (g.nextStates f) [s]
    (search .breadthFirst (g.nextStates f) (Nat.pow 2 (g.itemBound f s)) [s]) :=
  Search.finishes_search (start_subset_setsOver g f s) (fun _ => nextStates_subset_setsOver)
    (length_setsOver_reachedItems_le g f s)

theorem exists_finishes_discover (g : Grammar) (f : FirstFollow) (s : ItemSet) :
    ∃ trace, Search.Finishes .breadthFirst (g.nextStates f) [s] trace ∧ g.discover f s = trace.found :=
  ⟨_, finishes_discover g f s, rfl⟩

theorem mem_discover_iff : t ∈ g.discover f s ↔ Search.Reach (g.nextStates f) [s] t :=
  Search.mem_found_iff (start_subset_setsOver g f s) (fun _ => nextStates_subset_setsOver)
    (length_setsOver_reachedItems_le g f s)

end Search

theorem mem_nextStates_iff_after (hs : ∀ i ∈ s, i.Fits g) :
    t ∈ g.nextStates (ofGrammar g) s ↔ ∃ l ∈ s.nextLetters, s.after g l = t := by
  rw [mem_nextStates_iff]
  refine exists_congr fun l => and_congr_right fun _ => ?_
  rw [result_close fun i hi => ItemSet.fits_of_mem_shifted hs hi, Except.ok.injEq]
  rfl

section Fits

variable (hs : ∀ i ∈ s, i.Fits g)
include hs

theorem fits_of_mem_discover (ht : t ∈ g.discover (ofGrammar g) s) : ∀ i ∈ t, i.Fits g := by
  replace ht := mem_discover_iff.mp ht
  induction ht with
  | seed h =>
    rw [List.mem_singleton.mp h]
    exact hs
  | step _ h ih =>
    obtain ⟨l, -, rfl⟩ := (mem_nextStates_iff_after ih).mp h
    exact fun i hi => ItemSet.fits_of_mem_after ih hi

theorem after_mem_discover (ht : t ∈ g.discover (ofGrammar g) s) (hl : l ∈ t.nextLetters) :
    t.after g l ∈ g.discover (ofGrammar g) s := by
  have hfits := fits_of_mem_discover hs ht
  exact mem_discover_iff.mpr (.step (mem_discover_iff.mp ht) ((mem_nextStates_iff_after hfits).mpr ⟨l, hl, rfl⟩))

/-- The discovered states are what sequences of letters lead to from the first one. -/
theorem reach_of_mem_discover (ht : t ∈ g.discover (ofGrammar g) s) :
    Search.Reach (fun t => t.nextLetters.toList.map (t.after g)) [s] t := by
  replace ht := mem_discover_iff.mp ht
  induction ht with
  | seed h => exact .seed h
  | step hr h ih =>
    have hfits := fits_of_mem_discover hs (mem_discover_iff.mpr hr)
    obtain ⟨l, hl, rfl⟩ := (mem_nextStates_iff_after hfits).mp h
    exact .step ih (List.mem_map_of_mem hl)

end Fits

/-! ## Transitions -/

/-- What can be followed from states that hold items that fit the grammar. -/
theorem transitions_collectionOf {states : List ItemSet} (hs : ∀ s ∈ states, ∀ i ∈ s, i.Fits g) :
    (g.collectionOf (ofGrammar g) states).transitions = states.zipIdx.flatMap fun e =>
      e.1.nextLetters.toList.map fun l => (e.2, l, states.idxOf (e.1.after g l)) := by
  rw [collectionOf]
  refine List.flatMap_congr fun e he => ?_
  obtain ⟨t, k⟩ := e
  have hfits := hs t (List.mem_of_getElem? (List.mem_zipIdx_iff_getElem?.mp he))
  simp only [closings, List.filterMap_map]
  rw [← List.filterMap_eq_map]
  refine List.filterMap_congr fun l _ => ?_
  simp only [Function.comp_apply, result_close fun i hi => ItemSet.fits_of_mem_shifted hfits hi]
  rfl

theorem mem_transitions_collectionOf {states : List ItemSet} (hs : ∀ s ∈ states, ∀ i ∈ s, i.Fits g)
    {e : Nat × Letter × Nat} : e ∈ (g.collectionOf (ofGrammar g) states).transitions ↔
      ∃ s, states[e.1]? = some s ∧ e.2.1 ∈ s.nextLetters ∧ e.2.2 = states.idxOf (s.after g e.2.1) := by
  rw [transitions_collectionOf hs]
  obtain ⟨k, l, m⟩ := e
  simp only [List.mem_flatMap, List.mem_map, Prod.exists, List.mem_zipIdx_iff_getElem?, Prod.mk.injEq]
  constructor
  · rintro ⟨s, k, hk, l, hl, rfl, rfl, rfl⟩
    exact ⟨s, hk, hl, rfl⟩
  · rintro ⟨s, hk, hl, hm⟩
    exact ⟨s, k, hk, l, hl, rfl, rfl, hm.symm⟩

/-- A letter is followed from a state only once. -/
theorem nodup_keys_collectionOf {states : List ItemSet} (hs : ∀ s ∈ states, ∀ i ∈ s, i.Fits g) :
    ((g.collectionOf (ofGrammar g) states).transitions.map fun e => (e.1, e.2.1)).Nodup := by
  have hindices : states.zipIdx.Pairwise fun e e' => e.2 ≠ e'.2 := by
    rw [← List.pairwise_map, List.zipIdx_map_snd]
    exact List.nodup_range'
  simp only [transitions_collectionOf hs, List.map_flatMap, List.map_map, Function.comp_def]
  refine List.nodup_flatMap.mpr ⟨fun e _ => ?_, hindices.imp fun he c hc hc' => ?_⟩
  · exact (OrderedSet.nodup_toList _).map fun _ _ h => (Prod.mk.inj h).2
  · obtain ⟨_, -, rfl⟩ := List.mem_map.mp hc
    obtain ⟨_, -, h⟩ := List.mem_map.mp hc'
    exact he (Prod.mk.inj h).1.symm

/-- The states are distinct and hold items that fit the grammar, the first one is `start`, a letter leads from each state
to one of them, by a single transition, and they are all reached from the first one. -/
structure IsCollection (g : Grammar) (start : ItemSet) (c : Collection) : Prop where
  states_zero : c.states[0]? = some start
  nodup_states : c.states.Nodup
  fits : ∀ s ∈ c.states, ∀ i ∈ s, i.Fits g
  after_mem : ∀ s ∈ c.states, ∀ l ∈ s.nextLetters, s.after g l ∈ c.states
  reach : ∀ s ∈ c.states, Search.Reach (fun t => t.nextLetters.toList.map (t.after g)) [start] s
  nodup_keys : (c.transitions.map fun e => (e.1, e.2.1)).Nodup
  mem_transitions : ∀ e, e ∈ c.transitions ↔
    ∃ s, c.states[e.1]? = some s ∧ e.2.1 ∈ s.nextLetters ∧ e.2.2 = c.states.idxOf (s.after g e.2.1)

theorem isCollection_collectionOf {states : List ItemSet} (hzero : states[0]? = some s) (hnodup : states.Nodup)
    (hfits : ∀ t ∈ states, ∀ i ∈ t, i.Fits g) (hafter : ∀ t ∈ states, ∀ l ∈ t.nextLetters, t.after g l ∈ states)
    (hreach : ∀ t ∈ states, Search.Reach (fun t => t.nextLetters.toList.map (t.after g)) [s] t) :
    g.IsCollection s (g.collectionOf (ofGrammar g) states) where
  states_zero := hzero
  nodup_states := hnodup
  fits := hfits
  after_mem := hafter
  reach := hreach
  nodup_keys := nodup_keys_collectionOf hfits
  mem_transitions _ := mem_transitions_collectionOf hfits

/-! ## The collection -/

/-- The closures of a collection have no fault if there are closures of all that letters lead to. -/
theorem findSome?_allClosings_eq_none_iff {f : FirstFollow} {start : ItemSet}
    (hstart : (g.close f s).result = .ok start) : (g.allClosings f s).findSome? Closing.fault? = none ↔
      ∀ t ∈ g.discover f start, ∀ l ∈ t.nextLetters, ∃ u, (g.close f (t.shifted l)).result = .ok u := by
  have hfirst : (g.close f s).fault? = none := Closing.fault?_eq_none_iff.mpr ⟨start, hstart⟩
  simp only [allClosings, hstart]
  rw [findSome?_upToFirst, List.findSome?_cons, hfirst, List.findSome?_eq_none_iff]
  constructor
  · intro hnone t ht l hl
    have hclosing : g.close f (t.shifted l) ∈ (g.closings f t).map Prod.snd :=
      List.mem_map.mpr ⟨_, List.mem_map_of_mem hl, rfl⟩
    exact Closing.fault?_eq_none_iff.mp (hnone _ (List.mem_flatMap.mpr ⟨t, ht, hclosing⟩))
  · intro hall c hc
    obtain ⟨t, ht, hc⟩ := List.mem_flatMap.mp hc
    obtain ⟨_, he, rfl⟩ := List.mem_map.mp hc
    obtain ⟨l, hl, rfl⟩ := List.mem_map.mp he
    exact Closing.fault?_eq_none_iff.mpr (hall t ht l hl)

/-- There is a collection if there are closures of the start items and of all that letters lead to. Its states are then the
discovered ones. -/
theorem collect_eq_ok_iff {f : FirstFollow} {c : Collection} : g.collect f s = .ok c ↔
    ∃ start, (g.close f s).result = .ok start ∧
      (∀ t ∈ g.discover f start, ∀ l ∈ t.nextLetters, ∃ u, (g.close f (t.shifted l)).result = .ok u) ∧
      g.collectionOf f (g.discover f start) = c := by
  rw [collect, closure, bind_eq_ok_iff]
  refine exists_congr fun start => and_congr_right fun hstart => ?_
  rw [← findSome?_allClosings_eq_none_iff hstart]
  cases (g.allClosings f s).findSome? Closing.fault? with
  | some e => exact iff_of_false (fun h => by cases h) fun h => by cases h.1
  | none => exact ⟨fun h => ⟨rfl, Except.ok.inj h⟩, fun h => congrArg Except.ok h.2⟩

/-- The collection of items that fit the grammar has no fault. -/
theorem exists_collect (hs : ∀ i ∈ s, i.Fits g) :
    ∃ c, g.collect (ofGrammar g) s = .ok c ∧ g.IsCollection (g.closedSet s) c := by
  have hstart : ∀ i ∈ g.closedSet s, i.Fits g := fun i hi => fits_of_mem_closedSet hs hi
  refine ⟨g.collectionOf (ofGrammar g) (g.discover (ofGrammar g) (g.closedSet s)), ?_, ?_⟩
  · refine collect_eq_ok_iff.mpr ⟨g.closedSet s, result_close hs, fun t ht l _ => ⟨_, result_close fun i hi => ?_⟩, rfl⟩
    exact ItemSet.fits_of_mem_shifted (fits_of_mem_discover hstart ht) hi
  · exact isCollection_collectionOf (getElem?_discover_zero g _ _) (nodup_discover g _ _)
      (fun _ => fits_of_mem_discover hstart) (fun _ ht _ => after_mem_discover hstart ht)
      fun _ => reach_of_mem_discover hstart

/-! ## What sequences lead to -/

/-- The items that a sequence of letters leads to from given ones. -/
inductive Reached (g : Grammar) (s : ItemSet) : List Letter → Item → Prop where
  | seed {i : Item} : i ∈ s → Reached g s [] i
  | shift {γ : List Letter} {i : Item} {l : Letter} : Reached g s γ i → i.next? = some l → Reached g s (γ ++ [l]) i.shift
  | predict {γ : List Letter} {i j : Item} : Reached g s γ i → g.Predicts i j → Reached g s γ j

theorem Reached.predict_all (h : g.Reached s γ i) (hp : ReflTransGen g.Predicts i j) : g.Reached s γ j := by
  induction hp with
  | refl => exact h
  | tail _ hp ih => exact .predict ih hp

theorem reached_nil_iff : g.Reached s [] i ↔ ∃ i₀ ∈ s, ReflTransGen g.Predicts i₀ i := by
  constructor
  · intro h
    generalize hγ : ([] : List Letter) = γ at h
    induction h with
    | seed h => exact ⟨_, h, .refl⟩
    | shift => simp at hγ
    | predict _ hp ih =>
      obtain ⟨i₀, hi₀, h⟩ := ih hγ
      exact ⟨i₀, hi₀, h.tail hp⟩
  · rintro ⟨i₀, hi₀, h⟩
    exact (Reached.seed hi₀).predict_all h

theorem reached_concat_iff : g.Reached s (γ ++ [l]) i ↔
    ∃ j, g.Reached s γ j ∧ j.next? = some l ∧ ReflTransGen g.Predicts j.shift i := by
  constructor
  · intro h
    generalize hγ : γ ++ [l] = γ' at h
    induction h with
    | seed => simp at hγ
    | shift h hl _ =>
      obtain ⟨rfl, hl'⟩ := List.append_inj' hγ rfl
      cases hl'
      exact ⟨_, h, hl, .refl⟩
    | predict _ hp ih =>
      obtain ⟨j, hj, hl, h⟩ := ih hγ
      exact ⟨j, hj, hl, h.tail hp⟩
  · rintro ⟨j, hj, hl, h⟩
    exact (Reached.shift hj hl).predict_all h

namespace IsCollection

variable {c : Collection}

theorem target?_eq_some (hc : g.IsCollection t c) (hk : c.states[k]? = some s) (hl : l ∈ s.nextLetters) :
    c.target? k l = some (c.states.idxOf (s.after g l)) := by
  have hmem : (k, l, c.states.idxOf (s.after g l)) ∈ c.transitions := (hc.mem_transitions _).mpr ⟨s, hk, hl, rfl⟩
  rw [Collection.target?]
  cases hf : c.transitions.find? fun t => t.1 = k && t.2.1 = l with
  | none => exact absurd (List.find?_eq_none.mp hf _ hmem) (by simp)
  | some e =>
    obtain ⟨s', hk', hl', he⟩ := (hc.mem_transitions e).mp (List.mem_of_find?_eq_some hf)
    obtain ⟨rfl, rfl⟩ : e.1 = k ∧ e.2.1 = l := by simpa using List.find?_some hf
    obtain rfl : s = s' := Option.some.inj (hk.symm.trans hk')
    rw [Option.map_some, he]

theorem mem_nextLetters_of_target? (hc : g.IsCollection t c) (hk : c.states[k]? = some s) {m : Nat}
    (h : c.target? k l = some m) : l ∈ s.nextLetters := by
  obtain ⟨e, hf, -⟩ := Option.map_eq_some_iff.mp h
  obtain ⟨s', hk', hl', -⟩ := (hc.mem_transitions e).mp (List.mem_of_find?_eq_some hf)
  obtain ⟨rfl, rfl⟩ : e.1 = k ∧ e.2.1 = l := by simpa using List.find?_some hf
  obtain rfl : s = s' := Option.some.inj (hk.symm.trans hk')
  exact hl'

/-- The state that a sequence leads to holds exactly the items that the sequence leads to. -/
theorem mem_state_iff (hs : ∀ i ∈ s, i.Fits g) (hc : g.IsCollection (g.closedSet s) c)
    (h : c.run? 0 γ = some k) : ∃ t, c.states[k]? = some t ∧ ∀ i, i ∈ t ↔ g.Reached s γ i := by
  induction γ using List.reverseRecOn generalizing k with
  | nil =>
    obtain rfl : 0 = k := Option.some.inj h
    refine ⟨_, hc.states_zero, fun i => ?_⟩
    rw [reached_nil_iff, mem_closedSet_iff hs]
  | append_singleton γ l ih =>
    rw [Collection.run?_concat] at h
    obtain ⟨m, hm, h⟩ := Option.bind_eq_some_iff.mp h
    obtain ⟨t, ht, hmem⟩ := ih hm
    have htc := List.mem_of_getElem? ht
    have hl := hc.mem_nextLetters_of_target? ht h
    rw [hc.target?_eq_some ht hl] at h
    obtain rfl := Option.some.inj h
    refine ⟨t.after g l, List.getElem?_idxOf (hc.after_mem t htc l hl), fun i => ?_⟩
    rw [ItemSet.mem_after_iff (hc.fits t htc), reached_concat_iff]
    simp only [hmem]

/-- A letter can be followed from the state of a sequence if it leads to an item. -/
theorem exists_run?_concat_iff (hs : ∀ i ∈ s, i.Fits g) (hc : g.IsCollection (g.closedSet s) c) :
    (∃ k, c.run? 0 (γ ++ [l]) = some k) ↔ (∃ k, c.run? 0 γ = some k) ∧ ∃ i, g.Reached s (γ ++ [l]) i := by
  simp only [Collection.run?_concat, Option.bind_eq_some_iff]
  constructor
  · rintro ⟨k, m, hm, h⟩
    obtain ⟨t, ht, hmem⟩ := hc.mem_state_iff hs hm
    obtain ⟨i, hi, hl⟩ := ItemSet.mem_nextLetters.mp (hc.mem_nextLetters_of_target? ht h)
    exact ⟨⟨m, hm⟩, i.shift, .shift ((hmem i).mp hi) hl⟩
  · rintro ⟨⟨m, hm⟩, i, hi⟩
    obtain ⟨t, ht, hmem⟩ := hc.mem_state_iff hs hm
    obtain ⟨j, hj, hl, -⟩ := reached_concat_iff.mp hi
    exact ⟨_, m, hm, hc.target?_eq_some ht (ItemSet.mem_nextLetters.mpr ⟨j, (hmem j).mpr hj, hl⟩)⟩

/-- A sequence can be followed if it is empty or leads to an item. -/
theorem exists_run?_iff (hs : ∀ i ∈ s, i.Fits g) (hc : g.IsCollection (g.closedSet s) c) :
    (∃ k, c.run? 0 γ = some k) ↔ γ = [] ∨ ∃ i, g.Reached s γ i := by
  induction γ using List.reverseRecOn with
  | nil => exact iff_of_true ⟨0, rfl⟩ (.inl rfl)
  | append_singleton γ l ih =>
    rw [hc.exists_run?_concat_iff hs, ih]
    constructor
    · rintro ⟨-, h⟩
      exact .inr h
    · rintro (h | ⟨i, hi⟩)
      · simp at h
      · obtain ⟨j, hj, -, -⟩ := reached_concat_iff.mp hi
        exact ⟨.inr ⟨j, hj⟩, i, hi⟩

end IsCollection

end Grammar

end FormalLang
