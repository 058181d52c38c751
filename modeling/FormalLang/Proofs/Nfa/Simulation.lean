import FormalLang.Nfa.Path
import FormalLang.Search.Reach
import Mathlib.Data.List.Nodup

/-!
# Sets of states and paths

An automaton reads a word by keeping the set of the states it may be in. These sets hold exactly the ends of the
trails that read it, and so the ends of the paths that spell it as long as no symbol read is ε.

* `Nfa.mem_silentReach`: the closed set of some states holds the ends of the paths from them that spell nothing.
* `Nfa.mem_foldl_step`: the set after a word holds the ends of the trails that read it.
* `Nfa.acceptsWord_iff_trail`: an automaton accepts a word if a trail from its start to an accepting state reads it.
* `Nfa.acceptsWord_iff_spells`: it accepts a word without ε if such a path spells it.
-/

namespace FormalLang

namespace Nfa

variable {n : Nfa} {p q : Nat} {a : Symbol} {w : List Symbol}

/-! ## Transitions -/

theorem mem_targets_iff :
    q ∈ n.targets p a ↔ ∃ row, n.rows[p]? = some row ∧ ∃ qs, row.get? a = some qs ∧ q ∈ qs := by
  unfold targets row Table.getD
  rw [List.getD_eq_getElem?_getD]
  cases n.rows[p]? with
  | none => simp
  | some row => cases h : row.get? a <;> simp [h]

theorem mem_transitions : (p, a, q) ∈ n.transitions ↔ q ∈ n.targets p a := by
  rw [mem_targets_iff]
  simp only [transitions, List.mem_flatMap, List.mem_map, Prod.mk.injEq, Prod.exists,
    List.mem_zipIdx_iff_getElem?, Table.mem_entries_iff]
  constructor
  · rintro ⟨row, i, hrow, b, qs, hqs, r, hr, rfl, rfl, rfl⟩
    exact ⟨row, hrow, qs, hqs, hr⟩
  · rintro ⟨row, hrow, qs, hqs, hq⟩
    exact ⟨row, p, hrow, a, qs, hqs, q, hq, rfl, rfl, rfl⟩

/-- No transition is listed twice. -/
theorem nodup_transitions (n : Nfa) : n.transitions.Nodup := by
  refine List.nodup_flatMap.mpr ⟨?_, ?_⟩
  · rintro ⟨row, p⟩ -
    refine List.nodup_flatMap.mpr ⟨?_, ?_⟩
    · rintro ⟨a, qs⟩ -
      exact qs.nodup_toList.map fun q r h => congrArg (·.2.2) h
    · refine (List.pairwise_map.mp row.nodup).imp fun {e f} hne => ?_
      simp only [Function.onFun, List.disjoint_left, List.mem_map]
      rintro x ⟨q, -, rfl⟩ ⟨r, -, h⟩
      exact hne (congrArg (·.2.1) h).symm
  · have hnodup : (n.rows.zipIdx.map Prod.snd).Nodup := by
      rw [List.zipIdx_map_snd]
      exact List.nodup_range'
    refine (List.pairwise_map.mp hnodup).imp fun {e f} hne => ?_
    simp only [Function.onFun, List.disjoint_left, List.mem_flatMap, List.mem_map]
    rintro x ⟨_, -, q, -, rfl⟩ ⟨_, -, r, -, h⟩
    exact hne (congrArg Prod.fst h).symm

/-! ## Trails and paths by their first symbol -/

/-- A trail that reads a symbol and more goes silently to a transition with the symbol. -/
theorem trail_cons_iff : n.Trail p (a :: w) q ↔ ∃ s r, n.Path p [] s ∧ r ∈ n.targets s a ∧ n.Trail r w q := by
  constructor
  · intro h
    generalize hv : a :: w = v at h
    induction h with
    | here => contradiction
    | @silent p p' q v hp _ ih =>
      obtain ⟨s, r, hs, hr, hw⟩ := ih hv
      exact ⟨s, r, .silent hp hs, hr, hw⟩
    | @symbol p r q b v hr hw _ =>
      obtain ⟨rfl, rfl⟩ := List.cons.inj hv
      exact ⟨p, r, .here p, hr, hw⟩
  · rintro ⟨s, r, hs, hr, hw⟩
    exact hs.append_trail (.symbol hr hw)

/-- A path that spells a symbol and more reads nothing, then the symbol, then the rest. -/
theorem path_cons_iff : n.Path p (a :: w) q ↔
    a ≠ epsilon ∧ ∃ s r, n.Path p [] s ∧ r ∈ n.targets s a ∧ n.Path r w q := by
  rw [path_iff_trail, List.mem_cons, not_or, trail_cons_iff]
  constructor
  · rintro ⟨⟨ha, hw⟩, s, r, hs, hr, hrq⟩
    exact ⟨Ne.symm ha, s, r, hs, hr, path_iff_trail.mpr ⟨hw, hrq⟩⟩
  · rintro ⟨ha, s, r, hs, hr, hrq⟩
    obtain ⟨hw, hrq⟩ := path_iff_trail.mp hrq
    exact ⟨⟨Ne.symm ha, hw⟩, s, r, hs, hr, hrq⟩

/-! ## Closed sets -/

/-- The set holds what silent steps lead to from it. -/
def SilentClosed (n : Nfa) (s : OrderedSet Nat) : Prop := ∀ p ∈ s, ∀ q, n.Path p [] q → q ∈ s

private theorem exists_path_of_reach {qs : List Nat}
    (h : Search.Reach (fun q => (n.targets q epsilon).toList) qs q) : ∃ p ∈ qs, n.Path p [] q := by
  induction h with
  | seed hp => exact ⟨_, hp, .here _⟩
  | step _ hq ih =>
    obtain ⟨p, hp, hpath⟩ := ih
    exact ⟨p, hp, hpath.append (.silent hq (.here _))⟩

private theorem reach_of_path {qs : List Nat} (h : n.Path p w q) (hw : w = [])
    (hp : Search.Reach (fun q => (n.targets q epsilon).toList) qs p) :
    Search.Reach (fun q => (n.targets q epsilon).toList) qs q := by
  induction h with
  | here => exact hp
  | silent hq _ ih => exact ih hw (.step hp hq)
  | symbol => cases hw

/-- The search for a closed set may visit each given state and the target of each transition, which is enough. -/
theorem mem_silentReach {qs : List Nat} : q ∈ n.silentReach qs ↔ ∃ p ∈ qs, n.Path p [] q := by
  have hu : ∀ p ∈ qs ++ n.transitions.map (·.2.2), (n.targets p epsilon).toList ⊆
      qs ++ n.transitions.map (·.2.2) := fun p _ q hq =>
    List.mem_append_right _ (List.mem_map.mpr ⟨(p, epsilon, q), mem_transitions.mpr hq, rfl⟩)
  have hb : (qs ++ n.transitions.map (·.2.2)).length ≤ qs.length + n.transitionCount := by
    rw [List.length_append, List.length_map]
    exact Nat.le_refl _
  rw [silentReach, OrderedSet.mem_ofList, Search.mem_found_iff (List.subset_append_left _ _) hu hb]
  constructor
  · exact exists_path_of_reach
  · rintro ⟨p, hp, hpath⟩
    exact reach_of_path hpath rfl (.seed hp)

theorem silentClosed_silentReach (qs : List Nat) : n.SilentClosed (n.silentReach qs) := by
  intro p hp q hpq
  obtain ⟨r, hr, hrp⟩ := mem_silentReach.mp hp
  exact mem_silentReach.mpr ⟨r, hr, hrp.append hpq⟩

theorem silentClosed_step (s : OrderedSet Nat) (a : Symbol) : n.SilentClosed (n.step s a) :=
  silentClosed_silentReach _

theorem mem_moveAll {qs : List Nat} : q ∈ n.moveAll qs a ↔ ∃ p ∈ qs, q ∈ n.targets p a := by
  rw [moveAll, OrderedSet.mem_unions]
  constructor
  · rintro ⟨s, hs, hq⟩
    obtain ⟨p, hp, rfl⟩ := List.mem_map.mp hs
    exact ⟨p, hp, hq⟩
  · rintro ⟨p, hp, hq⟩
    exact ⟨_, List.mem_map.mpr ⟨p, hp, rfl⟩, hq⟩

theorem mem_step {s : OrderedSet Nat} :
    q ∈ n.step s a ↔ ∃ p ∈ s, ∃ r, r ∈ n.targets p a ∧ n.Path r [] q := by
  rw [step, mem_silentReach]
  constructor
  · rintro ⟨r, hr, hq⟩
    obtain ⟨p, hp, hpr⟩ := mem_moveAll.mp hr
    exact ⟨p, hp, r, hpr, hq⟩
  · rintro ⟨p, hp, r, hpr, hq⟩
    exact ⟨r, mem_moveAll.mpr ⟨p, hp, hpr⟩, hq⟩

/-- A trail from a closed set that reads a symbol and more goes on from the set after the symbol. -/
theorem exists_trail_step_iff {s : OrderedSet Nat} (hs : n.SilentClosed s) :
    (∃ p ∈ n.step s a, n.Trail p w q) ↔ ∃ p ∈ s, n.Trail p (a :: w) q := by
  constructor
  · rintro ⟨p', hp', hw⟩
    obtain ⟨p, hp, r, hr, hrp⟩ := mem_step.mp hp'
    exact ⟨p, hp, .symbol hr (hrp.append_trail hw)⟩
  · rintro ⟨p, hp, hw⟩
    obtain ⟨p', r, hpp, hr, hw⟩ := trail_cons_iff.mp hw
    exact ⟨r, mem_step.mpr ⟨p', hs p hp p' hpp, r, hr, .here r⟩, hw⟩

/-- A path from a closed set that spells a symbol and more goes on from the set after the symbol. -/
theorem exists_path_step_iff {s : OrderedSet Nat} (hs : n.SilentClosed s) (ha : a ≠ epsilon) :
    (∃ p ∈ n.step s a, n.Path p w q) ↔ ∃ p ∈ s, n.Path p (a :: w) q := by
  constructor
  · rintro ⟨p, hp, hpq⟩
    obtain ⟨hw, hpq⟩ := path_iff_trail.mp hpq
    obtain ⟨r, hr, hrq⟩ := (exists_trail_step_iff hs).mp ⟨p, hp, hpq⟩
    exact ⟨r, hr, path_iff_trail.mpr ⟨List.not_mem_cons_of_ne_of_not_mem (Ne.symm ha) hw, hrq⟩⟩
  · rintro ⟨p, hp, hpq⟩
    obtain ⟨hw, hpq⟩ := path_iff_trail.mp hpq
    obtain ⟨r, hr, hrq⟩ := (exists_trail_step_iff hs).mpr ⟨p, hp, hpq⟩
    exact ⟨r, hr, path_iff_trail.mpr ⟨List.not_mem_of_not_mem_cons hw, hrq⟩⟩

/-- The set after a word holds the ends of the trails that read it, whatever the symbols of the word. -/
theorem mem_foldl_step {s : OrderedSet Nat} (hs : n.SilentClosed s) :
    q ∈ w.foldl n.step s ↔ ∃ p ∈ s, n.Trail p w q := by
  induction w generalizing s with
  | nil =>
    constructor
    · exact fun h => ⟨q, h, .here q⟩
    · rintro ⟨p, hp, hpq⟩
      exact hs p hp q (path_iff_trail.mpr ⟨List.not_mem_nil, hpq⟩)
  | cons a w ih => rw [List.foldl_cons, ih (silentClosed_step s a), exists_trail_step_iff hs]

/-! ## Acceptance -/

theorem meetsAccept_iff {s : OrderedSet Nat} : n.meetsAccept s = true ↔ ∃ q ∈ s, q ∈ n.accept := by
  simp only [meetsAccept, List.any_eq_true, decide_eq_true_eq, OrderedSet.mem_def]

/-- The closed set before any symbol, of an automaton whose start is a state. -/
theorem initial_eq (hs : n.start < n.count) : n.initial = .ok (n.silentReach [n.start]) := by
  simp only [initial, closure, checkState, List.reverse_singleton, List.mapM_cons, List.mapM_nil,
    checkState_natCast hs]
  rfl

/-- An automaton whose start is a state answers for every word, and accepts those that a trail from its start to an
accepting state reads. -/
theorem acceptsWord_iff_trail (hs : n.start < n.count) (w : List Symbol) :
    ∃ b, n.acceptsWord w = .ok b ∧ (b = true ↔ ∃ q ∈ n.accept, n.Trail n.start w q) := by
  refine ⟨n.meetsAccept (w.foldl n.step (n.silentReach [n.start])), ?_, ?_⟩
  · rw [acceptsWord, initial_eq hs]
    rfl
  · rw [meetsAccept_iff]
    constructor
    · rintro ⟨q, hq, hqa⟩
      obtain ⟨p, hp, hpq⟩ := (mem_foldl_step (silentClosed_silentReach _)).mp hq
      obtain ⟨r, hr, hrp⟩ := mem_silentReach.mp hp
      obtain rfl := List.mem_singleton.mp hr
      exact ⟨q, hqa, hrp.append_trail hpq⟩
    · rintro ⟨q, hqa, hpq⟩
      have hstart : n.start ∈ n.silentReach [n.start] :=
        mem_silentReach.mpr ⟨n.start, List.mem_singleton.mpr rfl, .here _⟩
      exact ⟨q, (mem_foldl_step (silentClosed_silentReach _)).mpr ⟨n.start, hstart, hpq⟩, hqa⟩

/-- An automaton whose start is a state answers for every word, and accepts those without ε that a path spells. -/
theorem acceptsWord_iff_spells (hs : n.start < n.count) (hw : epsilon ∉ w) :
    ∃ b, n.acceptsWord w = .ok b ∧ (b = true ↔ n.Spells w) := by
  obtain ⟨b, hb, htrail⟩ := acceptsWord_iff_trail hs w
  refine ⟨b, hb, htrail.trans ?_⟩
  constructor
  · rintro ⟨q, hq, hpath⟩
    exact ⟨q, hq, path_iff_trail.mpr ⟨hw, hpath⟩⟩
  · rintro ⟨q, hq, hpath⟩
    exact ⟨q, hq, (path_iff_trail.mp hpath).2⟩

end Nfa

/-- A text without the character ε has no symbol that reads nothing. -/
theorem epsilon_notMem_symbols {text : String} (h : 'ε' ∉ text.toList) : epsilon ∉ symbols text := by
  intro he
  obtain ⟨c, hc, hce⟩ := List.mem_map.mp he
  have : c = 'ε' := by
    have h := congrArg String.toList hce
    simpa [epsilon] using h
  exact h (this ▸ hc)

end FormalLang
