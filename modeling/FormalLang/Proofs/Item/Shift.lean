import FormalLang.Proofs.Item.Closure
import Mathlib.Data.List.TakeWhile

/-!
# Shifts

The dot of an item moves until it is at the end, or before a letter that looks like it, so that an item has only
finitely many shifts. With the items that begin a production, and finitely many lookaheads, this bounds the items of all
closures that are made on the way from given items.

* `Item.after?_shift_of_ne`: the dot leaves behind the letter that it passes.
* `Item.Fits.shift`, `Item.HasOneDot.shift`: a shift neither adds nor loses letters.
* `Item.dots_iff`, `Item.Dots.shift`: dotted productions, which stay such if the dot is none of their letters.
* `Grammar.shift_mem_reachedItems`, `Grammar.predicted_subset_reachedItems`: the items that can be reached are closed
  under shifts and predictions.
-/

namespace FormalLang

open FirstFollow Relation

variable {g : Grammar} {i j : Item} {n : Int} {l : Letter} {rest : List Letter} {s : ItemSet}

namespace Item

/-! ## Shifts -/

theorem next?_eq_some_iff : i.next? = some l ↔ ∃ rest, i.after? = some (l :: rest) := by
  rw [next?, Option.bind_eq_some_iff]
  constructor
  · rintro ⟨_ | ⟨m, rest⟩, h, hl⟩
    · cases hl
    · obtain rfl : m = l := Option.some.inj hl
      exact ⟨rest, h⟩
  · rintro ⟨rest, h⟩
    exact ⟨_, h, rfl⟩

theorem shift_eq (h : i.after? = some (l :: rest)) : i.shift = { i with body := i.before ++ l :: dot :: rest } := by
  simp [shift, h]

theorem shift_of_after?_none (h : i.after? = none) : i.shift = i := by
  simp [shift, h]

theorem shift_of_after?_nil (h : i.after? = some []) : i.shift = i := by
  simp [shift, h]

/-- Two dots that change places leave the item as it is. -/
theorem shift_of_after?_dot (h : i.after? = some (dot :: rest)) : i.shift = i := by
  rw [shift_eq h, ← body_eq_of_after? h]

@[simp] theorem shift_lookahead (i : Item) : i.shift.lookahead = i.lookahead := by
  unfold shift
  split <;> rfl

theorem shift_body_perm (i : Item) : i.shift.body.Perm i.body := by
  unfold shift
  split
  · next l rest h =>
    rw [body_eq_of_after? h]
    exact (List.Perm.swap dot l rest).append_left i.before
  · exact .refl _

theorem dot_not_mem_before (i : Item) : dot ∉ i.before := fun h => by
  simpa using List.mem_takeWhile_imp h

/-- The dot and the letters around it, where the body is written with its only dot. -/
theorem after?_eq_of_body {α : List Letter} (h : i.body = α ++ dot :: rest) (hα : dot ∉ α) : i.after? = some rest := by
  rw [after?, h, List.dropWhile_append_of_pos (fun m hm => by simpa using fun e : m = dot => hα (e ▸ hm))]
  simp

theorem before_eq_of_body {α : List Letter} (h : i.body = α ++ dot :: rest) (hα : dot ∉ α) : i.before = α := by
  rw [before, h, List.takeWhile_append_of_pos (fun m hm => by simpa using fun e : m = dot => hα (e ▸ hm))]
  simp

theorem after?_shift_of_ne (h : i.after? = some (l :: rest)) (hl : l ≠ dot) : i.shift.after? = some rest := by
  refine after?_eq_of_body (α := i.before ++ [l]) (by simp [shift_eq h]) fun hm => ?_
  rcases List.mem_append.mp hm with hm | hm
  · exact dot_not_mem_before i hm
  · exact hl (List.mem_singleton.mp hm).symm

theorem HasOneDot.shift (hi : i.HasOneDot) : i.shift.HasOneDot := by
  rw [HasOneDot, (shift_body_perm i).count_eq]
  exact hi

theorem hasDot_iff : i.hasDot = true ↔ dot ∈ i.body := by
  rw [hasDot, Option.isSome_iff_exists]
  constructor
  · rintro ⟨rest, h⟩
    rw [body_eq_of_after? h]
    exact List.mem_append_right _ (.head _)
  · intro h
    obtain ⟨α, β, hb, hα⟩ := List.eq_append_cons_of_mem h
    exact ⟨β, after?_eq_of_body hb hα⟩

/-- A shift keeps the dot and adds no letters. -/
theorem Fits.shift (hi : i.Fits g) : i.shift.Fits g where
  hasDot := hasDot_iff.mpr ((shift_body_perm i).mem_iff.mpr (hasDot_iff.mp hi.hasDot))
  mem_nonterminals n hn := hi.mem_nonterminals n ((shift_body_perm i).mem_iff.mp hn)

/-- The item with its dot at the same place or at a later one. -/
def shifts (i : Item) : List Item := (List.range ((i.after?.getD []).length + 1)).map fun k => shift^[k] i

theorem length_shifts_le (i : Item) : i.shifts.length ≤ i.body.length + 1 := by
  rw [shifts, List.length_map, List.length_range]
  cases h : i.after? with
  | none => simp
  | some rest =>
    have := congrArg List.length (body_eq_of_after? h)
    simp only [List.length_append, List.length_cons] at this
    simp only [Option.getD_some]
    omega

theorem exists_iterate_le_length (h : i.after? = some rest) (k : Nat) : ∃ m ≤ rest.length, shift^[k] i = shift^[m] i := by
  induction rest generalizing i k with
  | nil => exact ⟨0, le_rfl, Function.iterate_fixed (shift_of_after?_nil h) k⟩
  | cons l rest ih =>
    by_cases hl : l = dot
    · subst hl
      exact ⟨0, Nat.zero_le _, Function.iterate_fixed (shift_of_after?_dot h) k⟩
    · cases k with
      | zero => exact ⟨0, Nat.zero_le _, rfl⟩
      | succ k =>
        obtain ⟨m, hm, hk⟩ := ih (after?_shift_of_ne h hl) k
        exact ⟨m + 1, Nat.succ_le_succ hm, hk⟩

/-- When the dot has passed all letters it stays, and so it does before another dot. An item without a dot stays as it is. -/
theorem exists_iterate_le (i : Item) (k : Nat) : ∃ m ≤ (i.after?.getD []).length, shift^[k] i = shift^[m] i := by
  cases h : i.after? with
  | none => exact ⟨0, le_rfl, Function.iterate_fixed (shift_of_after?_none h) k⟩
  | some rest => exact exists_iterate_le_length h k

theorem mem_shifts : j ∈ i.shifts ↔ ∃ k, shift^[k] i = j := by
  rw [shifts, List.mem_map]
  constructor
  · rintro ⟨k, -, h⟩
    exact ⟨k, h⟩
  · rintro ⟨k, rfl⟩
    obtain ⟨m, hm, hk⟩ := exists_iterate_le i k
    exact ⟨m, List.mem_range.mpr (Nat.lt_succ_of_le hm), hk.symm⟩

/-- What a shift keeps, all shifts keep. -/
theorem iterate_shift_induction {P : Item → Prop} (hP : ∀ i, P i → P i.shift) (hi : P i) (k : Nat) : P (shift^[k] i) := by
  induction k generalizing i with
  | zero => exact hi
  | succ k ih => exact ih (hP i hi)

/-! ## Dotted productions -/

section Dotted

variable {p : Production} {α β : List Letter}

theorem dots_iff : i.Dots p ↔ ∃ α β a, p.core = α ++ β ∧ i = ⟨p.head, α ++ dot :: β, a⟩ := by
  simp only [Dots, Production.itemize, Production.dotted, List.mem_map, List.mem_range]
  constructor
  · rintro ⟨k, -, h⟩
    obtain ⟨head, body, a⟩ := i
    obtain ⟨rfl, rfl⟩ := Production.mk.inj h
    exact ⟨_, _, a, (List.take_append_drop k p.core).symm, rfl⟩
  · rintro ⟨α, β, a, hcore, rfl⟩
    refine ⟨α.length, ?_, ?_⟩
    · rw [hcore, List.length_append]
      omega
    · rw [hcore, List.take_left, List.drop_left]
      rfl

theorem dot_not_mem_of_core (hp : dot ∉ p.body) (hcore : p.core = α ++ β) : dot ∉ α := fun h => by
  refine hp (Production.mem_core ?_)
  rw [hcore]
  exact List.mem_append_left _ h

theorem after?_dotted (hp : dot ∉ p.body) (hcore : p.core = α ++ β) (a : Option Symbol) :
    (⟨p.head, α ++ dot :: β, a⟩ : Item).after? = some β :=
  after?_eq_of_body rfl (dot_not_mem_of_core hp hcore)

theorem shift_dotted (hp : dot ∉ p.body) (hcore : p.core = α ++ l :: β) (a : Option Symbol) :
    (⟨p.head, α ++ dot :: l :: β, a⟩ : Item).shift = ⟨p.head, α ++ [l] ++ dot :: β, a⟩ := by
  have hdot : dot ∉ α := dot_not_mem_of_core hp hcore
  rw [shift_eq (after?_dotted hp hcore a), before_eq_of_body rfl hdot, List.append_assoc, List.singleton_append]

theorem dots_initialItem (p : Production) (a : Option Symbol) : (p.initialItem a).Dots p :=
  dots_iff.mpr ⟨[], p.core, a, rfl, rfl⟩

namespace Dots

/-- The letters of a dotted production are those of the production, and the dot. -/
theorem body_perm (h : i.Dots p) : i.body.Perm (dot :: p.core) := by
  obtain ⟨α, β, a, hcore, rfl⟩ := dots_iff.mp h
  rw [hcore]
  exact List.perm_middle

theorem hasDot (h : i.Dots p) : i.hasDot = true := hasDot_iff.mpr (h.body_perm.mem_iff.mpr (.head _))

theorem mem_body (h : i.Dots p) {n : Int} (hn : Letter.nonterminal n ∈ i.body) : Letter.nonterminal n ∈ p.body :=
  Production.mem_core ((List.mem_cons.mp (h.body_perm.mem_iff.mp hn)).resolve_left nofun)

theorem fits (h : i.Dots p) (hp : ∀ n, Letter.nonterminal n ∈ p.body → n ∈ g.nonterminals) : i.Fits g where
  hasDot := h.hasDot
  mem_nonterminals n hn := hp n (h.mem_body hn)

theorem hasOneDot (h : i.Dots p) (hp : dot ∉ p.body) : i.HasOneDot := by
  have hcore : p.core.count dot = 0 := List.count_eq_zero.mpr fun hm => hp (Production.mem_core hm)
  rw [HasOneDot, h.body_perm.count_eq, List.count_cons_self, hcore]

/-- A shifted dotted production is the production with the dot one place further, or the same at the end. -/
theorem shift (h : i.Dots p) (hp : dot ∉ p.body) : i.shift.Dots p := by
  obtain ⟨α, β, a, hcore, rfl⟩ := dots_iff.mp h
  cases β with
  | nil =>
    rw [shift_of_after?_nil (after?_dotted hp hcore a)]
    exact h
  | cons l β =>
    rw [shift_dotted hp hcore]
    exact dots_iff.mpr ⟨α ++ [l], β, a, by simpa using hcore, rfl⟩

end Dots

end Dotted

end Item

namespace Grammar

/-- The dot is not a terminal of the grammar. -/
def Undotted (g : Grammar) : Prop := ∀ p ∈ g.productions, dot ∉ p.body

/-! ## Items that can be reached -/

/-- The items that can arise from given ones by predictions and shifts. -/
def reachedItems (g : Grammar) (f : FirstFollow) (s : ItemSet) : List Item := (g.arisingItems f s).flatMap Item.shifts

private theorem length_flatMap_le {α β γ : Type} {f : α → List β} {h : α → List γ}
    (hfh : ∀ a, (f a).length ≤ (h a).length + 1) (l : List α) :
    (l.flatMap f).length ≤ l.length + (l.flatMap h).length := by
  induction l with
  | nil => exact le_rfl
  | cons a l ih =>
    have := hfh a
    simp only [List.flatMap_cons, List.length_append, List.length_cons]
    omega

private theorem length_flatMap_le_mul {α β : Type} {f : α → List β} {m : Nat} (l : List α)
    (hf : ∀ a ∈ l, (f a).length ≤ m) : (l.flatMap f).length ≤ m * l.length := by
  induction l with
  | nil => exact Nat.zero_le _
  | cons a l ih =>
    have := hf a (.head _)
    have := ih fun b hb => hf b (.tail _ hb)
    rw [List.flatMap_cons, List.length_append, List.length_cons, Nat.mul_succ]
    omega

theorem length_reachedItems_le (g : Grammar) (f : FirstFollow) (s : ItemSet) :
    (g.reachedItems f s).length ≤ g.itemBound f s := by
  have hseeds : (s.toList.flatMap Item.shifts).length ≤ s.size + (s.toList.flatMap Item.body).length :=
    length_flatMap_le Item.length_shifts_le s.toList
  have hproductions (a : Option Symbol) : ((g.productions.map (·.initialItem a)).flatMap Item.shifts).length ≤
      g.productions.length + (g.productions.flatMap (·.body)).length := by
    rw [List.flatMap_map]
    refine length_flatMap_le (fun p => ?_) g.productions
    rw [Item.shifts, Production.after?_initialItem, List.length_map, List.length_range, Option.getD_some]
    unfold Production.core
    split <;> simp
  have hall := length_flatMap_le_mul (g.arisingLookaheads f s) fun a _ => hproductions a
  rw [length_arisingLookaheads] at hall
  rw [reachedItems, arisingItems, List.flatMap_append, List.flatMap_assoc, List.length_append, itemBound]
  omega

variable {f : FirstFollow}

theorem mem_reachedItems : i ∈ g.reachedItems f s ↔ ∃ b ∈ g.arisingItems f s, ∃ k, Item.shift^[k] b = i := by
  rw [reachedItems, List.mem_flatMap]
  exact exists_congr fun b => and_congr_right fun _ => Item.mem_shifts

theorem arisingItems_subset_reachedItems : g.arisingItems f s ⊆ g.reachedItems f s :=
  fun b hb => mem_reachedItems.mpr ⟨b, hb, 0, rfl⟩

theorem shift_mem_reachedItems (h : i ∈ g.reachedItems f s) : i.shift ∈ g.reachedItems f s := by
  obtain ⟨b, hb, k, rfl⟩ := mem_reachedItems.mp h
  exact mem_reachedItems.mpr ⟨b, hb, k + 1, Function.iterate_succ_apply' _ _ _⟩

/-- Shifts change neither the lookahead nor the letters, so that an item predicts nothing that cannot arise. -/
theorem predicted_subset_reachedItems (h : i ∈ g.reachedItems f s) : i.predicted g f ⊆ g.reachedItems f s := by
  obtain ⟨b, hb, k, rfl⟩ := mem_reachedItems.mp h
  intro j hj
  refine arisingItems_subset_reachedItems ?_
  have hla : (Item.shift^[k] b).lookahead = b.lookahead :=
    Item.iterate_shift_induction (P := fun i => i.lookahead = b.lookahead) (fun i h => (i.shift_lookahead).trans h) rfl k
  have hperm : (Item.shift^[k] b).body.Perm b.body :=
    Item.iterate_shift_induction (P := fun i => i.body.Perm b.body) (fun i h => (i.shift_body_perm).trans h) (.refl _) k
  refine mem_arisingItems_of_predicted ?_ (fun rest hr a ha => terminal_mem_arisingLookaheads ?_) hj
  · rw [hla]
    rcases mem_arisingItems.mp hb with hb | ⟨c, hc, p, -, rfl⟩
    · exact lookahead_mem_arisingLookaheads hb
    · exact hc
  · rcases mem_arisingItems.mp hb with hb | ⟨c, -, p, hp, rfl⟩
    · exact .inl ⟨b, hb, hperm.mem_iff.mp (Item.mem_body_of_after? hr ha)⟩
    · -- The letters around the dot are those of the production, where the dot may be one of them.
      have hcore : ((Item.shift^[k] (p.initialItem c)).before ++ rest).Perm p.core := by
        rw [Item.body_eq_of_after? hr] at hperm
        exact (List.perm_middle.symm.trans hperm).cons_inv
      exact .inr ⟨p, hp, Production.mem_core (hcore.mem_iff.mp (List.mem_append_right _ ha))⟩

end Grammar

end FormalLang
