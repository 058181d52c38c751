import FormalLang.Automaton.Basic
import Mathlib.Data.List.Forall2

/-!
# Computations that may fail

A computation fails if one of its steps does, with the fault of the first such step.

* `Faults.bind`, `Faults.map`, `Faults.mapM`, `Faults.forM`, `Faults.foldlM`: the faults of a computation are those of its steps.
* `mapM_eq_ok_iff`, `forM_eq_ok_iff`: a computation on each element of a list succeeds if all of them do.
* `mapM_checkState_natCast`, `mapM_checkState_eq_ok_iff`: the numbers of states are accepted.
* `mapM_eq_ok`, `anyM_eq_ok`, `foldlM_eq_ok`: computations whose steps succeed with the values of a function.
* `foldlM_invariant`: what each step of a fold keeps holds at its end.
* `exists_of_foldlM_eq_ok`, `exists_of_foldlM_eq_error`: the steps of a fold that succeeds, and the one at which it fails.
-/

namespace FormalLang

variable {ε α β : Type} {P : ε → Prop}

/-- Every fault of the computation has the property. -/
def Faults (P : ε → Prop) (x : Except ε α) : Prop := ∀ e, x = .error e → P e

namespace Faults

theorem ok (a : α) : Faults P (.ok a) := by
  intro e h
  contradiction

theorem error {e : ε} (h : P e) : Faults P (.error e : Except ε α) := by
  intro e' he
  obtain rfl := Except.error.inj he
  exact h

theorem bind {x : Except ε α} {f : α → Except ε β} (hx : Faults P x) (hf : ∀ a, x = .ok a → Faults P (f a)) :
    Faults P (x >>= f) := by
  cases x with
  | error e => exact error (hx e rfl)
  | ok a => exact hf a rfl

theorem map {g : α → β} {x : Except ε α} (hx : Faults P x) : Faults P (x.map g) := by
  cases x with
  | error e => exact error (hx e rfl)
  | ok a => exact ok (g a)

theorem mapError {δ : Type} {g : ε → δ} {Q : δ → Prop} {x : Except ε α} (hx : Faults (fun e => Q (g e)) x) :
    Faults Q (x.mapError g) := by
  cases x with
  | error e => exact error (hx e rfl)
  | ok a => exact ok a

theorem mapM {f : α → Except ε β} {l : List α} (h : ∀ a ∈ l, Faults P (f a)) : Faults P (l.mapM f) := by
  induction l with
  | nil => exact ok []
  | cons a l ih =>
    obtain ⟨ha, hl⟩ := List.forall_mem_cons.mp h
    rw [List.mapM_cons]
    exact ha.bind fun b _ => (ih hl).bind fun bs _ => ok (b :: bs)

theorem forM {f : α → Except ε Unit} {l : List α} (h : ∀ a ∈ l, Faults P (f a)) : Faults P (l.forM f) := by
  induction l with
  | nil => exact ok ()
  | cons a l ih =>
    obtain ⟨ha, hl⟩ := List.forall_mem_cons.mp h
    exact ha.bind fun _ _ => ih hl

theorem foldlM {f : β → α → Except ε β} {l : List α} (h : ∀ b, ∀ a ∈ l, Faults P (f b a)) (b : β) :
    Faults P (l.foldlM f b) := by
  induction l generalizing b with
  | nil => exact ok b
  | cons a l ih =>
    rw [List.foldlM_cons]
    exact (h b a (.head _)).bind fun c _ => ih (fun b a ha => h b a (.tail _ ha)) c

end Faults

/-! ## Successes -/

/-- A computation on each element of a list succeeds if all of them do. -/
theorem mapM_eq_ok_iff {f : α → Except ε β} {l : List α} {m : List β} :
    l.mapM f = .ok m ↔ List.Forall₂ (fun a b => f a = .ok b) l m := by
  induction l generalizing m with
  | nil =>
    rw [List.forall₂_nil_left_iff]
    exact ⟨fun h => (Except.ok.inj h).symm, fun h => h ▸ rfl⟩
  | cons a l ih =>
    rw [List.mapM_cons, List.forall₂_cons_left_iff]
    simp only [bind_eq_ok_iff, ih]
    constructor
    · rintro ⟨b, hb, bs, hbs, h⟩
      exact ⟨b, bs, hb, hbs, (Except.ok.inj h).symm⟩
    · rintro ⟨b, bs, hb, hbs, rfl⟩
      exact ⟨b, hb, bs, hbs, rfl⟩

/-- A result of a computation on each element of a list is the result for one of them. -/
theorem exists_of_mem_mapM {f : α → Except ε β} {l : List α} {m : List β} (h : l.mapM f = .ok m) {b : β} (hb : b ∈ m) :
    ∃ a ∈ l, f a = .ok b := by
  have hlm := mapM_eq_ok_iff.mp h
  clear h
  induction hlm with
  | nil => contradiction
  | @cons a c l m hac _ ih =>
    rcases List.mem_cons.mp hb with rfl | hb
    · exact ⟨a, .head _, hac⟩
    · obtain ⟨a', ha', hab⟩ := ih hb
      exact ⟨a', .tail _ ha', hab⟩

theorem mapM_eq_ok {f : α → Except ε β} {g : α → β} {l : List α} (h : ∀ a ∈ l, f a = .ok (g a)) : l.mapM f = .ok (l.map g) :=
  mapM_eq_ok_iff.mpr (List.forall₂_map_right_iff.mpr (List.forall₂_same.mpr h))

theorem anyM_eq_ok {f : α → Except ε Bool} {g : α → Bool} {l : List α} (h : ∀ a ∈ l, f a = .ok (g a)) :
    l.anyM f = .ok (l.any g) := by
  induction l with
  | nil => rfl
  | cons a l ih =>
    obtain ⟨ha, hl⟩ := List.forall_mem_cons.mp h
    rw [List.anyM, ha, List.any_cons]
    cases g a with
    | true => rfl
    | false => exact ih hl

theorem toOption_eq_some_iff {x : Except ε α} {a : α} : x.toOption = some a ↔ x = .ok a := by
  cases x with
  | error e => exact ⟨nofun, nofun⟩
  | ok b => exact ⟨fun h => congrArg Except.ok (Option.some.inj h), fun h => congrArg some (Except.ok.inj h)⟩

theorem mapError_eq_ok_iff {δ : Type} {g : ε → δ} {x : Except ε α} {a : α} : x.mapError g = .ok a ↔ x = .ok a := by
  cases x with
  | error e => exact ⟨nofun, nofun⟩
  | ok b => exact ⟨fun h => congrArg Except.ok (Except.ok.inj h), fun h => congrArg Except.ok (Except.ok.inj h)⟩

/-- A check of each element of a list succeeds if all of them pass. -/
theorem forM_eq_ok_iff {f : α → Except ε Unit} {l : List α} : l.forM f = .ok () ↔ ∀ a ∈ l, f a = .ok () := by
  induction l with
  | nil => exact ⟨fun _ a ha => absurd ha List.not_mem_nil, fun _ => rfl⟩
  | cons a l ih =>
    rw [List.forall_mem_cons, ← ih]
    exact bind_eq_ok_iff.trans ⟨fun ⟨⟨⟩, ha, h⟩ => ⟨ha, h⟩, fun ⟨ha, h⟩ => ⟨(), ha, h⟩⟩

/-- The numbers of states are those of these states. -/
theorem mapM_checkState_natCast {count : Nat} {l : List Nat} (h : ∀ q ∈ l, q < count) :
    (l.map Int.ofNat).mapM (checkState count) = .ok l :=
  mapM_eq_ok_iff.mpr (List.forall₂_map_left_iff.mpr (List.forall₂_same.mpr fun q hq => checkState_natCast (h q hq)))

/-- Numbers are accepted together if all are numbers of states. -/
theorem mapM_checkState_eq_ok_iff {count : Nat} {l : List Int} {m : List Nat} :
    l.mapM (checkState count) = .ok m ↔ l = m.map Int.ofNat ∧ ∀ q ∈ m, q < count := by
  constructor
  · intro h
    have hlm := mapM_eq_ok_iff.mp h
    refine ⟨?_, fun q hq => ?_⟩
    · rw [← List.forall₂_eq_eq_eq, List.forall₂_map_right_iff]
      exact hlm.imp fun _ _ => eq_natCast_of_checkState
    · obtain ⟨i, -, hi⟩ := exists_of_mem_mapM h hq
      exact lt_of_checkState hi
  · rintro ⟨rfl, h⟩
    exact mapM_checkState_natCast h

/-- What each step of a fold keeps holds at its end. -/
theorem foldlM_invariant {f : β → α → Except ε β} {I : β → Prop} {l : List α} {b c : β}
    (hstep : ∀ b, I b → ∀ a ∈ l, ∀ c, f b a = .ok c → I c) (hb : I b) (h : l.foldlM f b = .ok c) : I c := by
  induction l generalizing b with
  | nil => exact Except.ok.inj h ▸ hb
  | cons a l ih =>
    rw [List.foldlM_cons] at h
    obtain ⟨d, hd, h⟩ := bind_eq_ok_iff.mp h
    exact ih (fun b hb a ha => hstep b hb a (.tail _ ha)) (hstep b hb a (.head _) d hd) h

/-- A fold succeeds if what holds at its start is kept by each step and lets it succeed. -/
theorem foldlM_eq_ok {f : β → α → Except ε β} {g : β → α → β} {I : β → Prop} {l : List α} {b : β}
    (hstep : ∀ b, I b → ∀ a ∈ l, f b a = .ok (g b a) ∧ I (g b a)) (hb : I b) : l.foldlM f b = .ok (l.foldl g b) := by
  induction l generalizing b with
  | nil => rfl
  | cons a l ih =>
    obtain ⟨ha, hI⟩ := hstep b hb a (.head _)
    rw [List.foldlM_cons, List.foldl_cons]
    exact bind_eq_ok_iff.mpr ⟨g b a, ha, ih (fun b hb a ha => hstep b hb a (.tail _ ha)) hI⟩

/-- A fold that succeeds takes a step at each element. -/
theorem exists_of_foldlM_eq_ok {f : β → α → Except ε β} {l : List α} {b c : β} (h : l.foldlM f b = .ok c) {a : α} (ha : a ∈ l) :
    ∃ d d', f d a = .ok d' := by
  induction l generalizing b with
  | nil => exact absurd ha List.not_mem_nil
  | cons x l ih =>
    rw [List.foldlM_cons] at h
    obtain ⟨d, hd, h⟩ := bind_eq_ok_iff.mp h
    rcases List.mem_cons.mp ha with rfl | ha
    · exact ⟨b, d, hd⟩
    · exact ih h ha

/-- A fold that fails does so at an element, and those in front of it succeed. -/
theorem exists_of_foldlM_eq_error {f : β → α → Except ε β} {l : List α} {b : β} {e : ε} (h : l.foldlM f b = .error e) :
    ∃ before a after c, l = before ++ a :: after ∧ before.foldlM f b = .ok c ∧ f c a = .error e := by
  induction l generalizing b with
  | nil => contradiction
  | cons x l ih =>
    rw [List.foldlM_cons] at h
    cases hx : f b x with
    | error e' =>
      rw [hx] at h
      obtain rfl := Except.error.inj h
      exact ⟨[], x, l, b, rfl, rfl, hx⟩
    | ok c =>
      rw [hx] at h
      obtain ⟨before, a, after, d, rfl, hbefore, ha⟩ := ih h
      exact ⟨x :: before, a, after, d, rfl, bind_eq_ok_iff.mpr ⟨c, hx, hbefore⟩, ha⟩

end FormalLang
