/-!
# Computations that change a state and may fail

What a computation answers often depends on a property of its state only, and it changes the state to one with the same property. Then
it does not matter how often such computations are made, nor in which order.

* `Answers`: the computation does not fail, and gives the answer from every state with the property.
* `Answers.bind`, `Answers.mapM`, `Answers.foldlM`: the answers of computations made of others.
-/

namespace FormalLang

variable {σ ε α β : Type} {P : σ → Prop}

/-- From every state with the property the computation gives the answer, and changes the state to one with the property. -/
def Answers (P : σ → Prop) (x : StateT σ (Except ε) α) (a : α) : Prop := ∀ s, P s → ∃ s', x s = .ok (a, s') ∧ P s'

namespace Answers

theorem pure (a : α) : Answers P (Pure.pure a : StateT σ (Except ε) α) a := fun s hs => ⟨s, rfl, hs⟩

theorem of_eq {x : StateT σ (Except ε) α} {a b : α} (h : Answers P x a) (hab : a = b) : Answers P x b := hab ▸ h

theorem bind {x : StateT σ (Except ε) α} {f : α → StateT σ (Except ε) β} {a : α} {b : β} (hx : Answers P x a)
    (hf : Answers P (f a) b) : Answers P (x >>= f) b := by
  intro s hs
  obtain ⟨s', hs', hP⟩ := hx s hs
  obtain ⟨t, ht, hQ⟩ := hf s' hP
  refine ⟨t, ?_, hQ⟩
  show (x s >>= fun r => f r.1 r.2) = _
  rw [hs']
  exact ht

theorem mapM {f : α → StateT σ (Except ε) β} {g : α → β} {l : List α} (h : ∀ a ∈ l, Answers P (f a) (g a)) :
    Answers P (l.mapM f) (l.map g) := by
  induction l with
  | nil => exact pure []
  | cons a l ih =>
    obtain ⟨ha, hl⟩ := List.forall_mem_cons.mp h
    rw [List.mapM_cons]
    exact ha.bind ((ih hl).bind (pure _))

/-- A fold gives the answers of its steps if what holds at its start is kept by each step. -/
theorem foldlM {f : β → α → StateT σ (Except ε) β} {g : β → α → β} {I : β → Prop} {l : List α} {b : β}
    (hstep : ∀ b, I b → ∀ a ∈ l, Answers P (f b a) (g b a) ∧ I (g b a)) (hb : I b) :
    Answers P (l.foldlM f b) (l.foldl g b) := by
  induction l generalizing b with
  | nil => exact pure b
  | cons a l ih =>
    obtain ⟨ha, hI⟩ := hstep b hb a (.head _)
    rw [List.foldlM_cons, List.foldl_cons]
    exact ha.bind (ih (fun b hb a ha => hstep b hb a (.tail _ ha)) hI)

end Answers

end FormalLang
