/-!
# Orders

Lawful orders on types that are built from ordered ones: a disjoint sum, whose left summand comes first, pairs, whose
first components decide if they can, and a type that is ordered by a key.

* `transCmp_compareKey`, `lawfulEqCmp_compareKey`: an order by a key is an order, and two values are of equal
  place only if they are equal when the key tells them apart.
-/

namespace FormalLang

section Sum

variable {α β : Type} [Ord α] [Ord β]

/-- The left summand comes before the right one. -/
def compareSum : α ⊕ β → α ⊕ β → Ordering
  | .inl a, .inl b => compare a b
  | .inl _, .inr _ => .lt
  | .inr _, .inl _ => .gt
  | .inr a, .inr b => compare a b

instance [Std.TransOrd α] [Std.TransOrd β] : Std.TransCmp (compareSum (α := α) (β := β)) where
  eq_swap {a b} :=
    match a, b with
    | .inl _, .inl _ => Std.OrientedOrd.eq_swap (α := α)
    | .inl _, .inr _ => rfl
    | .inr _, .inl _ => rfl
    | .inr _, .inr _ => Std.OrientedOrd.eq_swap (α := β)
  isLE_trans {a b c} hab hbc :=
    match a, b, c, hab, hbc with
    | .inl _, .inl _, .inl _, hab, hbc => Std.TransOrd.isLE_trans (α := α) hab hbc
    | .inl _, _, .inr _, _, _ => rfl
    | .inr _, .inr _, .inr _, hab, hbc => Std.TransOrd.isLE_trans (α := β) hab hbc
    | .inr _, .inl _, _, hab, _ => absurd hab Bool.false_ne_true
    | _, .inr _, .inl _, _, hbc => absurd hbc Bool.false_ne_true

instance [Std.LawfulEqOrd α] [Std.LawfulEqOrd β] : Std.LawfulEqCmp (compareSum (α := α) (β := β)) where
  compare_self {a} :=
    match a with
    | .inl _ => Std.ReflOrd.compare_self (α := α)
    | .inr _ => Std.ReflOrd.compare_self (α := β)
  eq_of_compare {a b} h :=
    match a, b, h with
    | .inl _, .inl _, h => congrArg _ (Std.LawfulEqOrd.eq_of_compare (α := α) h)
    | .inr _, .inr _, h => congrArg _ (Std.LawfulEqOrd.eq_of_compare (α := β) h)

end Sum

section Key

variable {α β : Type} {cmp : β → β → Ordering}

/-- Compare by a key. -/
def compareKey (cmp : β → β → Ordering) (key : α → β) (a b : α) : Ordering := cmp (key a) (key b)

theorem transCmp_compareKey [h : Std.TransCmp cmp] (key : α → β) : Std.TransCmp (compareKey cmp key) where
  eq_swap := h.eq_swap
  isLE_trans := h.isLE_trans

theorem lawfulEqCmp_compareKey [h : Std.LawfulEqCmp cmp] {key : α → β}
    (inj : ∀ a b, key a = key b → a = b) : Std.LawfulEqCmp (compareKey cmp key) where
  compare_self := h.compare_self
  eq_of_compare e := inj _ _ (h.eq_of_compare e)

end Key

section Pair

variable {α β : Type} {cmp₁ : α → α → Ordering} {cmp₂ : β → β → Ordering}

/-- The first components decide, and the second ones if the first are equal. -/
def comparePair (cmp₁ : α → α → Ordering) (cmp₂ : β → β → Ordering) : α × β → α × β → Ordering :=
  compareLex (compareKey cmp₁ Prod.fst) (compareKey cmp₂ Prod.snd)

instance [Std.TransCmp cmp₁] [Std.TransCmp cmp₂] : Std.TransCmp (comparePair cmp₁ cmp₂) :=
  have : Std.TransCmp (compareKey cmp₁ (Prod.fst : α × β → α)) := transCmp_compareKey _
  have : Std.TransCmp (compareKey cmp₂ (Prod.snd : α × β → β)) := transCmp_compareKey _
  inferInstanceAs (Std.TransCmp (compareLex _ _))

instance [h₁ : Std.LawfulEqCmp cmp₁] [h₂ : Std.LawfulEqCmp cmp₂] :
    Std.LawfulEqCmp (comparePair cmp₁ cmp₂) where
  compare_self {a} := by simp [comparePair, compareLex, compareKey, h₁.compare_self, h₂.compare_self]
  eq_of_compare {a b} h := by
    obtain ⟨h1, h2⟩ := Ordering.then_eq_eq.mp h
    exact Prod.ext (h₁.eq_of_compare h1) (h₂.eq_of_compare h2)

end Pair

end FormalLang
