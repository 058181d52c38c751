import FormalLang.Grammar.Basic

/-!
# Derivations

A derivation replaces, step by step, a nonterminal by the body of one of its productions. The letter ε stands for
nothing: it is erased when what was derived is looked at. A rightmost derivation always replaces the last
nonterminal.

* `Grammar.Derives.trans`, `Grammar.Derives.append`: derivations one after the other and side by side.
* `Grammar.RightDerives.derives`: a rightmost derivation is a derivation.
-/

namespace FormalLang

/-- The letters of a sequence that stand for something. -/
def Letter.erase (u : List Letter) : List Letter := u.filter fun l => !l.isEpsilon

@[simp] theorem Letter.erase_append (u v : List Letter) : erase (u ++ v) = erase u ++ erase v :=
  List.filter_append u v

namespace Grammar

variable {g : Grammar}

/-- A sequence of letters is derived from another one. -/
inductive Derives (g : Grammar) : List Letter → List Letter → Prop where
  | refl (u) : Derives g u u
  | step {u x y p} : Derives g u (x ++ .nonterminal p.head :: y) → p ∈ g.productions →
      Derives g u (x ++ p.body ++ y)

/-- A word of terminals is derived from a sequence of letters, ε being erased. -/
def Generates (g : Grammar) (u : List Letter) (w : List Symbol) : Prop :=
  ∃ v, g.Derives u v ∧ Letter.erase v = w.map .terminal

/-- The empty word is derived from a sequence of letters. -/
def Vanishes (g : Grammar) (u : List Letter) : Prop := g.Generates u []

/-- A production is used in a derivation of a word from the start. -/
def Useful (g : Grammar) (p : Production) : Prop :=
  ∃ x y w, g.Derives [.nonterminal g.start] (x ++ .nonterminal p.head :: y) ∧
    g.Generates (x ++ p.body ++ y) w

/-- A nonterminal is derived from another one by unit productions. -/
inductive UnitDerives (g : Grammar) : Int → Int → Prop where
  | refl (n) : UnitDerives g n n
  | step {n p m} : UnitDerives g n p.head → p ∈ g.productions → p.body = [.nonterminal m] →
      UnitDerives g n m

/-- A sequence of letters is derived from another one, always by replacing the last nonterminal. -/
inductive RightDerives (g : Grammar) : List Letter → List Letter → Prop where
  | refl (u) : RightDerives g u u
  | step {u x p} {w : List Symbol} :
      RightDerives g u (x ++ .nonterminal p.head :: w.map .terminal) → p ∈ g.productions →
      RightDerives g u (x ++ p.body ++ w.map .terminal)

theorem Derives.trans {u v w : List Letter} (h : g.Derives u v) (k : g.Derives v w) : g.Derives u w := by
  induction k with
  | refl => exact h
  | step _ hp ih => exact .step ih hp

/-- A production derives its body from its head. -/
theorem Derives.production {p : Production} (hp : p ∈ g.productions) : g.Derives [.nonterminal p.head] p.body := by
  have h := Derives.step (x := []) (y := []) (.refl [.nonterminal p.head]) hp
  simpa using h

theorem Derives.context {u v : List Letter} (h : g.Derives u v) (x y : List Letter) :
    g.Derives (x ++ u ++ y) (x ++ v ++ y) := by
  induction h with
  | refl => exact .refl _
  | @step x' y' p _ hp ih =>
    have h := Derives.step (x := x ++ x') (y := y' ++ y) (p := p) (by simpa using ih) hp
    simpa using h

theorem Derives.append {u v x y : List Letter} (h : g.Derives u v) (k : g.Derives x y) :
    g.Derives (u ++ x) (v ++ y) := by
  have h1 := h.context [] x
  have h2 := k.context v []
  simp only [List.nil_append, List.append_nil] at h1 h2
  exact h1.trans h2

theorem RightDerives.derives {u v : List Letter} (h : g.RightDerives u v) : g.Derives u v := by
  induction h with
  | refl => exact .refl _
  | step _ hp ih => exact .step ih hp

end Grammar

end FormalLang
