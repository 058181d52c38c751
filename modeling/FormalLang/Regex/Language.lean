import FormalLang.Regex.Basic

/-!
# Languages of regular expressions

The words that an expression describes. A literal describes the word of its one symbol, a concatenation the words of
its sides one after the other, an alternation the words of both sides, and a star any number of words of its inner
expression.

* `Regex.matches_concat_iff`, `matches_alternation_iff`, `matches_star_iff`: the words by the shape of the expression.
* `Regex.Equivalent`: the same words.
-/

namespace FormalLang

namespace Regex

/-- An expression describes a word. -/
inductive Matches : Regex → List Symbol → Prop where
  | literal (a : Symbol) : Matches (.literal a) [a]
  | concat {l r u v} : Matches l u → Matches r v → Matches (.concat l r) (u ++ v)
  | left {l r u} : Matches l u → Matches (.alternation l r) u
  | right {l r u} : Matches r u → Matches (.alternation l r) u
  | none {r} : Matches (.star r) []
  | more {r u v} : Matches r u → Matches (.star r) v → Matches (.star r) (u ++ v)

/-- Two expressions describe the same words. -/
def Equivalent (r s : Regex) : Prop := ∀ w, Matches r w ↔ Matches s w

/-- Every literal is one character other than ε. -/
def IsPlain (r : Regex) : Prop := ∀ a ∈ r.literals, ∃ c : Char, a = String.singleton c ∧ a ≠ epsilon

@[simp] theorem matches_literal_iff {a : Symbol} {w : List Symbol} : Matches (.literal a) w ↔ w = [a] := by
  constructor
  · rintro ⟨⟩
    rfl
  · rintro rfl
    exact .literal a

theorem matches_concat_iff {l r : Regex} {w : List Symbol} :
    Matches (.concat l r) w ↔ ∃ u v, w = u ++ v ∧ Matches l u ∧ Matches r v := by
  constructor
  · rintro ⟨⟩
    exact ⟨_, _, rfl, ‹_›, ‹_›⟩
  · rintro ⟨u, v, rfl, hu, hv⟩
    exact .concat hu hv

theorem matches_alternation_iff {l r : Regex} {w : List Symbol} :
    Matches (.alternation l r) w ↔ Matches l w ∨ Matches r w := by
  constructor
  · rintro ⟨⟩
    · exact .inl ‹_›
    · exact .inr ‹_›
  · rintro (h | h)
    · exact .left h
    · exact .right h

theorem matches_star_iff {r : Regex} {w : List Symbol} :
    Matches (.star r) w ↔ ∃ ws : List (List Symbol), w = ws.flatten ∧ ∀ u ∈ ws, Matches r u := by
  constructor
  · intro h
    generalize hs : Regex.star r = s at h
    induction h with
    | none => exact ⟨[], rfl, by simp⟩
    | @more r' u v hu _ _ ih =>
      cases hs
      obtain ⟨ws, rfl, hws⟩ := ih rfl
      exact ⟨u :: ws, rfl, by simpa using ⟨hu, hws⟩⟩
    | _ => cases hs
  · rintro ⟨ws, rfl, h⟩
    induction ws with
    | nil => exact .none
    | cons u ws ih =>
      have h := List.forall_mem_cons.mp h
      exact .more h.1 (ih h.2)

end Regex

end FormalLang
