/-!
# Symbols

A symbol is a text, most often of one character. One symbol, ε, marks steps that read nothing; it shares
its text with the character ε of an input, so an input that holds that character names such a step.
-/

namespace FormalLang

/-- The label of a transition, or a terminal of a grammar. -/
abbrev Symbol := String

/-- The label of a step that reads nothing. -/
def epsilon : Symbol := "ε"

/-- A text as a sequence of symbols of one character each. -/
def symbols (text : String) : List Symbol := text.toList.map String.singleton

theorem singleton_ne_epsilon {c : Char} (hc : c ≠ 'ε') : String.singleton c ≠ epsilon := by
  intro h
  exact hc (by simpa [epsilon] using congrArg String.toList h)

theorem singleton_ne_epsilon_of_isAlphanum {c : Char} (hc : c.isAlphanum = true) : String.singleton c ≠ epsilon := by
  refine singleton_ne_epsilon ?_
  rintro rfl
  exact absurd hc (by decide)

/-- A word of symbols of one character each is a text. -/
theorem exists_symbols_eq {w : List Symbol} (h : ∀ a ∈ w, ∃ c, a = String.singleton c) :
    ∃ text, symbols text = w := by
  induction w with
  | nil => exact ⟨"", rfl⟩
  | cons a w ih =>
    obtain ⟨⟨c, rfl⟩, hw⟩ := List.forall_mem_cons.mp h
    obtain ⟨text, rfl⟩ := ih hw
    refine ⟨String.ofList (c :: text.toList), ?_⟩
    rw [symbols, String.toList_ofList]
    rfl

end FormalLang
