/-!
# Lexemes of regular expressions

A text is cut into parentheses, bars and runs of all other characters. A star right after a closing
parenthesis belongs to the parenthesis; any other star is part of a run.

* `Lexeme.ofChars`: the lexemes of a text.
* `Lexeme.flatMap_chars_ofChars`: the lexemes spell the text.
-/

namespace FormalLang

/-- A piece of the text of a regular expression. -/
inductive Lexeme where
  | opening
  | closing (starred : Bool)
  | bar
  | run (chars : List Char)
  deriving DecidableEq, Repr

namespace Lexeme

/-- The characters of a lexeme. -/
def chars : Lexeme → List Char
  | opening => ['(']
  | closing false => [')']
  | closing true => [')', '*']
  | bar => ['|']
  | run cs => cs

/-- Is the character a lexeme of its own, outside all runs? -/
def isDelimiter (c : Char) : Bool := c = '(' || c = ')' || c = '|'

/-- Put a character in front of a run, or make a run of it in front of anything else. -/
def extendRun (c : Char) : List Lexeme → List Lexeme
  | run cs :: rest => run (c :: cs) :: rest
  | rest => run [c] :: rest

/-- The lexemes of a text. -/
def ofChars : List Char → List Lexeme
  | [] => []
  | '(' :: cs => opening :: ofChars cs
  | ')' :: '*' :: cs => closing true :: ofChars cs
  | ')' :: cs => closing false :: ofChars cs
  | '|' :: cs => bar :: ofChars cs
  | c :: cs => extendRun c (ofChars cs)

theorem flatMap_chars_extendRun (c : Char) (ls : List Lexeme) :
    (extendRun c ls).flatMap chars = c :: ls.flatMap chars := by
  unfold extendRun
  split <;> simp [chars]

/-- No character is lost or moved. -/
theorem flatMap_chars_ofChars (cs : List Char) : (ofChars cs).flatMap chars = cs := by
  fun_induction ofChars cs with
  | case1 => rfl
  | case2 cs ih => simp [chars, ih]
  | case3 cs ih => simp [chars, ih]
  | case4 cs _ ih => simp [chars, ih]
  | case5 cs ih => simp [chars, ih]
  | case6 c cs _ _ _ _ ih => rw [flatMap_chars_extendRun, ih]

end Lexeme

end FormalLang
