import FormalLang.Regex.Basic

/-!
# Spelling regular expressions

The text of a tree. Alternation binds weakest and groups to the right, so an alternation on the left of another one
is put into parentheses. A star applies to a literal or to a group.

The reader takes a run of literals, starred or not, as one operand, folded to the left, and a run after a group
as a new operand. So the right side of a concatenation stands without parentheses only where it is read back as
one operand of its own:

* after a group, a run or a star;
* after a run that follows a group, a star of something other than a literal: a literal would join the run;
* after a text without groups, a literal, which joins the run, or a star.

* `Regex.spell`: the text as a list of characters.
* `Regex.text`: the text as a string.
-/

namespace FormalLang

namespace Regex

/-- A text in parentheses. -/
def bracket (cs : List Char) : List Char := '(' :: cs ++ [')']

/-- Does the text end with a group, starred or not? -/
def endsInGroup (cs : List Char) : Bool :=
  match cs.reverse with
  | ')' :: _ => true
  | '*' :: ')' :: _ => true
  | _ => false

/-- Does `right` stand without parentheses after the text of what it is concatenated to? -/
def standsBare (left : List Char) (right : Regex) : Bool :=
  if endsInGroup left then right.isRun || right.isStar
  else if '(' ∈ left then right.isStar && !right.isAtom
  else right.isLiteral || right.isStar

/-- The characters of the text of a tree. -/
def spell : Regex → List Char
  | literal s => s.toList
  | concat l r =>
    let left := if l.isAlternation then bracket l.spell else l.spell
    left ++ if standsBare left r then r.spell else bracket r.spell
  | alternation l r => (if l.isAlternation then bracket l.spell else l.spell) ++ '|' :: r.spell
  | star r => (if r.isLiteral then r.spell else bracket r.spell) ++ ['*']

/-- The text of a tree. -/
def text (r : Regex) : String := String.ofList r.spell

end Regex

end FormalLang
