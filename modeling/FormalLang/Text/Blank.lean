import FormalLang.Text.CharRange

/-!
# Blanks and lines

The blanks are the white space characters of Unicode together with the four information separators, which are no
white space. A text is cut into lines at line feeds, carriage returns (one followed by a line feed is one cut), vertical
tabs, form feeds, the first three information separators, next-line controls and the line and
paragraph separators.

* `isBlank_of_isWhitespace`: what core takes for white space is blank.
* `lines_nil`: the empty text has no line.
-/

namespace FormalLang.Text

/-- The code points of white space. -/
def whiteSpaceRanges : List (Nat × Nat) :=
  [(0x9, 0xd), (0x20, 0x20), (0x85, 0x85), (0xa0, 0xa0), (0x1680, 0x1680), (0x2000, 0x200a),
    (0x2028, 0x2029), (0x202f, 0x202f), (0x205f, 0x205f), (0x3000, 0x3000)]

/-- The code points of the information separators. -/
def separatorRanges : List (Nat × Nat) := [(0x1c, 0x1f)]

/-- Is the character white space? -/
def isWhiteSpace (c : Char) : Bool := inRanges whiteSpaceRanges c

/-- Is the character white space or an information separator? -/
def isBlank (c : Char) : Bool := isWhiteSpace c || inRanges separatorRanges c

/-- The text from its first character that is not blank. -/
def trimLeft (cs : List Char) : List Char := cs.dropWhile isBlank

/-- The text up to its last character that is not blank. -/
def trimRight (cs : List Char) : List Char := (cs.reverse.dropWhile isBlank).reverse

/-- The text without the blanks at its ends. -/
def trim (cs : List Char) : List Char := trimRight (trimLeft cs)

/-- The code points that end a line. -/
def lineEndRanges : List (Nat × Nat) :=
  [(0xa, 0xd), (0x1c, 0x1e), (0x85, 0x85), (0x2028, 0x2029)]

/-- Does the character end a line? -/
def isLineEnd (c : Char) : Bool := inRanges lineEndRanges c

/-- Put a character in front of the first of some lines. -/
def extendLine (c : Char) : List (List Char) → List (List Char)
  | [] => [[c]]
  | l :: ls => (c :: l) :: ls

/-- The lines of a text, without their ends. A text that ends with a line end has no empty line after it. -/
def lines : List Char → List (List Char)
  | [] => []
  | '\r' :: '\n' :: cs => [] :: lines cs
  | c :: cs => if isLineEnd c then [] :: lines cs else extendLine c (lines cs)

@[simp] theorem lines_nil : lines [] = [] := rfl

theorem isBlank_of_isWhitespace {c : Char} (h : c.isWhitespace = true) : isBlank c = true := by
  simp only [Char.isWhitespace, Bool.or_eq_true, decide_eq_true_eq] at h
  rcases h with ((rfl | rfl) | rfl) | rfl <;> decide

end FormalLang.Text
