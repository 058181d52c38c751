/-!
# Ranges of characters

A class of characters is given by the ranges of its code points, both ends included.
-/

namespace FormalLang.Text

/-- Is the code point of the character in one of the ranges? -/
def inRanges (ranges : List (Nat × Nat)) (c : Char) : Bool :=
  ranges.any fun r => decide (r.1 ≤ c.toNat) && decide (c.toNat ≤ r.2)

end FormalLang.Text
