import FormalLang.Text.CharRange

/-!
# Digits

The decimal digits are the characters of the general category Number, Decimal Digit (as of Unicode 14): they come
in blocks of ten with ascending values. Some more characters count as digits and have no place in a numeral:
superscripts, subscripts and enclosed digits.

* `digitValue?_ascii`: the ASCII digits have their usual values.
* `isDigitLike_of_isDecimalDigit`: a decimal digit is a digit.
* `inRanges_eq_false_of_isDecimalDigit`: a decimal digit is in no range apart from the blocks.
-/

namespace FormalLang.Text

/-- The code points of the zeros of the blocks of decimal digits. -/
def decimalZeros : List Nat :=
  [
    0x30, 0x660, 0x6f0, 0x7c0, 0x966, 0x9e6, 0xa66, 0xae6, 0xb66, 0xbe6, 0xc66, 0xce6, 0xd66, 0xde6,
    0xe50, 0xed0, 0xf20, 0x1040, 0x1090, 0x17e0, 0x1810, 0x1946, 0x19d0, 0x1a80, 0x1a90, 0x1b50,
    0x1bb0, 0x1c40, 0x1c50, 0xa620, 0xa8d0, 0xa900, 0xa9d0, 0xa9f0, 0xaa50, 0xabf0, 0xff10, 0x104a0,
    0x10d30, 0x11066, 0x110f0, 0x11136, 0x111d0, 0x112f0, 0x11450, 0x114d0, 0x11650, 0x116c0,
    0x11730, 0x118e0, 0x11950, 0x11c50, 0x11d50, 0x11da0, 0x16a60, 0x16ac0, 0x16b50, 0x1d7ce,
    0x1d7d8, 0x1d7e2, 0x1d7ec, 0x1d7f6, 0x1e140, 0x1e2f0, 0x1e950, 0x1fbf0
  ]

/-- The code points of the digits that are not decimal digits. -/
def otherDigitRanges : List (Nat × Nat) :=
  [
    (0xb2, 0xb3), (0xb9, 0xb9), (0x1369, 0x1371), (0x19da, 0x19da), (0x2070, 0x2070),
    (0x2074, 0x2079), (0x2080, 0x2089), (0x2460, 0x2468), (0x2474, 0x247c), (0x2488, 0x2490),
    (0x24ea, 0x24ea), (0x24f5, 0x24fd), (0x24ff, 0x24ff), (0x2776, 0x277e), (0x2780, 0x2788),
    (0x278a, 0x2792), (0x10a40, 0x10a43), (0x10e60, 0x10e68), (0x11052, 0x1105a), (0x1f100, 0x1f10a)
  ]

/-- The value of a decimal digit. -/
def digitValue? (c : Char) : Option Nat :=
  (decimalZeros.find? fun z => decide (z ≤ c.toNat) && decide (c.toNat < z + 10)).map (c.toNat - ·)

/-- Is the character a decimal digit? -/
def isDecimalDigit (c : Char) : Bool := (digitValue? c).isSome

/-- Is the character a digit, decimal or not? -/
def isDigitLike (c : Char) : Bool := isDecimalDigit c || inRanges otherDigitRanges c

theorem digitValue?_ascii (d : Fin 10) : digitValue? (Char.ofNat (0x30 + d)) = some d.val := by
  revert d
  decide

theorem isDigitLike_of_isDecimalDigit {c : Char} (h : isDecimalDigit c = true) : isDigitLike c = true := by
  rw [isDigitLike, h]
  rfl

/-- A decimal digit is in no range apart from the blocks of decimal digits. -/
theorem inRanges_eq_false_of_isDecimalDigit {ranges : List (Nat × Nat)}
    (apart : ∀ z ∈ decimalZeros, ∀ r ∈ ranges, z + 9 < r.1 ∨ r.2 < z) {c : Char} (h : isDecimalDigit c = true) :
    inRanges ranges c = false := by
  obtain ⟨d, hd⟩ := Option.isSome_iff_exists.mp h
  obtain ⟨z, hz, -⟩ := Option.map_eq_some_iff.mp hd
  have hc := List.find?_some hz
  simp only [Bool.and_eq_true, decide_eq_true_eq] at hc
  simp only [inRanges, List.any_eq_false, Bool.and_eq_true, decide_eq_true_eq]
  intro r hr
  have := apart z (List.mem_of_find?_eq_some hz) r hr
  omega

end FormalLang.Text
