import FormalLang.Text.Blank
import FormalLang.Text.Digit
import FormalLang.Text.Quoted

/-!
# Numerals

A natural number is written with at most 4300 decimal digits, which may be of different scripts, and white space may
stand around them. An information separator is no white space and may not.

* `readNumeral`: the number of a numeral, or the fault of a text that is none.
* `readNumeral_spaced`, `readNumeral_digits`: digits, with or without white space around them, are a numeral, unless
  there are too many.
* `readNumeral_repr`: a number of at most `maxDigits` digits is read back from them.
-/

namespace FormalLang.Text

/-- The greatest number of digits of a numeral. -/
def maxDigits : Nat := 4300

/-- Why a text is no numeral. -/
inductive NumeralFault where
  /-- There is something other than digits between white space. -/
  | malformed (text : List Char)
  /-- There are too many digits. -/
  | tooLong (digits : Nat)
  deriving DecidableEq, Repr

/-- The text of a fault. At most 200 characters of a malformed text are shown. -/
def NumeralFault.message : NumeralFault → String
  | malformed cs => "invalid literal for int() with base 10: " ++ String.ofList ((quotedChars cs).take 200)
  | tooLong n =>
    s!"Exceeds the limit ({maxDigits} digits) for integer string conversion: value has {n} digits; " ++
      "use sys.set_int_max_str_digits() to increase the limit"

/-- The number that a list of decimal digits writes, the first digit counting most. -/
def digitsValue (cs : List Char) : Nat := cs.foldl (fun n c => 10 * n + (digitValue? c).getD 0) 0

/-- The number that a text writes. That there are too many digits is found before what comes after them. -/
def readNumeral (cs : List Char) : Except NumeralFault Nat :=
  let text := cs.dropWhile isWhiteSpace
  let digits := text.takeWhile isDecimalDigit
  if maxDigits < digits.length then .error (.tooLong digits.length)
  else if digits.isEmpty || !(text.dropWhile isDecimalDigit).all isWhiteSpace then .error (.malformed cs)
  else .ok (digitsValue digits)

/-- A decimal digit is no white space. -/
theorem isWhiteSpace_eq_false_of_isDecimalDigit {c : Char} (h : isDecimalDigit c = true) :
    isWhiteSpace c = false := inRanges_eq_false_of_isDecimalDigit (by decide) h

/-- Digits between white space are a numeral, unless there are too many. -/
theorem readNumeral_spaced {before digits behind : List Char} (hb : ∀ c ∈ before, isWhiteSpace c = true)
    (hne : digits ≠ []) (hd : ∀ c ∈ digits, isDecimalDigit c = true) (he : ∀ c ∈ behind, isWhiteSpace c = true) :
    readNumeral (before ++ (digits ++ behind)) =
      if maxDigits < digits.length then .error (.tooLong digits.length) else .ok (digitsValue digits) := by
  have hspace : (before ++ (digits ++ behind)).dropWhile isWhiteSpace = digits ++ behind := by
    rw [List.dropWhile_append_of_pos hb]
    cases digits with
    | nil => contradiction
    | cons c cs => simp [isWhiteSpace_eq_false_of_isDecimalDigit (hd c (by simp))]
  have hbehind : behind.takeWhile isDecimalDigit = [] ∧ behind.dropWhile isDecimalDigit = behind := by
    cases behind with
    | nil => exact ⟨rfl, rfl⟩
    | cons c cs =>
      have hc : isDecimalDigit c = false := Bool.eq_false_iff.mpr fun h => by
        have := isWhiteSpace_eq_false_of_isDecimalDigit h
        rw [he c (by simp)] at this
        contradiction
      simp [hc]
  have htake : (digits ++ behind).takeWhile isDecimalDigit = digits := by
    rw [List.takeWhile_append_of_pos hd, hbehind.1, List.append_nil]
  have hdrop : (digits ++ behind).dropWhile isDecimalDigit = behind := by
    rw [List.dropWhile_append_of_pos hd, hbehind.2]
  have hall : behind.all isWhiteSpace = true := List.all_eq_true.mpr he
  simp [readNumeral, hspace, htake, hdrop, hall, hne]

/-- Digits alone are a numeral, unless there are too many. -/
theorem readNumeral_digits {cs : List Char} (hne : cs ≠ []) (hd : ∀ c ∈ cs, isDecimalDigit c = true)
    (hl : cs.length ≤ maxDigits) : readNumeral cs = .ok (digitsValue cs) := by
  have h := @readNumeral_spaced [] cs [] (by simp) hne hd (by simp)
  rwa [List.nil_append, List.append_nil, if_neg (Nat.not_lt.mpr hl)] at h

/-- An ASCII digit is a decimal digit of its usual value. -/
theorem digitValue?_of_isDigit {c : Char} (h : c.isDigit = true) : digitValue? c = some (c.toNat - '0'.toNat) := by
  simp only [Char.isDigit, Bool.and_eq_true, decide_eq_true_eq] at h
  have hlo : 0x30 ≤ c.toNat := h.1
  have hhi : c.toNat ≤ 0x39 := h.2
  have hlt : c.toNat < 0x30 + 10 := by omega
  simp [digitValue?, decimalZeros, hlo, hlt]

private theorem foldl_digitValue {cs : List Char} (h : ∀ c ∈ cs, c.isDigit = true) (n : Nat) :
    cs.foldl (fun n c => 10 * n + (digitValue? c).getD 0) n = Nat.ofDigitChars 10 cs n := by
  unfold Nat.ofDigitChars
  induction cs generalizing n with
  | nil => rfl
  | cons c cs ih =>
    rw [List.foldl_cons, List.foldl_cons, digitValue?_of_isDigit (h c (by simp)), Option.getD_some]
    exact ih (fun d hd => h d (by simp [hd])) _

theorem digitsValue_eq_ofDigitChars {cs : List Char} (h : ∀ c ∈ cs, c.isDigit = true) :
    digitsValue cs = Nat.ofDigitChars 10 cs 0 := foldl_digitValue h 0

/-- A number with not too many digits is read back from them. -/
theorem readNumeral_repr {n : Nat} (h : n.repr.length ≤ maxDigits) : readNumeral n.repr.toList = .ok n := by
  rw [← String.length_toList, Nat.toList_repr] at h
  rw [Nat.toList_repr]
  have hd : ∀ c ∈ Nat.toDigits 10 n, c.isDigit = true := fun c hc =>
    Nat.isDigit_of_mem_toDigits (by decide) (by decide) hc
  have hdec : ∀ c ∈ Nat.toDigits 10 n, isDecimalDigit c = true := fun c hc => by
    simp [isDecimalDigit, digitValue?_of_isDigit (hd c hc)]
  rw [readNumeral_digits Nat.toDigits_ne_nil hdec h,
    digitsValue_eq_ofDigitChars hd, Nat.ofDigitChars_toDigits (by decide) (by decide)]

end FormalLang.Text
