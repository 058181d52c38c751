import FormalLang.Proofs.Text.Lines
import Mathlib.Algebra.Group.Nat.Defs
import Mathlib.Data.List.TakeWhile
import Mathlib.Tactic.Push

/-!
# Numbers in texts

The digits of a number are read back as the number, with or without a space before them. What looks like a number and is
none has too many digits, a digit that is not decimal, or a unit separator among the blanks around it: that character is
blank, but no white space.

* `readNumeral_toString`, `readNumeral_space_toString`: numbers that can be written are read back.
* `NumeralFault.OccursIn`: what a text must contain for a fault.
* `occursIn_of_digitLike`, `occursIn_of_spaced`: the faults of texts that look like numbers.
-/

namespace FormalLang.Text

variable {c : Char} {cs ds : List Char} {f : NumeralFault} {n : Nat}

/-! ## Digits -/

theorem isBlank_eq_false_of_isDecimalDigit (h : isDecimalDigit c = true) : isBlank c = false := by
  rw [isBlank, isWhiteSpace_eq_false_of_isDecimalDigit h, Bool.false_or]
  exact inRanges_eq_false_of_isDecimalDigit (by decide) h

theorem isLineEnd_eq_false_of_isDecimalDigit (h : isDecimalDigit c = true) : isLineEnd c = false :=
  inRanges_eq_false_of_isDecimalDigit (by decide) h

theorem isDecimalDigit_of_isDigit (h : c.isDigit = true) : isDecimalDigit c = true := by
  rw [isDecimalDigit, digitValue?_of_isDigit h]
  rfl

theorem isDigit_of_mem_toString (h : c ∈ (toString n).toList) : c.isDigit = true := by
  have h : c ∈ n.repr.toList := h
  rw [Nat.toList_repr] at h
  exact Nat.isDigit_of_mem_toDigits (by decide) (by decide) h

theorem isDecimalDigit_of_mem_toString (h : c ∈ (toString n).toList) : isDecimalDigit c = true :=
  isDecimalDigit_of_isDigit (isDigit_of_mem_toString h)

theorem toList_toString_ne_nil (n : Nat) : (toString n).toList ≠ [] := by
  show n.repr.toList ≠ []
  rw [Nat.toList_repr]
  exact Nat.toDigits_ne_nil

theorem trim_toString (n : Nat) : trim (toString n).toList = (toString n).toList := by
  have hblank : ∀ c ∈ (toString n).toList, isBlank c = false := fun c hc =>
    isBlank_eq_false_of_isDecimalDigit (isDecimalDigit_of_mem_toString hc)
  exact trim_eq_self (fun c hc => hblank c (List.mem_of_mem_head? hc)) fun c hc => hblank c (List.mem_of_getLast? hc)

theorem isLineEnd_of_mem_toString (n : Nat) : ∀ c ∈ (toString n).toList, isLineEnd c = false := fun _ hc =>
  isLineEnd_eq_false_of_isDecimalDigit (isDecimalDigit_of_mem_toString hc)

/-! ## Numbers that are written -/

theorem readNumeral_toString (h : n < 10 ^ maxDigits) : readNumeral (toString n).toList = .ok n :=
  readNumeral_repr ((Nat.length_repr_le_iff (by decide)).mpr h)

theorem readNumeral_space_toString (h : n < 10 ^ maxDigits) : readNumeral (' ' :: (toString n).toList) = .ok n := by
  have hspace : ∀ c ∈ [' '], isWhiteSpace c = true := by
    intro c hc
    rw [List.mem_singleton.mp hc]
    decide
  have hdigits : ∀ c ∈ (toString n).toList, isDecimalDigit c = true := fun c hc => isDecimalDigit_of_mem_toString hc
  have hplain := @readNumeral_spaced [] (toString n).toList [] (by simp) (toList_toString_ne_nil n) hdigits (by simp)
  have hspaced := @readNumeral_spaced [' '] (toString n).toList [] hspace (toList_toString_ne_nil n) hdigits (by simp)
  rw [List.append_nil] at hplain hspaced
  rw [← readNumeral_toString h]
  exact hspaced.trans hplain.symm

/-! ## Faults -/

/-- The text contains what the fault is about: too many digits in a row, or a text with a digit that is not decimal or a
unit separator. -/
def NumeralFault.OccursIn (text : List Char) : NumeralFault → Prop
  | tooLong k => maxDigits < k ∧ ∃ ds, ds <:+: text ∧ ds.length = k ∧ ∀ c ∈ ds, isDecimalDigit c = true
  | malformed cs => cs <:+: text ∧ ∃ c ∈ cs, isDigitLike c = true ∧ isDecimalDigit c = false ∨ c = '\x1f'

theorem NumeralFault.OccursIn.mono (h : f.OccursIn cs) (hcs : cs <:+: ds) : f.OccursIn ds := by
  cases f with
  | tooLong k =>
    obtain ⟨hk, es, hes, hlen, hdigits⟩ := h
    exact ⟨hk, es, hes.trans hcs, hlen, hdigits⟩
  | malformed es => exact ⟨h.1.trans hcs, h.2⟩

/-- A text is refused for its digits if there are too many, and else as a whole. -/
theorem readNumeral_eq_error (h : readNumeral cs = .error f) : (∃ k, f = .tooLong k ∧ f.OccursIn cs) ∨ f = .malformed cs := by
  simp only [readNumeral] at h
  split at h
  · next hlong =>
    obtain rfl := Except.error.inj h
    have hpart : (cs.dropWhile isWhiteSpace).takeWhile isDecimalDigit <:+: cs :=
      (List.takeWhile_prefix _).isInfix.trans (List.dropWhile_suffix _).isInfix
    exact .inl ⟨_, rfl, hlong, _, hpart, rfl, fun c hc => List.mem_takeWhile_imp hc⟩
  · split at h
    · exact .inr (Except.error.inj h).symm
    · contradiction

/-- Decimal digits between white space may be too many and are not refused otherwise. -/
theorem readNumeral_spaced_ne_malformed {before behind : List Char} (hb : ∀ c ∈ before, isWhiteSpace c = true)
    (hne : ds ≠ []) (hd : ∀ c ∈ ds, isDecimalDigit c = true) (he : ∀ c ∈ behind, isWhiteSpace c = true) :
    readNumeral (before ++ (ds ++ behind)) ≠ .error (.malformed cs) := by
  rw [readNumeral_spaced hb hne hd he]
  split
  · exact fun h => nomatch Except.error.inj h
  · exact fun h => nomatch h

/-- Digits that are refused are too many, or one of them is not decimal. -/
theorem occursIn_of_digitLike (hne : cs ≠ []) (hlike : ∀ c ∈ cs, isDigitLike c = true) (h : readNumeral cs = .error f) :
    f.OccursIn cs := by
  rcases readNumeral_eq_error h with ⟨k, -, hk⟩ | rfl
  · exact hk
  · refine ⟨List.infix_refl cs, ?_⟩
    by_contra hall
    push Not at hall
    have hdigits : ∀ c ∈ cs, isDecimalDigit c = true := fun c hc => by
      by_contra hd
      exact (hall c hc).1 (hlike c hc) (Bool.eq_false_iff.mpr hd)
    refine @readNumeral_spaced_ne_malformed cs cs [] [] (by simp) hne hdigits (by simp) ?_
    rwa [List.nil_append, List.append_nil]

theorem exists_eq_trim (cs : List Char) :
    ∃ before behind, cs = before ++ (trim cs ++ behind) ∧ (∀ c ∈ before, isBlank c = true) ∧
      ∀ c ∈ behind, isBlank c = true := by
  refine ⟨cs.takeWhile isBlank, ((trimLeft cs).reverse.takeWhile isBlank).reverse, ?_, fun c hc => ?_, fun c hc => ?_⟩
  · rw [trim, trimRight, ← List.reverse_append, List.takeWhile_append_dropWhile, List.reverse_reverse, trimLeft,
      List.takeWhile_append_dropWhile]
  · exact List.mem_takeWhile_imp hc
  · exact List.mem_takeWhile_imp (List.mem_reverse.mp hc)

/-- A blank that is no white space and does not end a line is a unit separator. -/
theorem eq_of_isBlank (hb : isBlank c = true) (hs : isWhiteSpace c = false) (he : isLineEnd c = false) : c = '\x1f' := by
  rw [isBlank, hs, Bool.false_or] at hb
  have hrange : 0x1c ≤ c.toNat ∧ c.toNat ≤ 0x1f := by simpa [inRanges, separatorRanges] using hb
  have hend : ¬ (0x1c ≤ c.toNat ∧ c.toNat ≤ 0x1e) := by
    intro h
    simp [isLineEnd, inRanges, lineEndRanges, h] at he
  have : c.toNat = 0x1f := by omega
  rw [← Char.ofNat_toNat c, this]

/-- Decimal digits between blanks that are refused are too many, or one of the blanks is a unit separator. -/
theorem occursIn_of_spaced (hne : trim cs ≠ []) (hdigits : ∀ c ∈ trim cs, isDecimalDigit c = true)
    (hline : ∀ c ∈ cs, isLineEnd c = false) (h : readNumeral cs = .error f) : f.OccursIn cs := by
  rcases readNumeral_eq_error h with ⟨k, -, hk⟩ | rfl
  · exact hk
  · refine ⟨List.infix_refl cs, ?_⟩
    by_contra hall
    push Not at hall
    have hwhite : ∀ c ∈ cs, isBlank c = true → isWhiteSpace c = true := fun c hc hb => by
      by_contra hs
      exact (hall c hc).2 (eq_of_isBlank hb (Bool.eq_false_iff.mpr hs) (hline c hc))
    obtain ⟨before, behind, heq, hbefore, hbehind⟩ := exists_eq_trim cs
    have hbefore : ∀ c ∈ before, isWhiteSpace c = true := fun c hc =>
      hwhite c (heq ▸ List.mem_append_left _ hc) (hbefore c hc)
    have hbehind : ∀ c ∈ behind, isWhiteSpace c = true := fun c hc =>
      hwhite c (heq ▸ List.mem_append_right _ (List.mem_append_right _ hc)) (hbehind c hc)
    exact readNumeral_spaced_ne_malformed hbefore hne hdigits hbehind (heq ▸ h)

end FormalLang.Text
