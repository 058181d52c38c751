import FormalLang.Proofs.Text.Lines
import Mathlib.Data.List.Perm.Basic

/-!
# Texts with the same lines

Two lists of lines may differ in their order and in lines of blanks. A text that is put together from lines with line
feeds between them is cut at these line feeds again. A carriage return in front of one takes it along, and no more than an
empty line is lost by that.

* `Text.SameLines`: the same lines, in any order, but for lines of blanks.
* `Text.SameLines.exists_mem_iff`, `SameLines.countP_eq`: what is not said of blank lines is said of both alike.
* `Text.exists_lines_append`: the lines of two texts with a line feed between them.
* `Text.SameLines.intercalate`: lines that are put together are the lines of the text.
-/

namespace FormalLang.Text

variable {cs l : List Char} {ls ms : List (List Char)}

/-- Has the line only blanks, or no characters at all? -/
def isBlankLine (l : List Char) : Bool := l.all isBlank

/-- The lines are the same, in any order, but for lines of blanks. -/
def SameLines (ls ms : List (List Char)) : Prop := (ls.filter (!isBlankLine ·)).Perm (ms.filter (!isBlankLine ·))

instance (ls ms : List (List Char)) : Decidable (SameLines ls ms) := inferInstanceAs (Decidable (List.Perm _ _))

namespace SameLines

theorem symm (h : SameLines ls ms) : SameLines ms ls := List.Perm.symm h

variable (h : SameLines ls ms)
include h

theorem mem_iff (hl : isBlankLine l = false) : l ∈ ls ↔ l ∈ ms := by
  have hmem := List.Perm.mem_iff h (a := l)
  simpa [hl] using hmem

theorem exists_mem_iff {P : List Char → Prop} (hP : ∀ l, P l → isBlankLine l = false) :
    (∃ l ∈ ls, P l) ↔ ∃ l ∈ ms, P l := by
  refine exists_congr fun l => and_congr_left fun hl => ?_
  exact h.mem_iff (hP l hl)

theorem forall_mem {P : List Char → Prop} (hP : ∀ l, isBlankLine l = true → P l) (hls : ∀ l ∈ ls, P l) :
    ∀ l ∈ ms, P l := by
  intro l hl
  cases hblank : isBlankLine l with
  | true => exact hP l hblank
  | false => exact hls l ((h.mem_iff hblank).mpr hl)

theorem countP_eq {f : List Char → Bool} (hf : ∀ l, f l = true → isBlankLine l = false) : ls.countP f = ms.countP f := by
  have hfilter : ∀ ls : List (List Char), (ls.filter (!isBlankLine ·)).countP f = ls.countP f := by
    intro ls
    rw [List.countP_filter]
    refine List.countP_congr fun l _ => ?_
    simp only [Bool.and_eq_true, Bool.not_eq_true', and_iff_left_iff_imp]
    exact hf l
  rw [← hfilter ls, ← hfilter ms]
  exact List.Perm.countP_eq f h

end SameLines

/-! ## Texts put together from lines -/

theorem lines_cons_of_isLineEnd {c : Char} (hc : isLineEnd c = true) (h : c = '\r' → cs.head? ≠ some '\n') :
    lines (c :: cs) = [] :: lines cs := by
  rw [lines]
  · exact if_pos hc
  · rintro ds hr rfl
    exact h hr rfl

theorem extendLine_append {c : Char} (hne : ls ≠ []) (ms : List (List Char)) :
    extendLine c (ls ++ ms) = extendLine c ls ++ ms := by
  cases ls with
  | nil => contradiction
  | cons l ls => rfl

theorem lines_ne_nil (h : cs ≠ []) : lines cs ≠ [] := by
  fun_cases lines cs with
  | case1 => contradiction
  | case2 => exact List.cons_ne_nil _ _
  | case3 => exact List.cons_ne_nil _ _
  | case4 c ds => cases lines ds <;> exact List.cons_ne_nil _ _

/-- The lines of two texts with a line feed between them, with an empty line or none for the line feed. -/
theorem exists_lines_append (cs ds : List Char) :
    ∃ gap, (∀ l ∈ gap, l = []) ∧ lines (cs ++ '\n' :: ds) = lines cs ++ (gap ++ lines ds) := by
  fun_induction lines cs with
  | case1 => exact ⟨[[]], by simp, rfl⟩
  | case2 cs ih =>
    obtain ⟨gap, hgap, h⟩ := ih
    exact ⟨gap, hgap, congrArg ([] :: ·) h⟩
  | case3 c cs hcr hc ih =>
    obtain ⟨gap, hgap, h⟩ := ih
    by_cases hfeed : c = '\r' ∧ cs = []
    · -- The line feed belongs to the carriage return.
      obtain ⟨rfl, rfl⟩ := hfeed
      exact ⟨[], by simp, rfl⟩
    · refine ⟨gap, hgap, ?_⟩
      rw [List.cons_append, lines_cons_of_isLineEnd hc fun hr hhead => ?_, h]
      · rfl
      · cases cs with
        | nil => exact hfeed ⟨hr, rfl⟩
        | cons d ds =>
          obtain rfl : d = '\n' := Option.some.inj hhead
          exact hcr ds hr rfl
  | case4 c cs hcr hc ih =>
    obtain ⟨gap, hgap, h⟩ := ih
    have hc := Bool.eq_false_iff.mpr hc
    rw [List.cons_append, lines_cons_of_isLineEnd_eq_false hc]
    by_cases hnil : cs = []
    · subst hnil
      exact ⟨[], by simp, rfl⟩
    · exact ⟨gap, hgap, by rw [h, extendLine_append (lines_ne_nil hnil)]⟩

/-- A line without an end in it is the only line of its text. -/
theorem lines_eq_singleton (hne : l ≠ []) (hl : ∀ c ∈ l, isLineEnd c = false) : lines l = [l] := by
  induction l with
  | nil => contradiction
  | cons c l ih =>
    obtain ⟨hc, hl⟩ := List.forall_mem_cons.mp hl
    rw [lines_cons_of_isLineEnd_eq_false hc]
    by_cases hnil : l = []
    · subst hnil
      rfl
    · rw [ih hnil hl]
      rfl

/-- The lines of lines put together are the lines of each of them, but for lines of blanks. -/
theorem filter_lines_intercalate (ls : List (List Char)) :
    (lines (['\n'].intercalate ls)).filter (!isBlankLine ·) = ls.flatMap fun l => (lines l).filter (!isBlankLine ·) := by
  induction ls with
  | nil => rfl
  | cons l ls ih =>
    cases ls with
    | nil => simp
    | cons m ls =>
      obtain ⟨gap, hgap, h⟩ := exists_lines_append l (['\n'].intercalate (m :: ls))
      have hnone : gap.filter (!isBlankLine ·) = [] := by
        rw [List.filter_eq_nil_iff]
        intro g hg
        rw [hgap g hg]
        decide
      rw [List.intercalate_cons_cons, List.append_assoc, List.singleton_append, h, List.filter_append, List.filter_append,
        hnone, List.nil_append, ih]
      rfl

/-- If the lines of a text are rearranged and put together, the lines of the new text are those of the old one. -/
theorem SameLines.intercalate (h : SameLines (lines cs) ms) : SameLines (lines cs) (lines (['\n'].intercalate ms)) := by
  have hms : ∀ l ∈ ms, (lines l).filter (!isBlankLine ·) = [l].filter (!isBlankLine ·) := by
    intro l hl
    cases hblank : isBlankLine l with
    | true =>
      have hlines : (lines l).filter (!isBlankLine ·) = [] := by
        rw [List.filter_eq_nil_iff]
        intro m hm
        have hall : isBlankLine m = true :=
          List.all_eq_true.mpr fun c hc => List.all_eq_true.mp hblank c (((pieces_lines l).mem m hm).subset hc)
        simp [hall]
      simp [hlines, hblank]
    | false =>
      have hne : l ≠ [] := by
        rintro rfl
        contradiction
      rw [lines_eq_singleton hne (isLineEnd_of_mem_lines ((h.mem_iff hblank).mpr hl))]
  have hfilter : (lines (['\n'].intercalate ms)).filter (!isBlankLine ·) = ms.filter (!isBlankLine ·) := by
    rw [filter_lines_intercalate, List.flatMap_congr hms, ← List.filter_flatMap, List.flatMap_singleton']
  unfold SameLines
  rw [hfilter]
  exact h

end FormalLang.Text
