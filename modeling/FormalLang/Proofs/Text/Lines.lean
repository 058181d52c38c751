import FormalLang.Text.Numeral

/-!
# Lines and blanks of texts

A text is the lines that it has been put together from, and its lines are parts of it.

* `lines_flatMap_append`: the lines of a text that begins with some lines, each ended by a line feed.
* `lines_append_lineEnd`: the first line of a text goes up to the first character that ends a line.
* `pieces_lines`, `isLineEnd_of_mem_lines`: a line is a part of the text without an end in it.
* `trim_isInfix`, `trim_eq_self`: a text without the blanks at its ends.
-/

namespace FormalLang.Text

variable {c : Char} {cs l : List Char}

/-! ## Blanks -/

theorem trimLeft_isSuffix (cs : List Char) : trimLeft cs <:+ cs := List.dropWhile_suffix _

theorem trimRight_isPrefix (cs : List Char) : trimRight cs <+: cs := by
  have h : cs.reverse.dropWhile isBlank <:+ cs.reverse := List.dropWhile_suffix _
  rw [← List.reverse_prefix, List.reverse_reverse] at h
  exact h

theorem trim_isInfix (cs : List Char) : trim cs <:+: cs :=
  (trimRight_isPrefix _).isInfix.trans (trimLeft_isSuffix cs).isInfix

theorem trimLeft_cons (h : isBlank c = false) (cs : List Char) : trimLeft (c :: cs) = c :: cs := by
  rw [trimLeft, List.dropWhile_cons_of_neg]
  rw [h]
  exact Bool.false_ne_true

theorem trimLeft_blank (h : isBlank c = true) (cs : List Char) : trimLeft (c :: cs) = trimLeft cs :=
  List.dropWhile_cons_of_pos h

/-- A text that neither begins nor ends with a blank has none at its ends. -/
theorem trim_eq_self (hhead : ∀ c ∈ cs.head?, isBlank c = false) (hlast : ∀ c ∈ cs.getLast?, isBlank c = false) :
    trim cs = cs := by
  have hleft : ∀ ds : List Char, (∀ c ∈ ds.head?, isBlank c = false) → trimLeft ds = ds := by
    intro ds h
    cases ds with
    | nil => rfl
    | cons c ds => exact trimLeft_cons (h c rfl) ds
  have hrev : trimLeft cs.reverse = cs.reverse := hleft _ fun c hc => hlast c (by rwa [List.head?_reverse] at hc)
  rw [trim, hleft cs hhead, trimRight, ← trimLeft, hrev, List.reverse_reverse]

/-! ## Lines -/

/-- The ASCII letters and digits are between `0` and `z`. -/
theorem toNat_of_isAlphanum (h : c.isAlphanum = true) : 0x30 ≤ c.toNat ∧ c.toNat ≤ 0x7a := by
  have hupper : c.isUpper = true → 0x41 ≤ c.toNat ∧ c.toNat ≤ 0x5a := of_decide_eq_true
  have hlower : c.isLower = true → 0x61 ≤ c.toNat ∧ c.toNat ≤ 0x7a := fun h =>
    (Bool.and_eq_true_iff.mp h).imp of_decide_eq_true of_decide_eq_true
  have hdigit : c.isDigit = true → 0x30 ≤ c.toNat ∧ c.toNat ≤ 0x39 := fun h =>
    (Bool.and_eq_true_iff.mp h).imp of_decide_eq_true of_decide_eq_true
  rcases Bool.or_eq_true_iff.mp h with h | h
  · rcases Bool.or_eq_true_iff.mp h with h | h
    · have := hupper h
      omega
    · have := hlower h
      omega
  · have := hdigit h
    omega

theorem isLineEnd_eq_false_of_isAlphanum (h : c.isAlphanum = true) : isLineEnd c = false := by
  have hc := toNat_of_isAlphanum h
  refine List.any_eq_false.mpr fun r hr => ?_
  have hr : r.2 < 0x30 ∨ 0x7a < r.1 := by
    revert r
    decide
  rw [Bool.and_eq_true, decide_eq_true_eq, decide_eq_true_eq]
  omega

theorem isLineEnd_eq_false_of_all (h : (cs.all fun c => !isLineEnd c) = true) : ∀ c ∈ cs, isLineEnd c = false := by
  intro c hc
  have := List.all_eq_true.mp h c hc
  rwa [Bool.not_eq_true'] at this

theorem lines_cons_of_isLineEnd_eq_false (h : isLineEnd c = false) (cs : List Char) :
    lines (c :: cs) = extendLine c (lines cs) := by
  have hc : c ≠ '\r' := by
    rintro rfl
    exact absurd h (by decide)
  rw [lines.eq_def (c :: cs)]
  split
  · contradiction
  · next heq => exact absurd (List.cons.inj heq).1 hc
  · next heq =>
    obtain ⟨rfl, rfl⟩ := List.cons.inj heq
    rw [h]
    rfl

theorem exists_lines_cons_of_isLineEnd (h : isLineEnd c = true) (cs : List Char) :
    ∃ ls, lines (c :: cs) = [] :: ls := by
  unfold lines
  split
  · contradiction
  · exact ⟨_, rfl⟩
  · next heq =>
    obtain ⟨rfl, rfl⟩ := List.cons.inj heq
    exact ⟨_, if_pos h⟩

theorem lines_append_cons {ls : List (List Char)} (hl : ∀ c ∈ l, isLineEnd c = false) (h : lines cs = [] :: ls) :
    lines (l ++ cs) = l :: ls := by
  induction l with
  | nil => exact h
  | cons c l ih =>
    obtain ⟨hc, hl⟩ := List.forall_mem_cons.mp hl
    rw [List.cons_append, lines_cons_of_isLineEnd_eq_false hc, ih hl]
    rfl

/-- The first line of a text goes up to the first character that ends a line. -/
theorem lines_append_lineEnd (hl : ∀ c ∈ l, isLineEnd c = false) (hc : isLineEnd c = true) (cs : List Char) :
    ∃ ls, lines (l ++ c :: cs) = l :: ls := by
  obtain ⟨ls, hls⟩ := exists_lines_cons_of_isLineEnd hc cs
  exact ⟨ls, lines_append_cons hl hls⟩

/-- The lines of a text that begins with some lines, each ended by a line feed. -/
theorem lines_flatMap_append {ls : List (List Char)} (h : ∀ l ∈ ls, ∀ c ∈ l, isLineEnd c = false) (cs : List Char) :
    lines (ls.flatMap (· ++ ['\n']) ++ cs) = ls ++ lines cs := by
  induction ls with
  | nil => rfl
  | cons l ls ih =>
    obtain ⟨hl, hls⟩ := List.forall_mem_cons.mp h
    rw [List.flatMap_cons, List.append_assoc, List.append_assoc, List.singleton_append, lines_append_cons hl rfl, ih hls]
    rfl

/-- The text of some lines with a line feed between neighbours and one at the end. -/
theorem toList_intercalate_lines {ls : List String} (hne : ls ≠ []) :
    (String.intercalate "\n" ls ++ "\n").toList = (ls.map String.toList).flatMap (· ++ ['\n']) := by
  have hlines : ∀ (l : List Char) (ms : List (List Char)),
      ['\n'].intercalate (l :: ms) ++ ['\n'] = (l :: ms).flatMap (· ++ ['\n']) := by
    intro l ms
    induction ms generalizing l with
    | nil => simp
    | cons m ms ih =>
      rw [List.intercalate_cons_cons, List.append_assoc, ih]
      rfl
  obtain ⟨l, ms, rfl⟩ := List.exists_cons_of_ne_nil hne
  rw [String.toList_append, String.toList_intercalate]
  exact hlines l.toList (ms.map String.toList)

/-! ## Lines as parts of the text -/

/-- The pieces are parts of the text, and the first one is what it begins with. -/
structure Pieces (cs : List Char) (ls : List (List Char)) : Prop where
  head : ∀ l ∈ ls.head?, l <+: cs
  mem : ∀ l ∈ ls, l <:+: cs

theorem Pieces.cut {ls : List (List Char)} (h : Pieces cs ls) (c : Char) : Pieces (c :: cs) ([] :: ls) where
  head l hl := by
    obtain rfl := Option.some.inj hl
    exact List.nil_prefix
  mem := List.forall_mem_cons.mpr
    ⟨List.nil_infix, fun l hl => (h.mem l hl).trans (List.suffix_cons c cs).isInfix⟩

theorem Pieces.extend {ls : List (List Char)} (h : Pieces cs ls) (c : Char) : Pieces (c :: cs) (extendLine c ls) := by
  cases ls with
  | nil =>
    have hl : [c] <+: c :: cs := List.cons_prefix_cons.mpr ⟨rfl, List.nil_prefix⟩
    refine ⟨fun l h => ?_, fun l h => ?_⟩
    · exact Option.some.inj h ▸ hl
    · exact List.mem_singleton.mp h ▸ hl.isInfix
  | cons m ls =>
    have hm : c :: m <+: c :: cs := List.cons_prefix_cons.mpr ⟨rfl, h.head m rfl⟩
    refine ⟨fun l hl => Option.some.inj hl ▸ hm, List.forall_mem_cons.mpr ⟨hm.isInfix, fun l hl => ?_⟩⟩
    exact (h.mem l (.tail _ hl)).trans (List.suffix_cons c cs).isInfix

theorem pieces_lines (cs : List Char) : Pieces cs (lines cs) := by
  fun_induction lines cs with
  | case1 => exact ⟨nofun, nofun⟩
  | case2 cs ih =>
    have h := ih.cut '\n'
    refine ⟨fun l hl => Option.some.inj hl ▸ List.nil_prefix, List.forall_mem_cons.mpr ⟨List.nil_infix, fun l hl => ?_⟩⟩
    exact (h.mem l (.tail _ hl)).trans (List.suffix_cons '\r' _).isInfix
  | case3 c cs _ hc ih => exact ih.cut c
  | case4 c cs _ hc ih => exact ih.extend c

/-- No character of a line ends it. -/
theorem isLineEnd_of_mem_lines (h : l ∈ lines cs) : ∀ c ∈ l, isLineEnd c = false := by
  fun_induction lines cs generalizing l with
  | case1 => contradiction
  | case2 cs ih =>
    rcases List.mem_cons.mp h with rfl | h
    · exact fun c hc => absurd hc List.not_mem_nil
    · exact ih h
  | case3 c cs _ hc ih =>
    rcases List.mem_cons.mp h with rfl | h
    · exact fun c hc => absurd hc List.not_mem_nil
    · exact ih h
  | case4 c cs _ hc ih =>
    have hc := Bool.eq_false_iff.mpr hc
    cases hls : lines cs with
    | nil =>
      rw [hls] at h
      rw [List.mem_singleton.mp h]
      exact List.forall_mem_singleton.mpr hc
    | cons m ls =>
      rw [hls] at h ih
      rcases List.mem_cons.mp h with rfl | h
      · exact List.forall_mem_cons.mpr ⟨hc, ih (.head _)⟩
      · exact ih (.tail _ h)

end FormalLang.Text
