import FormalLang.Proofs.Regex.Runs

/-!
# Reading a tree's text

The text of a tree has the shape of an expression, with the tree itself. The printer decides from the characters of
the left side of a concatenation where parentheses are needed; these characters tell whether the left side ends with
a run or with a group, and whether it is one run.

* `Regex.Shape.endsInGroup_eq`, `Shape.run_of_opening_notMem`: the characters of a piece tell its shape.
* `Regex.shape_spell_of_isRun`: a run of literals is spelled as a run of symbols.
* `Regex.exists_shape_concat`: parentheses stand around the right side of a concatenation where they are needed.
* `Regex.read_text`: a tree is read back from its text.
-/

namespace FormalLang

namespace Regex

variable {cs ds : List Char} {c : Char} {l r : Regex}

/-! ## The characters of a piece -/

theorem endsInGroup_append_symbol (starred : Bool) (hc : isSymbolChar c = true) :
    endsInGroup (cs ++ c :: starChars starred) = false := by
  have hne : c ≠ ')' := by
    rintro rfl
    exact absurd hc (by decide)
  have hstar := ne_star_of_isSymbolChar hc
  cases starred <;> simp [endsInGroup, starChars, hne, hstar]

theorem endsInGroup_append_closing (starred : Bool) : endsInGroup (cs ++ ')' :: starChars starred) = true := by
  cases starred <;> simp [endsInGroup, starChars]

namespace Shape

theorem opening_notMem_of_run (h : Shape .run cs r) : '(' ∉ cs := by
  intro hmem
  exact absurd (h.run_chars.2 _ hmem) (by decide)

theorem endsInGroup_append_run (cs : List Char) (h : Shape .run ds r) : endsInGroup (cs ++ ds) = false := by
  cases h with
  | symbol starred hc => exact endsInGroup_append_symbol starred hc
  | moreSymbols starred _ hc =>
    rw [← List.append_assoc]
    exact endsInGroup_append_symbol starred hc

theorem endsInGroup_append_group (cs : List Char) (h : Shape .group ds r) : endsInGroup (cs ++ ds) = true := by
  cases h with
  | group starred _ =>
    rw [← List.append_assoc]
    exact endsInGroup_append_closing starred

/-- The characters of a term tell whether it ends with a run or with a group. -/
theorem endsInGroup_eq {b : Bool} (h : Shape (.term b) cs r) : endsInGroup cs = !b := by
  cases h with
  | firstRun h => exact endsInGroup_append_run [] h
  | firstGroup h => exact endsInGroup_append_group [] h
  | nextRun _ h => exact endsInGroup_append_run _ h
  | nextGroup _ h => exact endsInGroup_append_group _ h

theorem opening_mem_of_group (h : Shape .group cs r) : '(' ∈ cs := by
  obtain ⟨ds, rfl⟩ := h.exists_of_group
  exact List.mem_cons_self

theorem opening_mem_of_term_false (h : Shape (.term false) cs r) : '(' ∈ cs := by
  cases h with
  | firstGroup h => exact h.opening_mem_of_group
  | nextGroup _ h => exact List.mem_append_right _ h.opening_mem_of_group

/-- A term without an opening parenthesis is one run. -/
theorem run_of_opening_notMem {b : Bool} (h : Shape (.term b) cs r) (hcs : '(' ∉ cs) : Shape .run cs r := by
  cases h with
  | firstRun h => exact h
  | firstGroup h => exact absurd h.opening_mem_of_group hcs
  | nextRun h _ => exact absurd (List.mem_append_left _ h.opening_mem_of_term_false) hcs
  | nextGroup _ h => exact absurd (List.mem_append_right _ h.opening_mem_of_group) hcs

/-- An expression is one term, unless its tree is an alternation. -/
theorem exists_term (h : Shape .expression cs r) (hr : r.isAlternation = false) : ∃ b, Shape (.term b) cs r := by
  cases h with
  | term h => exact ⟨_, h⟩
  | alternation _ _ => contradiction

/-- The star of something other than a literal is one group. -/
theorem group_of_isStar (h : Shape .expression cs r) (hr : r.isStar = true) (hatom : r.isAtom = false) :
    Shape .group cs r := by
  cases h with
  | alternation _ _ => contradiction
  | term h =>
    cases h with
    | firstGroup h => exact h
    | firstRun h =>
      cases h with
      | symbol starred _ => cases starred <;> contradiction
      | moreSymbols _ _ _ => contradiction
    | nextRun _ _ => contradiction
    | nextGroup _ _ => contradiction

end Shape

/-! ## The text of a tree -/

theorem IsAlphanumeric.left (h : (concat l r).IsAlphanumeric) : l.IsAlphanumeric :=
  fun a ha => h a (List.mem_append_left _ ha)

theorem IsAlphanumeric.right (h : (concat l r).IsAlphanumeric) : r.IsAlphanumeric :=
  fun a ha => h a (List.mem_append_right _ ha)

/-- A symbol joins the run before it. -/
theorem shape_append_atom (hl : Shape .run cs l) (hr : r.IsAlphanumeric) (h : r.isAtom = true) :
    Shape .run (cs ++ r.spell) (concat l r) := by
  obtain ⟨starred, c, hc, rfl, hspell⟩ := exists_of_isAtom hr h
  rw [hspell]
  exact .moreSymbols starred hl hc

/-- A run of literals is spelled as a run of symbols. -/
theorem shape_spell_of_isRun (hr : r.IsAlphanumeric) (h : r.isRun = true) : Shape .run r.spell r := by
  induction r with
  | concat l r ihl _ =>
    rw [isRun, Bool.and_eq_true] at h
    have hl := ihl hr.left h.1
    rw [spell_concat_of_isAtom h.1 hl.opening_notMem_of_run h.2]
    exact shape_append_atom hl hr.right h.2
  | alternation _ _ => contradiction
  | _ =>
    obtain ⟨starred, c, hc, heq, hspell⟩ := exists_of_isAtom hr h
    rw [hspell, heq]
    exact .symbol starred hc

/-- After a group, a run stands without parentheses, and so does a group. -/
theorem isRun_of_standsBare (hl : Shape (.term false) cs l) (h : standsBare cs r = true) :
    r.isRun = true ∨ r.isStar = true ∧ r.isAtom = false := by
  rw [standsBare, hl.endsInGroup_eq, if_pos (by decide), Bool.or_eq_true] at h
  cases hatom : r.isAtom with
  | false => exact h.imp_right fun hstar => ⟨hstar, rfl⟩
  | true => exact .inl (isRun_of_isAtom hatom)

/-- After a run, a symbol stands without parentheses only where it joins the run. -/
theorem isAtom_of_standsBare (hl : Shape (.term true) cs l) (h : standsBare cs r = true) :
    '(' ∉ cs ∧ r.isAtom = true ∨ r.isStar = true ∧ r.isAtom = false := by
  rw [standsBare, hl.endsInGroup_eq, if_neg (by decide)] at h
  by_cases hmem : '(' ∈ cs
  · rw [if_pos hmem, Bool.and_eq_true, Bool.not_eq_true'] at h
    exact .inr h
  · rw [if_neg hmem] at h
    cases hatom : r.isAtom with
    | true => exact .inl ⟨hmem, rfl⟩
    | false => cases r <;> simp_all [isAtom, isLiteral, isStar]

/-- Parentheses stand around the right side of a concatenation where they are needed. -/
theorem exists_shape_concat {b : Bool} (hl : Shape (.term b) cs l) (hr : r.IsAlphanumeric)
    (hspell : Shape .expression r.spell r) :
    ∃ b', Shape (.term b') (cs ++ if standsBare cs r then r.spell else bracket r.spell) (concat l r) := by
  cases hbare : standsBare cs r with
  | false => exact ⟨false, .nextGroup hl (.group false hspell)⟩
  | true =>
    rw [if_pos rfl]
    cases b with
    | false =>
      obtain hrun | ⟨hstar, hatom⟩ := isRun_of_standsBare hl hbare
      · exact ⟨true, .nextRun hl (shape_spell_of_isRun hr hrun)⟩
      · exact ⟨false, .nextGroup hl (hspell.group_of_isStar hstar hatom)⟩
    | true =>
      obtain ⟨hmem, hatom⟩ | ⟨hstar, hatom⟩ := isAtom_of_standsBare hl hbare
      · exact ⟨true, .firstRun (shape_append_atom (hl.run_of_opening_notMem hmem) hr hatom)⟩
      · exact ⟨false, .nextGroup hl (hspell.group_of_isStar hstar hatom)⟩

/-- The left side of a concatenation or alternation is spelled as a term. -/
theorem exists_shape_left (h : Shape .expression l.spell l) :
    ∃ b, Shape (.term b) (if l.isAlternation then bracket l.spell else l.spell) l := by
  cases hl : l.isAlternation with
  | true => exact ⟨false, .firstGroup (.group false h)⟩
  | false => exact h.exists_term hl

/-- The text of a tree has the shape of an expression, with the tree itself. -/
theorem shape_spell (hr : r.IsAlphanumeric) : Shape .expression r.spell r := by
  induction r with
  | literal s =>
    exact .term (.firstRun (shape_spell_of_isRun hr rfl))
  | concat l r ihl ihr =>
    obtain ⟨b, hl⟩ := exists_shape_left (ihl hr.left)
    obtain ⟨b', h⟩ := exists_shape_concat hl hr.right (ihr hr.right)
    exact .term h
  | alternation l r ihl ihr =>
    obtain ⟨b, hl⟩ := exists_shape_left (ihl hr.left)
    exact .alternation hl (ihr hr.right)
  | star r ih =>
    by_cases hlit : r.isLiteral = true
    · exact .term (.firstRun (shape_spell_of_isRun hr hlit))
    · have h := Shape.group true (ih hr)
      rw [spell, if_neg hlit, bracket, List.append_assoc]
      exact .term (.firstGroup h)

/-- A tree is read back from its text. -/
theorem read_text (hr : r.IsAlphanumeric) : read r.text = .ok r := by
  rw [read, text, String.toList_ofList]
  exact readChars_of_shape (shape_spell hr)

/-- A symbol after the run that follows a group needs parentheses. -/
theorem read_text_after_group :
    let r := concat (concat (star (concat (literal "a") (literal "b"))) (literal "c")) (star (literal "d"))
    r.IsAlphanumeric ∧ r.text = "(ab)*c(d*)" ∧ read r.text = .ok r := by
  intro r
  have hr : r.IsAlphanumeric := by
    intro a ha
    have hmem : a ∈ ["a", "b", "c", "d"] := ha
    simp only [List.mem_cons, List.not_mem_nil, or_false] at hmem
    obtain rfl | rfl | rfl | rfl := hmem
    · exact ⟨'a', by decide, rfl⟩
    · exact ⟨'b', by decide, rfl⟩
    · exact ⟨'c', by decide, rfl⟩
    · exact ⟨'d', by decide, rfl⟩
  exact ⟨hr, by decide, read_text hr⟩

end Regex

end FormalLang
