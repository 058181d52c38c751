import FormalLang.Proofs.Regex.Literals
import FormalLang.Proofs.Regex.RoundTrip

/-!
# A tree's text is its shortest spelling

Every other text that is read as the tree has the shape of an expression with it, so the lengths are compared along the
shape. Comparing terms alone is not enough: a term that ends with a group lets a run stand behind it without
parentheses, and another spelling may have put an operand into parentheses for that. This never pays, because the
parentheses cost as much as they save: where the spelling that the printer chooses ends with a run, any spelling that
ends with a group is at least two characters longer.

* `Regex.leastLength`: the least number of characters of a piece of text that is read as the tree.
* `Regex.leastLength_starIf`, `leastLength_firstGroup`, `leastLength_nextRun`, `leastLength_nextGroup`: what each way to
  make a group or a term costs.
* `Regex.Shape.leastLength_le`: no piece of text is shorter.
* `Regex.text_shortest`: no text that is read as the tree is shorter than the text of the tree.
-/

namespace FormalLang

namespace Regex

variable {cs ds : List Char} {b : Bool} {l r : Regex}

/-! ## The text of a term -/

/-- The text of a tree where a term is needed: an alternation is put into parentheses. -/
def spellTerm (r : Regex) : List Char := if r.isAlternation then bracket r.spell else r.spell

theorem spell_concat (l r : Regex) :
    (concat l r).spell = l.spellTerm ++ if standsBare l.spellTerm r then r.spell else bracket r.spell := rfl

theorem spell_alternation (l r : Regex) : (alternation l r).spell = l.spellTerm ++ '|' :: r.spell := rfl

theorem length_bracket (cs : List Char) : (bracket cs).length = cs.length + 2 := by simp [bracket]

theorem endsInGroup_append_bracket (cs ds : List Char) : endsInGroup (cs ++ bracket ds) = true := by
  rw [bracket, ← List.append_assoc]
  exact endsInGroup_append_closing false

theorem length_spell_le_spellTerm (r : Regex) : r.spell.length ≤ r.spellTerm.length := by
  unfold spellTerm
  split
  · rw [length_bracket]
    omega
  · exact Nat.le_refl _

/-- Is the tree the star of something other than a literal? Its text is a group as it stands. -/
def isStarredGroup (r : Regex) : Bool := r.isStar && !r.isAtom

theorem standsBare_of_isStarredGroup (h : r.isStarredGroup = true) (cs : List Char) : standsBare cs r = true := by
  unfold isStarredGroup at h
  unfold standsBare
  split
  · simp_all
  · split <;> simp_all

theorem endsInGroup_append_spell_of_isStarredGroup (h : r.isStarredGroup = true) (cs : List Char) :
    endsInGroup (cs ++ r.spell) = true := by
  cases r with
  | star r =>
    have hlit : r.isLiteral = false := by simpa [isStarredGroup, isStar, isAtom] using h
    have hspell : (star r).spell = '(' :: r.spell ++ ')' :: starChars true := by
      rw [spell, hlit, if_neg Bool.false_ne_true, bracket, List.append_assoc]
      rfl
    rw [hspell, ← List.append_assoc]
    exact endsInGroup_append_closing true
  | _ => contradiction

/-! ## Least lengths -/

/-- The characters that a term needs besides those of its text, in order to end with a group. -/
def groupEndCost (cs : List Char) : Nat := if endsInGroup cs then 0 else 2

/-- The least number of characters of a piece of text that is read as the tree. -/
def leastLength : Piece → Regex → Nat
  | .expression, r => r.spell.length
  | .term true, r => r.spellTerm.length
  | .term false, r => r.spellTerm.length + groupEndCost r.spellTerm
  | .group, r => if r.isStarredGroup then r.spell.length else r.spell.length + 2
  | .run, r => r.spell.length

theorem groupEndCost_le (cs : List Char) : groupEndCost cs ≤ 2 := by
  unfold groupEndCost
  split <;> omega

theorem groupEndCost_eq_zero (h : endsInGroup cs = true) : groupEndCost cs = 0 := if_pos h

theorem length_spellTerm_le (b : Bool) (r : Regex) : r.spellTerm.length ≤ leastLength (.term b) r := by
  cases b with
  | true => exact Nat.le_refl _
  | false => exact Nat.le_add_right _ _

/-- A tree in parentheses, with a star behind them or without one, is no cheaper than what the printer writes. -/
theorem leastLength_starIf (starred : Bool) (r : Regex) :
    leastLength .group (starIf starred r) ≤ r.spell.length + 2 + (starChars starred).length := by
  cases starred with
  | false =>
    show leastLength .group r ≤ r.spell.length + 2
    rw [leastLength]
    split <;> omega
  | true =>
    have hspell : (star r).spell.length = (if r.isLiteral then r.spell.length else r.spell.length + 2) + 1 := by
      rw [spell, List.length_append]
      split
      · rfl
      · rw [length_bracket]
        rfl
    show leastLength .group (star r) ≤ r.spell.length + 3
    cases hlit : r.isLiteral <;> simp [leastLength, isStarredGroup, isStar, isAtom, hlit, hspell]

/-- A group alone is no cheaper than the tree's own text with a group at its end. -/
theorem leastLength_firstGroup (r : Regex) : leastLength (.term false) r ≤ leastLength .group r := by
  rw [leastLength, leastLength, spellTerm]
  cases halt : r.isAlternation with
  | true =>
    have hstar : r.isStarredGroup = false := by
      cases r <;> simp_all [isAlternation, isStarredGroup, isStar]
    have hend := groupEndCost_eq_zero (endsInGroup_append_bracket [] r.spell)
    rw [List.nil_append] at hend
    simp [hstar, hend, length_bracket]
  | false =>
    cases hstar : r.isStarredGroup with
    | true =>
      have hend := groupEndCost_eq_zero (endsInGroup_append_spell_of_isStarredGroup hstar [])
      rw [List.nil_append] at hend
      simp [hend]
    | false => simpa using groupEndCost_le r.spell

/-- A run behind a group is no cheaper than what the printer writes, which puts the run into parentheses only where
there is no group in front of it. -/
theorem leastLength_nextRun (hr : r.isRun = true) :
    leastLength (.term true) (concat l r) ≤ leastLength (.term false) l + leastLength .run r := by
  show (concat l r).spell.length ≤ l.spellTerm.length + groupEndCost l.spellTerm + r.spell.length
  rw [spell_concat, List.length_append, groupEndCost]
  cases hend : endsInGroup l.spellTerm with
  | true =>
    have hbare : standsBare l.spellTerm r = true := by simp [standsBare, hend, hr]
    simp [hbare]
  | false =>
    rw [if_neg Bool.false_ne_true]
    split
    · omega
    · rw [length_bracket]
      omega

/-- A group behind a term is no cheaper than what the printer writes, and a group at its end. -/
theorem leastLength_nextGroup (b : Bool) :
    leastLength (.term false) (concat l r) ≤ leastLength (.term b) l + leastLength .group r := by
  refine Nat.le_trans ?_ (Nat.add_le_add_right (length_spellTerm_le b l) _)
  show (concat l r).spell.length + groupEndCost (concat l r).spell ≤ _
  rw [spell_concat, List.length_append]
  cases hstar : r.isStarredGroup with
  | true =>
    rw [if_pos (standsBare_of_isStarredGroup hstar _),
      groupEndCost_eq_zero (endsInGroup_append_spell_of_isStarredGroup hstar _), leastLength, if_pos hstar]
    exact Nat.le_refl _
  | false =>
    have hgroup : leastLength .group r = r.spell.length + 2 := by simp [leastLength, hstar]
    rw [hgroup]
    split
    · have := groupEndCost_le (l.spellTerm ++ r.spell)
      omega
    · rw [length_bracket, groupEndCost_eq_zero (endsInGroup_append_bracket _ _)]
      omega

/-! ## Pieces of text -/

namespace Shape

/-- A run is read as a run of literals, which has no other spelling as a run. -/
theorem isRun_and_eq_spell (h : Shape .run cs r) : r.isRun = true ∧ cs = r.spell := by
  generalize hp : Piece.run = p at h
  induction h with
  | @symbol c starred _ => exact ⟨isRun_of_isAtom (isAtom_symbol starred c), (spell_symbol starred c).symm⟩
  | @moreSymbols cs r c starred h _ ih =>
    obtain ⟨hr, rfl⟩ := ih hp
    have hatom := isAtom_symbol starred c
    have hopen := Shape.opening_notMem_of_run (hp ▸ h)
    exact ⟨isRun_concat hr hatom, by rw [spell_concat_of_isAtom hr hopen hatom, spell_symbol]⟩
  | _ => cases hp

/-- No piece of text that is read as the tree is shorter than the tree's own text allows. -/
theorem leastLength_le {p : Piece} (h : Shape p cs r) : leastLength p r ≤ cs.length := by
  induction h with
  | symbol starred hc => exact Nat.le_of_eq (congrArg List.length (isRun_and_eq_spell (.symbol starred hc)).2.symm)
  | moreSymbols starred h hc _ =>
    exact Nat.le_of_eq (congrArg List.length (isRun_and_eq_spell (.moreSymbols starred h hc)).2.symm)
  | @group cs r starred _ ih =>
    have hinside : r.spell.length ≤ cs.length := ih
    have hgroup := leastLength_starIf starred r
    rw [List.length_append, List.length_cons, List.length_cons]
    omega
  | @firstRun cs r h ih =>
    have hterm : r.spellTerm = r.spell := by simp [spellTerm, isAlternation_of_isRun h.isRun_and_eq_spell.1]
    rw [leastLength, hterm]
    exact ih
  | firstGroup _ ih => exact Nat.le_trans (leastLength_firstGroup _) ih
  | nextRun _ hr ihl ihr =>
    rw [List.length_append]
    exact Nat.le_trans (leastLength_nextRun hr.isRun_and_eq_spell.1) (Nat.add_le_add ihl ihr)
  | @nextGroup _ _ _ _ b _ _ ihl ihr =>
    rw [List.length_append]
    exact Nat.le_trans (leastLength_nextGroup b) (Nat.add_le_add ihl ihr)
  | @term cs r b _ ih => exact Nat.le_trans (length_spell_le_spellTerm r) (Nat.le_trans (length_spellTerm_le b r) ih)
  | @alternation cs ds l r b _ _ ihl ihr =>
    have hl := Nat.le_trans (length_spellTerm_le b l) ihl
    have hr : r.spell.length ≤ ds.length := ihr
    rw [leastLength, spell_alternation, List.length_append, List.length_append, List.length_cons, List.length_cons]
    omega

end Shape

/-! ## Texts -/

theorem length_text (r : Regex) : r.text.length = r.spell.length := by rw [text, String.length_ofList]

/-- No text that is read as a tree is shorter than the text of the tree. -/
theorem length_text_le {s : String} (h : read s = .ok r) : r.text.length ≤ s.length := by
  rw [length_text, ← String.length_toList]
  exact (read_iff_shape.mp h).leastLength_le

/-- The text of a tree is read as the tree, and no shorter text is. So no opening parenthesis can be left out of it with
a closing one behind it, the one that closes its group in particular: what is left would not be read as the tree. -/
theorem text_shortest (hr : r.IsAlphanumeric) :
    read r.text = .ok r ∧ (∀ s, read s = .ok r → r.text.length ≤ s.length) ∧
      ∀ cs ds es, r.text.toList = cs ++ '(' :: ds ++ ')' :: es → read (String.ofList (cs ++ ds ++ es)) ≠ .ok r := by
  have hread : read r.text = .ok r := by
    rw [read, text, String.toList_ofList]
    exact readChars_of_shape (shape_spell hr)
  refine ⟨hread, fun s => length_text_le, fun cs ds es htext hleft => ?_⟩
  have hle := length_text_le hleft
  rw [← String.length_toList, htext, String.length_ofList] at hle
  simp only [List.length_append, List.length_cons] at hle
  omega

/-- The parentheses may stand around another operand, which frees the last one from them, and then they are needed
there. -/
theorem text_shortest_after_group :
    let r := concat (concat (star (concat (literal "a") (literal "b"))) (literal "c")) (concat (literal "d") (literal "e"))
    r.IsAlphanumeric ∧ r.text = "(ab)*c(de)" ∧ read "(ab)*(c)de" = .ok r ∧ r.text.length ≤ "(ab)*(c)de".length ∧
      read "(ab)*cde" ≠ .ok r := by
  intro r
  have hr : r.IsAlphanumeric := by
    intro a ha
    have hmem : a ∈ ["a", "b", "c", "d", "e"] := ha
    simp only [List.mem_cons, List.not_mem_nil, or_false] at hmem
    obtain rfl | rfl | rfl | rfl | rfl := hmem
    · exact ⟨'a', by decide, rfl⟩
    · exact ⟨'b', by decide, rfl⟩
    · exact ⟨'c', by decide, rfl⟩
    · exact ⟨'d', by decide, rfl⟩
    · exact ⟨'e', by decide, rfl⟩
  have htext : r.text = "(ab)*c(de)" := by decide
  have hother : read "(ab)*(c)de" = .ok r := by decide
  obtain ⟨-, hle, hneeded⟩ := text_shortest hr
  exact ⟨hr, htext, hother, hle _ hother, hneeded "(ab)*c".toList "de".toList [] (by rw [htext]; rfl)⟩

end Regex

end FormalLang
