import FormalLang.Proofs.Regex.Scopes
import FormalLang.Regex.Language

/-!
# The grammar of regular expressions and the trees read

A derivation of the grammar makes a term of its factors from the right, while a tree that is read is folded from the left,
with each run of symbols as one operand. Both describe the same words. So a text is read exactly if it can be derived,
and the tree that is read describes the words of every derivation.

* `Regex.Equivalent.concat`, `Equivalent.alternation`, `Equivalent.star`: the words depend on the words of the parts.
* `Regex.exists_shape_cons_symbol`, `exists_shape_append_group`: a symbol or a group in front of a term.
* `Regex.hasShape_of_derives`, `exists_derives_of_shape`: from derivations to shapes, and back.
* `Regex.read_grammar`: which texts are read, and as what.
-/

namespace FormalLang

namespace Regex

variable {cs ds : List Char} {c : Char} {b : Bool} {l l' r r' t : Regex}

/-! ## Expressions with the same words -/

namespace Equivalent

theorem refl (r : Regex) : Equivalent r r := fun _ => Iff.rfl

theorem symm (h : Equivalent l r) : Equivalent r l := fun w => (h w).symm

theorem trans (h : Equivalent l r) (k : Equivalent r t) : Equivalent l t := fun w => (h w).trans (k w)

theorem concat (hl : Equivalent l l') (hr : Equivalent r r') : Equivalent (.concat l r) (.concat l' r') := by
  intro w
  rw [matches_concat_iff, matches_concat_iff]
  simp only [hl _, hr _]

theorem alternation (hl : Equivalent l l') (hr : Equivalent r r') :
    Equivalent (.alternation l r) (.alternation l' r') := by
  intro w
  rw [matches_alternation_iff, matches_alternation_iff, hl w, hr w]

theorem star (h : Equivalent r r') : Equivalent (.star r) (.star r') := by
  intro w
  rw [matches_star_iff, matches_star_iff]
  simp only [h _]

theorem starIf (starred : Bool) (h : Equivalent r r') : Equivalent (starIf starred r) (Regex.starIf starred r') := by
  cases starred with
  | true => exact h.star
  | false => exact h

theorem concat_assoc (l r t : Regex) : Equivalent (.concat (.concat l r) t) (.concat l (.concat r t)) := by
  intro w
  simp only [matches_concat_iff]
  constructor
  · rintro ⟨_, w, rfl, ⟨u, v, rfl, hu, hv⟩, hw⟩
    exact ⟨u, v ++ w, List.append_assoc u v w, hu, v, w, rfl, hv, hw⟩
  · rintro ⟨u, _, rfl, hu, v, w, rfl, hv, hw⟩
    exact ⟨u ++ v, w, (List.append_assoc u v w).symm, ⟨u, v, rfl, hu, hv⟩, hw⟩

end Equivalent

/-! ## From derivations to shapes -/

/-- The tree of a symbol, starred or not. -/
def symbolTree (c : Char) (starred : Bool) : Regex := starIf starred (literal (String.singleton c))

/-- A symbol in front of a run joins the run. -/
theorem exists_shape_cons_run (starred : Bool) (hc : isSymbolChar c = true) (h : Shape .run cs r) :
    ∃ t, Shape .run (c :: starChars starred ++ cs) t ∧ Equivalent t (concat (symbolTree c starred) r) := by
  generalize hp : Piece.run = p at h
  induction h with
  | symbol starred' hd => exact ⟨_, .moreSymbols starred' (.symbol starred hc) hd, .refl _⟩
  | @moreSymbols cs r d starred' _ hd ih =>
    obtain ⟨t, ht, hwords⟩ := ih hp
    refine ⟨concat t (symbolTree d starred'), ?_, (hwords.concat (.refl _)).trans (.concat_assoc _ _ _)⟩
    rw [← List.append_assoc]
    exact .moreSymbols starred' ht hd
  | _ => cases hp

/-- What can stand in front of a run and of a group can stand in front of a term. -/
theorem exists_shape_append {cs : List Char} {l : Regex}
    (hrun : ∀ {ds r}, Shape .run ds r → ∃ t, Shape (.term true) (cs ++ ds) t ∧ Equivalent t (concat l r))
    (hgroup : ∀ {ds r}, Shape .group ds r → ∃ t, Shape (.term false) (cs ++ ds) t ∧ Equivalent t (concat l r))
    (h : Shape (.term b) ds r) : ∃ t, Shape (.term b) (cs ++ ds) t ∧ Equivalent t (concat l r) := by
  generalize hp : Piece.term b = p at h
  induction h generalizing b with
  | firstRun h =>
    cases hp
    exact hrun h
  | firstGroup h =>
    cases hp
    exact hgroup h
  | nextRun _ hr ih =>
    cases hp
    obtain ⟨t, ht, hwords⟩ := ih rfl
    refine ⟨_, ?_, (hwords.concat (.refl _)).trans (.concat_assoc _ _ _)⟩
    rw [← List.append_assoc]
    exact .nextRun ht hr
  | nextGroup _ hr ih =>
    cases hp
    obtain ⟨t, ht, hwords⟩ := ih rfl
    refine ⟨_, ?_, (hwords.concat (.refl _)).trans (.concat_assoc _ _ _)⟩
    rw [← List.append_assoc]
    exact .nextGroup ht hr
  | _ => cases hp

/-- A symbol in front of a term joins the run at its beginning, if there is one. -/
theorem exists_shape_cons_symbol (starred : Bool) (hc : isSymbolChar c = true) (h : Shape (.term b) cs r) :
    ∃ t, Shape (.term b) (c :: starChars starred ++ cs) t ∧ Equivalent t (concat (symbolTree c starred) r) := by
  refine exists_shape_append (fun hr => ?_) (fun hr => ?_) h
  · obtain ⟨t, ht, hwords⟩ := exists_shape_cons_run starred hc hr
    exact ⟨t, .firstRun ht, hwords⟩
  · exact ⟨_, .nextGroup (.firstRun (.symbol starred hc)) hr, .refl _⟩

/-- A group in front of a term is its first operand. -/
theorem exists_shape_append_group (hl : Shape .group cs l) (h : Shape (.term b) ds r) :
    ∃ t, Shape (.term b) (cs ++ ds) t ∧ Equivalent t (concat l r) :=
  exists_shape_append (fun hr => ⟨_, .nextRun (.firstGroup hl) hr, .refl _⟩)
    (fun hr => ⟨_, .nextGroup (.firstGroup hl) hr, .refl _⟩) h

/-- The text of a factor is a symbol or a group, starred or not, with a tree of the same words. -/
def HasFactorShape (starred : Bool) (cs : List Char) (r : Regex) : Prop :=
  (∃ c, isSymbolChar c = true ∧ cs = c :: starChars starred ∧ r = symbolTree c starred) ∨
    ∃ ds t, cs = '(' :: ds ++ ')' :: starChars starred ∧ Shape .expression ds t ∧ Equivalent (starIf starred t) r

/-- What a derivation says about shapes. -/
def HasShape : Category → List Char → Regex → Prop
  | .expression, cs, r => ∃ t, Shape .expression cs t ∧ Equivalent t r
  | .term, cs, r => ∃ b t, Shape (.term b) cs t ∧ Equivalent t r
  | .factor, cs, r => ∃ starred, HasFactorShape starred cs r
  | .atom, cs, r => HasFactorShape false cs r

theorem HasFactorShape.star (h : HasFactorShape false cs r) : HasFactorShape true (cs ++ ['*']) (.star r) := by
  rcases h with ⟨c, hc, rfl, rfl⟩ | ⟨ds, t, rfl, ht, hwords⟩
  · exact .inl ⟨c, hc, rfl, rfl⟩
  · refine .inr ⟨ds, t, ?_, ht, hwords.star⟩
    rw [List.append_assoc]
    rfl

/-- A factor alone is a term. -/
theorem HasFactorShape.hasShape {starred : Bool} (h : HasFactorShape starred cs r) : HasShape .term cs r := by
  rcases h with ⟨c, hc, rfl, rfl⟩ | ⟨ds, t, rfl, ht, hwords⟩
  · exact ⟨true, _, .firstRun (.symbol starred hc), .refl _⟩
  · exact ⟨false, _, .firstGroup (.group starred ht), hwords⟩

/-- A factor and a term after it are a term. -/
theorem HasFactorShape.concat {starred : Bool} (hl : HasFactorShape starred cs l) (hr : HasShape .term ds r) :
    HasShape .term (cs ++ ds) (.concat l r) := by
  obtain ⟨b, u, hu, hwords⟩ := hr
  rcases hl with ⟨c, hc, rfl, rfl⟩ | ⟨es, t, rfl, ht, hl⟩
  · obtain ⟨v, hv, hvu⟩ := exists_shape_cons_symbol starred hc hu
    exact ⟨b, v, hv, hvu.trans (.concat (.refl _) hwords)⟩
  · obtain ⟨v, hv, hvu⟩ := exists_shape_append_group (.group starred ht) hu
    exact ⟨b, v, hv, hvu.trans (.concat hl hwords)⟩

/-- A text that can be derived has a shape, with a tree of the same words. -/
theorem hasShape_of_derives {k : Category} (h : Derives k cs r) : HasShape k cs r := by
  induction h with
  | term _ ih =>
    obtain ⟨b, t, ht, hwords⟩ := ih
    exact ⟨t, .term ht, hwords⟩
  | alternation _ _ ihl ihr =>
    obtain ⟨b, t, ht, hl⟩ := ihl
    obtain ⟨u, hu, hr⟩ := ihr
    exact ⟨_, .alternation ht hu, hl.alternation hr⟩
  | factor _ ih =>
    obtain ⟨starred, h⟩ := ih
    exact h.hasShape
  | concat _ _ ihl ihr =>
    obtain ⟨starred, hl⟩ := ihl
    exact hl.concat ihr
  | atom _ ih => exact ⟨false, ih⟩
  | star _ ih => exact ⟨true, ih.star⟩
  | symbol hc => exact .inl ⟨_, hc, rfl, rfl⟩
  | group _ ih =>
    obtain ⟨t, ht, hwords⟩ := ih
    exact .inr ⟨_, t, rfl, ht, hwords⟩

/-! ## From shapes to derivations -/

/-- Terms one after the other are a term. -/
theorem exists_derives_append (hl : Derives .term cs l) (hr : Derives .term ds r) :
    ∃ t, Derives .term (cs ++ ds) t ∧ Equivalent (concat l r) t := by
  generalize hk : Category.term = k at hl
  induction hl with
  | factor h => exact ⟨_, .concat h hr, .refl _⟩
  | concat h _ _ ih =>
    obtain ⟨t, ht, hwords⟩ := ih hk
    rw [List.append_assoc]
    exact ⟨_, .concat h ht, (Equivalent.concat_assoc _ _ _).trans (.concat (.refl _) hwords)⟩
  | _ => cases hk

theorem derives_symbol (starred : Bool) (hc : isSymbolChar c = true) :
    Derives .factor (c :: starChars starred) (symbolTree c starred) := by
  cases starred with
  | true => exact .star (.symbol hc)
  | false => exact .atom (.symbol hc)

theorem derives_group (starred : Bool) (h : Derives .expression cs r) :
    Derives .factor ('(' :: cs ++ ')' :: starChars starred) (starIf starred r) := by
  cases starred with
  | true =>
    have := Derives.star (.group h)
    rwa [List.append_assoc] at this
  | false => exact .atom (.group h)

/-- What a piece of text is in the grammar. -/
def Piece.category : Piece → Category
  | .expression => .expression
  | .term _ => .term
  | .group => .factor
  | .run => .term

/-- A text that has a shape can be derived, with a tree of the same words. -/
theorem exists_derives_of_shape {p : Piece} (h : Shape p cs r) : ∃ t, Derives p.category cs t ∧ Equivalent r t := by
  induction h with
  | symbol starred hc => exact ⟨_, .factor (derives_symbol starred hc), .refl _⟩
  | moreSymbols starred _ hc ih =>
    obtain ⟨t, ht, hwords⟩ := ih
    obtain ⟨u, hu, htu⟩ := exists_derives_append ht (.factor (derives_symbol starred hc))
    exact ⟨u, hu, (hwords.concat (.refl _)).trans htu⟩
  | group starred _ ih =>
    obtain ⟨t, ht, hwords⟩ := ih
    exact ⟨_, derives_group starred ht, hwords.starIf starred⟩
  | firstRun _ ih => exact ih
  | firstGroup _ ih =>
    obtain ⟨t, ht, hwords⟩ := ih
    exact ⟨t, .factor ht, hwords⟩
  | nextRun _ _ ihl ihr =>
    obtain ⟨t, ht, hl⟩ := ihl
    obtain ⟨u, hu, hr⟩ := ihr
    obtain ⟨v, hv, hwords⟩ := exists_derives_append ht hu
    exact ⟨v, hv, (hl.concat hr).trans hwords⟩
  | nextGroup _ _ ihl ihr =>
    obtain ⟨t, ht, hl⟩ := ihl
    obtain ⟨u, hu, hr⟩ := ihr
    obtain ⟨v, hv, hwords⟩ := exists_derives_append ht (.factor hu)
    exact ⟨v, hv, (hl.concat hr).trans hwords⟩
  | term _ ih =>
    obtain ⟨t, ht, hwords⟩ := ih
    exact ⟨t, .term ht, hwords⟩
  | alternation _ _ ihl ihr =>
    obtain ⟨t, ht, hl⟩ := ihl
    obtain ⟨u, hu, hr⟩ := ihr
    exact ⟨_, .alternation ht hu, hl.alternation hr⟩

/-! ## Reading -/

theorem read_iff_shape {text : String} : read text = .ok r ↔ Shape .expression text.toList r := readChars_iff_shape

/-- The tree that is read describes the words of every derivation of the text. -/
theorem exists_read_of_derives {text : String} (h : Derives .expression text.toList r) :
    ∃ t, read text = .ok t ∧ Equivalent t r := by
  obtain ⟨t, ht, hwords⟩ := hasShape_of_derives h
  exact ⟨t, read_iff_shape.mpr ht, hwords⟩

/-- A text is read exactly if the grammar derives it, and is a fault otherwise. The tree that is read is the one that the
shape of the text gives, and it describes the words of the derivation. -/
theorem read_grammar (text : String) :
    ((∃ t, read text = .ok t) ↔ ∃ r, Derives .expression text.toList r) ∧
      ((∃ e, read text = .error e) ↔ ¬∃ r, Derives .expression text.toList r) ∧
      (∀ t, read text = .ok t ↔ Shape .expression text.toList t) ∧
      ∀ r, Derives .expression text.toList r → ∃ t, read text = .ok t ∧ Equivalent t r := by
  have hiff : (∃ t, read text = .ok t) ↔ ∃ r, Derives .expression text.toList r := by
    constructor
    · rintro ⟨t, ht⟩
      obtain ⟨r, hr, -⟩ := exists_derives_of_shape (read_iff_shape.mp ht)
      exact ⟨r, hr⟩
    · rintro ⟨r, hr⟩
      obtain ⟨t, ht, -⟩ := exists_read_of_derives hr
      exact ⟨t, ht⟩
  refine ⟨hiff, ?_, fun t => read_iff_shape, fun r => exists_read_of_derives⟩
  rw [← hiff]
  cases read text <;> simp

/-- Two groups in a row, the second one with a star, after and before runs, in the second alternative. -/
theorem read_grammar_groups :
    ∃ t r, read "c|a*b(c|d)(e)*fg" = .ok t ∧ Derives .expression "c|a*b(c|d)(e)*fg".toList r ∧ Equivalent t r := by
  obtain ⟨hiff, -, -, hwords⟩ := read_grammar "c|a*b(c|d)(e)*fg"
  obtain ⟨r, hr⟩ := hiff.mp ⟨_, rfl⟩
  obtain ⟨t, ht, htr⟩ := hwords r hr
  exact ⟨t, r, ht, hr, htr⟩

end Regex

end FormalLang
