import FormalLang.Regex.Syntax

/-!
# Reading a text by its shape

The reader goes over a piece of a text without regard to what follows, as long as the piece ends there: a run goes on
with any further symbol or star, a group with a star. A run or a group is pushed onto the open scope, a term fills a
scope that has no operand yet, and an expression also closes the bars before it.

* `Regex.runAtoms_append`, `Shape.readSymbols_eq`: a run is folded symbol by symbol.
* `Lexeme.ofChars_run_append`: a run is one lexeme.
* `Regex.Shape.goesOver`: what the reader does at each piece.
* `Regex.readChars_of_shape`: a text that has the shape of an expression is read as its tree.
-/

namespace FormalLang

variable {cs rest : List Char} {c : Char} {r : Regex}

/-! ## Where a piece ends -/

/-- The text does not go on with a run: it ends, or begins with a parenthesis or a bar. -/
def EndsRun (cs : List Char) : Prop := ∀ c ∈ cs.head?, c = '(' ∨ c = ')' ∨ c = '|'

/-- The text ends a term before it, which has a run or a group at its end. -/
def EndsTerm : Bool → List Char → Prop
  | true, cs => EndsRun cs
  | false, cs => cs.head? ≠ some '*'

/-- The text ends a scope before it. -/
def EndsScope (cs : List Char) : Prop := cs = [] ∨ ∃ ds, cs = ')' :: ds

theorem EndsRun.endsTerm (h : EndsRun cs) (b : Bool) : EndsTerm b cs := by
  cases b with
  | true => exact h
  | false =>
    intro hstar
    simpa using h '*' hstar

theorem endsTerm_opening (b : Bool) : EndsTerm b ('(' :: cs) := by
  refine EndsRun.endsTerm ?_ b
  rintro _ ⟨⟩
  exact .inl rfl

theorem endsTerm_bar (b : Bool) : EndsTerm b ('|' :: cs) := by
  refine EndsRun.endsTerm ?_ b
  rintro _ ⟨⟩
  exact .inr (.inr rfl)

theorem EndsScope.endsTerm (h : EndsScope cs) (b : Bool) : EndsTerm b cs := by
  refine EndsRun.endsTerm ?_ b
  obtain rfl | ⟨ds, rfl⟩ := h
  · rintro _ ⟨⟩
  · rintro _ ⟨⟩
    exact .inr (.inl rfl)

/-! ## Lexemes -/

namespace Lexeme

theorem ofChars_cons_of_isDelimiter_eq_false (hc : isDelimiter c = false) :
    ofChars (c :: cs) = extendRun c (ofChars cs) := by
  rw [ofChars]
  · rintro rfl
    exact absurd hc (by decide)
  · rintro ds rfl
    exact absurd hc (by decide)
  · rintro rfl
    exact absurd hc (by decide)
  · rintro rfl
    exact absurd hc (by decide)

/-- A closing parenthesis takes the star after it. -/
theorem ofChars_closing_append (b : Bool) (h : rest.head? ≠ some '*') :
    ofChars (')' :: Regex.starChars b ++ rest) = closing b :: ofChars rest := by
  cases b with
  | true => rfl
  | false =>
    show ofChars (')' :: rest) = _
    rw [ofChars]
    rintro cs rfl
    exact h rfl

theorem exists_ofChars_closing (cs : List Char) : ∃ b ls, ofChars (')' :: cs) = closing b :: ls := by
  by_cases h : cs.head? = some '*'
  · obtain ⟨ds, rfl⟩ := List.head?_eq_some_iff.mp h
    exact ⟨true, _, rfl⟩
  · exact ⟨false, _, ofChars_closing_append false h⟩

theorem extendRun_of_endsRun (h : EndsRun cs) : extendRun c (ofChars cs) = run [c] :: ofChars cs := by
  cases cs with
  | nil => rfl
  | cons d ds =>
    obtain rfl | rfl | rfl := h d rfl
    · rfl
    · obtain ⟨b, ls, hls⟩ := exists_ofChars_closing ds
      rw [hls]
      rfl
    · rfl

/-- A run is one lexeme where it ends. -/
theorem ofChars_run_append (hne : cs ≠ []) (h : ∀ c ∈ cs, isDelimiter c = false) (hrest : EndsRun rest) :
    ofChars (cs ++ rest) = run cs :: ofChars rest := by
  induction cs with
  | nil => contradiction
  | cons c cs ih =>
    have ⟨hc, hcs⟩ := List.forall_mem_cons.mp h
    rw [List.cons_append, ofChars_cons_of_isDelimiter_eq_false hc]
    by_cases hnil : cs = []
    · subst hnil
      exact extendRun_of_endsRun hrest
    · rw [ih hnil hcs]
      rfl

end Lexeme

namespace Regex

/-! ## Runs -/

theorem isDelimiter_eq_false_of_isRunChar (h : isRunChar c = true) : Lexeme.isDelimiter c = false := by
  rw [Lexeme.isDelimiter, Bool.eq_false_iff]
  intro hc
  simp only [Bool.or_eq_true, decide_eq_true_eq] at hc
  obtain (rfl | rfl) | rfl := hc <;> contradiction

theorem isRunChar_of_isSymbolChar (h : isSymbolChar c = true) : isRunChar c = true := by
  rw [isRunChar, h]
  rfl

theorem ne_star_of_isSymbolChar (h : isSymbolChar c = true) : c ≠ '*' := by
  rintro rfl
  exact absurd h (by decide)

theorem isRunChar_of_mem_starChars {starred : Bool} : ∀ c ∈ starChars starred, isRunChar c = true := by
  intro c hc
  cases starred with
  | true =>
    rw [List.mem_singleton.mp hc]
    rfl
  | false => contradiction

/-- The first symbol of a run is its first literal. -/
theorem runAtoms_cons (cs : List Char) (starred : Bool) (hc : c ≠ '*') (h : starred = false → cs.head? ≠ some '*') :
    runAtoms (c :: starChars starred ++ cs) =
      (runAtoms cs).map (starIf starred (literal (String.singleton c)) :: ·) := by
  cases starred with
  | true =>
    show runAtoms (c :: '*' :: cs) = _
    rw [runAtoms]
    · rfl
    · exact hc
  | false =>
    show runAtoms (c :: cs) = _
    rw [runAtoms]
    · rfl
    · exact hc
    · rintro ds rfl
      exact h rfl rfl

/-- A further symbol of a run is a further literal. -/
theorem runAtoms_append (cs : List Char) (starred : Bool) (hc : c ≠ '*') :
    runAtoms (cs ++ c :: starChars starred) =
      (runAtoms cs).map (· ++ [starIf starred (literal (String.singleton c))]) := by
  fun_induction runAtoms cs with
  | case1 =>
    have := runAtoms_cons [] starred hc fun _ => by simp
    rwa [List.append_nil] at this
  | case2 => rfl
  | case3 d cs hd ih =>
    refine (runAtoms_cons (cs ++ c :: starChars starred) true hd nofun).trans ?_
    rw [ih]
    cases runAtoms cs <;> rfl
  | case4 d cs hd hstar ih =>
    refine (runAtoms_cons (cs ++ c :: starChars starred) false hd fun _ => ?_).trans ?_
    · cases cs with
      | nil => simpa using hc
      | cons e es =>
        intro he
        obtain rfl := Option.some.inj he
        exact hstar es rfl
    · rw [ih]
      cases runAtoms cs <;> rfl

theorem concatAll_append (rs : List Regex) (r : Regex) : concatAll (rs ++ [r]) = some (append (concatAll rs) r) :=
  List.foldl_append

/-- A run has the tree of its literals, of which there must be one. -/
theorem readRun_eq_ok_iff : readRun cs = .ok r ↔ ∃ rs, runAtoms cs = .ok rs ∧ concatAll rs = some r := by
  unfold readRun
  split
  · simp [runAtoms, concatAll]
  · simp [runAtoms]
  · cases runAtoms cs with
    | error e => simp [bind, Except.bind]
    | ok rs =>
      cases hrs : concatAll rs <;>
        simp [bind, Except.bind, hrs, throw, throwThe, MonadExceptOf.throw, pure, Except.pure]

namespace Shape

/-- A run begins with a symbol and has only symbols and stars. -/
theorem run_chars (h : Shape .run cs r) :
    (∃ c ds, cs = c :: ds ∧ isSymbolChar c = true) ∧ ∀ c ∈ cs, isRunChar c = true := by
  generalize hp : Piece.run = p at h
  induction h with
  | @symbol c starred hc =>
    refine ⟨⟨c, _, rfl, hc⟩, ?_⟩
    rw [List.forall_mem_cons]
    exact ⟨isRunChar_of_isSymbolChar hc, isRunChar_of_mem_starChars⟩
  | @moreSymbols cs r c starred _ hc ih =>
    obtain ⟨⟨d, ds, rfl, hd⟩, hcs⟩ := ih hp
    refine ⟨⟨d, _, rfl, hd⟩, ?_⟩
    refine List.forall_mem_append.mpr ⟨hcs, List.forall_mem_cons.mpr ?_⟩
    exact ⟨isRunChar_of_isSymbolChar hc, isRunChar_of_mem_starChars⟩
  | _ => cases hp

/-- The literals of a run are concatenated to its tree. -/
theorem runAtoms_eq (h : Shape .run cs r) : ∃ rs, runAtoms cs = .ok rs ∧ concatAll rs = some r := by
  generalize hp : Piece.run = p at h
  induction h with
  | @symbol c starred hc =>
    refine ⟨[_], runAtoms_append [] starred (ne_star_of_isSymbolChar hc), rfl⟩
  | @moreSymbols cs r c starred _ hc ih =>
    obtain ⟨rs, hrs, hr⟩ := ih hp
    refine ⟨rs ++ [starIf starred (literal (String.singleton c))], ?_, ?_⟩
    · rw [runAtoms_append _ starred (ne_star_of_isSymbolChar hc), hrs]
      rfl
    · rw [concatAll_append, hr]
      rfl
  | _ => cases hp

theorem readSymbols_eq (h : Shape .run cs r) : readSymbols cs = .ok r := by
  obtain ⟨rs, hrs, hr⟩ := h.runAtoms_eq
  have hfind : cs.find? (!isRunChar ·) = none := by
    rw [List.find?_eq_none]
    intro d hd
    simp [h.run_chars.2 d hd]
  rw [readSymbols, hfind]
  exact readRun_eq_ok_iff.mpr ⟨rs, hrs, hr⟩

/-- A group begins with an opening parenthesis. -/
theorem exists_of_group (h : Shape .group cs r) : ∃ ds, cs = '(' :: ds := by
  cases h with
  | group starred h => exact ⟨_, rfl⟩

end Shape

/-! ## Scopes -/

variable {outer : List Scope} {alts : List Regex}

/-- At its end, a scope may be taken for its closed expression. -/
theorem readScopes_close (h : EndsScope rest) :
    readScopes (Lexeme.ofChars rest) outer ⟨alts, some r⟩ =
      readScopes (Lexeme.ofChars rest) outer ⟨[], some (Scope.close ⟨alts, some r⟩ r)⟩ := by
  obtain rfl | ⟨ds, rfl⟩ := h
  · cases outer <;> rfl
  · obtain ⟨b, ls, hls⟩ := Lexeme.exists_ofChars_closing ds
    rw [hls]
    cases outer <;> rfl

/-- What the reader does at a piece of a text that ends where a text `rest` begins. -/
def GoesOver : Piece → List Char → Regex → Prop
  | .run, cs, r => ∀ rest outer s, EndsRun rest →
    readScopes (Lexeme.ofChars (cs ++ rest)) outer s = readScopes (Lexeme.ofChars rest) outer (s.push r)
  | .group, cs, r => ∀ rest outer s, EndsTerm false rest →
    readScopes (Lexeme.ofChars (cs ++ rest)) outer s = readScopes (Lexeme.ofChars rest) outer (s.push r)
  | .term b, cs, r => ∀ rest outer alts, EndsTerm b rest →
    readScopes (Lexeme.ofChars (cs ++ rest)) outer ⟨alts, none⟩ =
      readScopes (Lexeme.ofChars rest) outer ⟨alts, some r⟩
  | .expression, cs, r => ∀ rest outer alts, EndsScope rest →
    readScopes (Lexeme.ofChars (cs ++ rest)) outer ⟨alts, none⟩ =
      readScopes (Lexeme.ofChars rest) outer ⟨[], some (Scope.close ⟨alts, none⟩ r)⟩

theorem goesOver_run (h : Shape .run cs r) : GoesOver .run cs r := by
  intro rest outer s hrest
  obtain ⟨⟨c, ds, rfl, -⟩, hrun⟩ := h.run_chars
  have hplain : ∀ e ∈ c :: ds, Lexeme.isDelimiter e = false := fun e he => isDelimiter_eq_false_of_isRunChar (hrun e he)
  rw [Lexeme.ofChars_run_append (List.cons_ne_nil c ds) hplain hrest, readScopes, h.readSymbols_eq]

theorem goesOver_group (starred : Bool) (h : GoesOver .expression cs r) :
    GoesOver .group ('(' :: cs ++ ')' :: starChars starred) (starIf starred r) := by
  intro rest outer s hrest
  calc readScopes (Lexeme.ofChars ('(' :: cs ++ ')' :: starChars starred ++ rest)) outer s
    _ = readScopes (Lexeme.ofChars (cs ++ (')' :: starChars starred ++ rest))) (s :: outer) {} := by
      rw [List.append_assoc]
      rfl
    _ = readScopes (Lexeme.ofChars (')' :: starChars starred ++ rest)) (s :: outer) ⟨[], some r⟩ :=
      h _ _ [] (.inr ⟨_, rfl⟩)
    _ = readScopes (.closing starred :: Lexeme.ofChars rest) (s :: outer) ⟨[], some r⟩ := by
      rw [Lexeme.ofChars_closing_append starred hrest]

/-- The reader goes over every piece. -/
theorem Shape.goesOver {p : Piece} (h : Shape p cs r) : GoesOver p cs r := by
  induction h with
  | symbol starred hc => exact goesOver_run (.symbol starred hc)
  | moreSymbols starred h hc => exact goesOver_run (.moreSymbols starred h hc)
  | group starred _ ih => exact goesOver_group starred ih
  | firstRun _ ih => exact fun rest outer alts => ih rest outer ⟨alts, none⟩
  | firstGroup _ ih => exact fun rest outer alts => ih rest outer ⟨alts, none⟩
  | @nextRun cs ds l r _ hr ihl ihr =>
    intro rest outer alts hrest
    obtain ⟨⟨c, es, rfl, hc⟩, -⟩ := hr.run_chars
    rw [List.append_assoc, ihl, ihr]
    · rfl
    · exact hrest
    · exact fun h => ne_star_of_isSymbolChar hc (Option.some.inj h)
  | @nextGroup cs ds l r b _ hr ihl ihr =>
    intro rest outer alts hrest
    obtain ⟨es, rfl⟩ := hr.exists_of_group
    rw [List.append_assoc, ihl, ihr]
    · rfl
    · exact hrest
    · exact endsTerm_opening b
  | @term cs r b _ ih =>
    intro rest outer alts hrest
    rw [ih _ _ _ (hrest.endsTerm b), readScopes_close hrest]
    rfl
  | @alternation cs ds l r b _ _ ihl ihr =>
    intro rest outer alts hrest
    rw [List.append_assoc]
    refine (ihl ('|' :: ds ++ rest) outer alts (endsTerm_bar b)).trans ?_
    exact ihr rest outer (l :: alts) hrest

/-- A text that has the shape of an expression is read as its tree. -/
theorem readChars_of_shape (h : Shape .expression cs r) : readChars cs = .ok r := by
  have := h.goesOver [] [] [] (.inl rfl)
  rw [List.append_nil] at this
  exact this

end Regex

end FormalLang
