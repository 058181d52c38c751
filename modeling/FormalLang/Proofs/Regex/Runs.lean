import FormalLang.Proofs.Regex.Reading
import FormalLang.Regex.Spelling

/-!
# Runs

The reader takes a run of symbols and stars as it is, whatever characters its symbols are. It refuses only a stray star, one
that does not stand right after a symbol, and otherwise folds the symbols to the left, each with its star. The printer
recurses from the last symbol of such a fold. It puts parentheses around a symbol only if an opening one stands somewhere
before it, so a run without opening parentheses is spelled symbol by symbol, just as it was read.

* `Regex.runAtoms_eq`: the literals of a run, or the fault of a stray star.
* `Regex.readRun_eq_ok_iff_symbols`: a run is read as the fold of its symbols.
* `Regex.spell_concat_of_isAtom`, `Regex.spell_foldl_concat`: a run is spelled symbol by symbol.
* `Regex.readRun_spell`: a run of literals is read back from its text.
* `Regex.readRun_exact`: which runs are read, as what, and that printing and reading undo each other.
-/

namespace FormalLang

namespace Regex

variable {cs : List Char} {c : Char} {l r : Regex} {rs : List Regex}

/-! ## Stray stars -/

/-- A star stands at the beginning or after another star. -/
def StrayStar (cs : List Char) : Prop := cs.head? = some '*' ∨ ['*', '*'] <:+: cs

instance (cs : List Char) : Decidable (StrayStar cs) := inferInstanceAs (Decidable (_ ∨ _))

theorem strayStar_star_cons : StrayStar ('*' :: cs) := .inl rfl

theorem infix_cons_of_ne (hc : c ≠ '*') : ['*', '*'] <:+: c :: cs ↔ ['*', '*'] <:+: cs := by
  rw [List.infix_cons_iff, List.cons_prefix_cons]
  exact or_iff_right fun h => hc h.1.symm

/-- Behind a symbol and its star, a star is stray where it would be at the beginning. -/
theorem strayStar_cons_star_cons (hc : c ≠ '*') : StrayStar (c :: '*' :: cs) ↔ StrayStar cs := by
  have hstar : ['*'] <+: cs ↔ cs.head? = some '*' := by
    cases cs with
    | nil => simp
    | cons d ds => simp [eq_comm]
  simp [StrayStar, hc, infix_cons_of_ne hc, List.infix_cons_iff, hstar]

/-- A symbol without a star changes nothing. -/
theorem strayStar_cons (hc : c ≠ '*') (hcs : cs.head? ≠ some '*') : StrayStar (c :: cs) ↔ StrayStar cs := by
  simp [StrayStar, hc, infix_cons_of_ne hc, hcs]

/-! ## Symbols -/

/-- The symbols of a run from left to right, each starred if a star follows it. -/
def runSymbols : List Char → List Regex
  | [] => []
  | c :: cs =>
    if c = '*' then runSymbols cs
    else starIf (cs.head? = some '*') (literal (String.singleton c)) :: runSymbols cs

theorem runSymbols_cons_star_cons (hc : c ≠ '*') :
    runSymbols (c :: '*' :: cs) = starIf true (literal (String.singleton c)) :: runSymbols cs := by
  simp [runSymbols, hc]

theorem runSymbols_cons (hc : c ≠ '*') (hcs : cs.head? ≠ some '*') :
    runSymbols (c :: cs) = starIf false (literal (String.singleton c)) :: runSymbols cs := by
  simp [runSymbols, hc, hcs]

theorem runSymbols_ne_nil (hne : cs ≠ []) (hcs : cs.head? ≠ some '*') : runSymbols cs ≠ [] := by
  cases cs with
  | nil => contradiction
  | cons c cs => simp_all [runSymbols]

theorem isAtom_symbol (starred : Bool) (c : Char) : (starIf starred (literal (String.singleton c))).isAtom = true := by
  cases starred <;> rfl

theorem spell_symbol (starred : Bool) (c : Char) :
    (starIf starred (literal (String.singleton c))).spell = c :: starChars starred := by
  cases starred <;> simp [starIf, spell, isLiteral, starChars]

/-- The symbols are characters of the run, with a star or without one. -/
theorem exists_of_mem_runSymbols (hr : r ∈ runSymbols cs) :
    ∃ starred, ∃ c ∈ cs, c ≠ '*' ∧ r = starIf starred (literal (String.singleton c)) := by
  induction cs with
  | nil => contradiction
  | cons c cs ih =>
    rw [runSymbols] at hr
    split at hr
    · obtain ⟨starred, d, hd, h⟩ := ih hr
      exact ⟨starred, d, .tail _ hd, h⟩
    · next hc =>
      obtain rfl | hr := List.mem_cons.mp hr
      · exact ⟨_, c, .head _, hc, rfl⟩
      · obtain ⟨starred, d, hd, h⟩ := ih hr
        exact ⟨starred, d, .tail _ hd, h⟩

theorem isAtom_of_mem_runSymbols (hr : r ∈ runSymbols cs) : r.isAtom = true := by
  obtain ⟨starred, c, -, -, rfl⟩ := exists_of_mem_runSymbols hr
  exact isAtom_symbol starred c

theorem head?_ne_star (h : ∀ ds, cs = '*' :: ds → False) : cs.head? ≠ some '*' := by
  intro hcs
  obtain ⟨ds, rfl⟩ := List.head?_eq_some_iff.mp hcs
  exact h ds rfl

/-- The literals of a run are its symbols, unless there is a stray star. -/
theorem runAtoms_eq (cs : List Char) :
    runAtoms cs = if StrayStar cs then .error .doubledStar else .ok (runSymbols cs) := by
  fun_induction runAtoms cs with
  | case1 => rfl
  | case2 cs => rw [if_pos strayStar_star_cons]
  | case3 c cs hc ih =>
    simp only [ih, strayStar_cons_star_cons hc, runSymbols_cons_star_cons hc]
    split <;> rfl
  | case4 c cs hc hstar ih =>
    simp only [ih, strayStar_cons hc (head?_ne_star hstar), runSymbols_cons hc (head?_ne_star hstar)]
    split <;> rfl

/-- Without a stray star, the symbols spell the run. -/
theorem flatMap_spell_runSymbols (h : ¬ StrayStar cs) : (runSymbols cs).flatMap spell = cs := by
  fun_induction runAtoms cs with
  | case1 => rfl
  | case2 => exact absurd strayStar_star_cons h
  | case3 c cs hc ih =>
    rw [strayStar_cons_star_cons hc] at h
    rw [runSymbols_cons_star_cons hc, List.flatMap_cons, spell_symbol, ih h]
    rfl
  | case4 c cs hc hstar ih =>
    rw [strayStar_cons hc (head?_ne_star hstar)] at h
    rw [runSymbols_cons hc (head?_ne_star hstar), List.flatMap_cons, spell_symbol, ih h]
    rfl

/-! ## Folding -/

theorem concatAll_cons (r : Regex) (rs : List Regex) : concatAll (r :: rs) = some (rs.foldl concat r) := by
  show rs.foldl (fun t r => some (append t r)) (some r) = _
  induction rs generalizing r with
  | nil => rfl
  | cons s rs ih => exact ih (concat r s)

theorem mem_literals_starIf {a : Symbol} {starred : Bool} : a ∈ (starIf starred r).literals ↔ a ∈ r.literals := by
  cases starred <;> rfl

theorem mem_literals_foldl_concat {a : Symbol} :
    a ∈ (rs.foldl concat r).literals ↔ ∃ s ∈ r :: rs, a ∈ s.literals := by
  induction rs generalizing r with
  | nil => simp
  | cons s rs ih => simp [ih, literals, or_assoc]

/-- A run is read if there is no stray star, and then as the fold of its symbols. -/
theorem readRun_eq_ok_iff_symbols :
    readRun cs = .ok r ↔ ¬ StrayStar cs ∧ ∃ s ss, runSymbols cs = s :: ss ∧ ss.foldl concat s = r := by
  rw [readRun_eq_ok_iff, runAtoms_eq]
  split
  · next h => simp [h]
  · next h =>
    cases runSymbols cs with
    | nil => simp [concatAll]
    | cons s ss =>
      simp only [Except.ok.injEq, exists_eq_left', concatAll_cons, Option.some.injEq, h, not_false_eq_true, true_and]
      constructor
      · rintro rfl
        exact ⟨s, ss, rfl, rfl⟩
      · rintro ⟨_, _, ⟨⟩, rfl⟩
        rfl

/-! ## Spelling -/

theorem isAlternation_of_isRun (h : r.isRun = true) : r.isAlternation = false := by
  cases r <;> simp_all [isRun, isAlternation]

/-- After a text without groups, a symbol stands without parentheses. -/
theorem standsBare_of_isAtom (hcs : '(' ∉ cs) (h : r.isAtom = true) : standsBare cs r = true := by
  have hbare : (r.isLiteral || r.isStar) = true := by
    cases r <;> simp_all [isAtom, isLiteral, isStar]
  simp [standsBare, isRun_of_isAtom h, hcs, hbare]

theorem spell_concat_of_isAtom (hl : l.isRun = true) (hopen : '(' ∉ l.spell) (hr : r.isAtom = true) :
    (concat l r).spell = l.spell ++ r.spell := by
  rw [spell, isAlternation_of_isRun hl, if_neg (by decide), standsBare_of_isAtom hopen hr, if_pos rfl]

theorem isRun_concat (hl : l.isRun = true) (hr : r.isAtom = true) : (concat l r).isRun = true := by
  rw [isRun, hl, hr]
  rfl

/-- A run goes on with further symbols. -/
theorem isRun_foldl_concat (hr : r.isRun = true) (hrs : ∀ s ∈ rs, s.isAtom = true) :
    (rs.foldl concat r).isRun = true := by
  induction rs generalizing r with
  | nil => exact hr
  | cons s rs ih =>
    obtain ⟨hs, hrs⟩ := List.forall_mem_cons.mp hrs
    exact ih (isRun_concat hr hs) hrs

/-- So does its text, if there is no group in it. -/
theorem spell_foldl_concat (hr : r.isRun = true) (hrs : ∀ s ∈ rs, s.isAtom = true)
    (hopen : '(' ∉ r.spell ++ rs.flatMap spell) : (rs.foldl concat r).spell = r.spell ++ rs.flatMap spell := by
  induction rs generalizing r with
  | nil => simp
  | cons s rs ih =>
    obtain ⟨hs, hrs⟩ := List.forall_mem_cons.mp hrs
    have hspell : (concat r s).spell = r.spell ++ s.spell :=
      spell_concat_of_isAtom hr (fun h => hopen (List.mem_append_left _ h)) hs
    rw [List.flatMap_cons, ← List.append_assoc, ← hspell] at hopen ⊢
    exact ih (isRun_concat hr hs) hrs hopen

/-- A literal or its star is spelled as a symbol. -/
theorem exists_of_isAtom {P : Char → Prop} (hr : ∀ a ∈ r.literals, ∃ c, P c ∧ a = String.singleton c)
    (h : r.isAtom = true) :
    ∃ starred c, P c ∧ r = starIf starred (literal (String.singleton c)) ∧ r.spell = c :: starChars starred := by
  cases r with
  | literal s =>
    obtain ⟨c, hc, rfl⟩ := hr s (List.mem_singleton_self s)
    exact ⟨false, c, hc, rfl, spell_symbol false c⟩
  | star r =>
    cases r with
    | literal s =>
      obtain ⟨c, hc, rfl⟩ := hr s (List.mem_singleton_self s)
      exact ⟨true, c, hc, rfl, spell_symbol true c⟩
    | _ => contradiction
  | _ => contradiction

/-- The text of a run of literals is one run, whose literals are those of the tree. By induction from the last literal. -/
theorem exists_runAtoms_spell (hr : ∀ a ∈ r.literals, ∃ c, (c ≠ '(' ∧ c ≠ '*') ∧ a = String.singleton c)
    (h : r.isRun = true) : '(' ∉ r.spell ∧ ∃ rs, runAtoms r.spell = .ok rs ∧ concatAll rs = some r := by
  induction r with
  | concat l r ihl _ =>
    rw [isRun, Bool.and_eq_true] at h
    obtain ⟨hl, hr⟩ := List.forall_mem_append.mp hr
    obtain ⟨hopen, rs, hrs, hfold⟩ := ihl hl h.1
    obtain ⟨starred, c, ⟨hne, hstar⟩, rfl, hspell⟩ := exists_of_isAtom hr h.2
    rw [spell_concat_of_isAtom h.1 hopen h.2, hspell]
    refine ⟨?_, rs ++ [starIf starred (literal (String.singleton c))], ?_, ?_⟩
    · cases starred <;> simp [hopen, starChars, hne.symm]
    · rw [runAtoms_append _ starred hstar, hrs]
      rfl
    · rw [concatAll_append, hfold]
      rfl
  | alternation _ _ => contradiction
  | _ =>
    obtain ⟨starred, c, ⟨hne, hstar⟩, heq, hspell⟩ := exists_of_isAtom hr h
    rw [hspell, heq]
    refine ⟨?_, [_], runAtoms_append [] starred hstar, rfl⟩
    cases starred <;> simp [starChars, hne.symm]

theorem readRun_spell (hr : ∀ a ∈ r.literals, ∃ c, (c ≠ '(' ∧ c ≠ '*') ∧ a = String.singleton c)
    (h : r.isRun = true) : readRun r.spell = .ok r :=
  readRun_eq_ok_iff.mpr (exists_runAtoms_spell hr h).2

/-! ## Runs that are read -/

theorem exists_readRun_iff : (∃ r, readRun cs = .ok r) ↔ cs ≠ [] ∧ ¬ StrayStar cs := by
  simp only [readRun_eq_ok_iff_symbols]
  constructor
  · rintro ⟨r, hstray, s, ss, hsymbols, -⟩
    refine ⟨?_, hstray⟩
    rintro rfl
    cases hsymbols
  · rintro ⟨hne, hstray⟩
    obtain ⟨s, ss, hsymbols⟩ := List.exists_cons_of_ne_nil (runSymbols_ne_nil hne fun h => hstray (.inl h))
    exact ⟨_, hstray, s, ss, hsymbols, rfl⟩

/-- What a run is read as is put together from its symbols, which spell the run. -/
theorem exists_atoms_of_readRun (h : readRun cs = .ok r) :
    ∃ (s : Regex) (ss : List Regex), s.isRun = true ∧ (∀ t ∈ ss, t.isAtom = true) ∧
      s.spell ++ ss.flatMap spell = cs ∧ ss.foldl concat s = r := by
  obtain ⟨hstray, s, ss, hsymbols, hfold⟩ := readRun_eq_ok_iff_symbols.mp h
  have hatoms : ∀ t ∈ s :: ss, t.isAtom = true := fun t ht => isAtom_of_mem_runSymbols (hsymbols ▸ ht)
  have hspell := flatMap_spell_runSymbols hstray
  rw [hsymbols, List.flatMap_cons] at hspell
  obtain ⟨hs, hss⟩ := List.forall_mem_cons.mp hatoms
  exact ⟨s, ss, isRun_of_isAtom hs, hss, hspell, hfold⟩

theorem isRun_of_readRun (h : readRun cs = .ok r) : r.isRun = true := by
  obtain ⟨s, ss, hs, hss, -, rfl⟩ := exists_atoms_of_readRun h
  exact isRun_foldl_concat hs hss

/-- A run without opening parentheses is the text of what it is read as. -/
theorem spell_of_readRun (h : readRun cs = .ok r) (hopen : '(' ∉ cs) : r.spell = cs := by
  obtain ⟨s, ss, hs, hss, rfl, rfl⟩ := exists_atoms_of_readRun h
  exact spell_foldl_concat hs hss hopen

/-- The literals of what a run is read as are characters of the run. -/
theorem exists_of_mem_literals_of_readRun {a : Symbol} (h : readRun cs = .ok r) (ha : a ∈ r.literals) :
    ∃ c ∈ cs, c ≠ '*' ∧ a = String.singleton c := by
  obtain ⟨-, s, ss, hsymbols, rfl⟩ := readRun_eq_ok_iff_symbols.mp h
  obtain ⟨t, ht, hat⟩ := mem_literals_foldl_concat.mp ha
  rw [← hsymbols] at ht
  obtain ⟨starred, c, hc, hstar, rfl⟩ := exists_of_mem_runSymbols ht
  exact ⟨c, hc, hstar, List.mem_singleton.mp (mem_literals_starIf.mp hat)⟩

/-- A run is read if there is something in it and each of its stars stands right after a symbol. It is then read as the left
fold of its symbols in their order, each starred if a star follows it, which is a run of literals; without an opening
parenthesis in the run, its text is the run itself. In turn, each run of literals is read back from its text, if its
literals are single characters other than an opening parenthesis and a star. Closing parentheses and bars are symbols here
like any others. -/
theorem readRun_exact :
    (∀ text : String,
      ((∃ r, readRun text.toList = .ok r) ↔
        text ≠ "" ∧ text.toList.head? ≠ some '*' ∧ ¬ ['*', '*'] <:+: text.toList) ∧
      ∀ r, readRun text.toList = .ok r →
        r.isRun = true ∧ ('(' ∉ text.toList → r.text = text) ∧
        ∃ s ss, runSymbols text.toList = s :: ss ∧ r = ss.foldl concat s) ∧
      ∀ r : Regex, r.isRun = true →
        (∀ a ∈ r.literals, ∃ c, (c ≠ '(' ∧ c ≠ '*') ∧ a = String.singleton c) → readRun r.text.toList = .ok r := by
  refine ⟨fun text => ⟨?_, fun r h => ⟨isRun_of_readRun h, fun hopen => ?_, ?_⟩⟩, fun r hrun hliterals => ?_⟩
  · rw [exists_readRun_iff, StrayStar, not_or, ne_eq, String.toList_eq_nil_iff]
  · rw [Regex.text, spell_of_readRun h hopen, String.ofList_toList]
  · obtain ⟨-, s, ss, hsymbols, hfold⟩ := readRun_eq_ok_iff_symbols.mp h
    exact ⟨s, ss, hsymbols, hfold.symm⟩
  · rw [text, String.toList_ofList]
    exact readRun_spell hliterals hrun

/-- Symbols outside the alphabet are taken as they are, and a star applies to the symbol right before it only. -/
theorem readRun_exact_foreign :
    let r := concat (concat (star (literal "é")) (literal ")")) (star (literal "|"))
    readRun "é*)|*".toList = .ok r ∧ '(' ∉ "é*)|*".toList ∧ r.isRun = true ∧ r.text = "é*)|*" ∧
      (∀ a ∈ r.literals, ∃ c, (c ≠ '(' ∧ c ≠ '*') ∧ a = String.singleton c) ∧ readRun r.text.toList = .ok r ∧
      ¬ ∃ s, readRun "é**".toList = .ok s := by
  intro r
  obtain ⟨hruns, htrees⟩ := readRun_exact
  have hread : readRun "é*)|*".toList = .ok r := rfl
  have hopen : '(' ∉ "é*)|*".toList := by decide
  have hrefused : ¬ ∃ s, readRun "é**".toList = .ok s := by
    rw [(hruns "é**").1]
    decide
  have hliterals : ∀ a ∈ r.literals, ∃ c, (c ≠ '(' ∧ c ≠ '*') ∧ a = String.singleton c := by
    intro a ha
    have hmem : a ∈ ["é", ")", "|"] := ha
    simp only [List.mem_cons, List.not_mem_nil, or_false] at hmem
    obtain rfl | rfl | rfl := hmem
    · exact ⟨'é', by decide, rfl⟩
    · exact ⟨')', by decide, rfl⟩
    · exact ⟨'|', by decide, rfl⟩
  obtain ⟨hrun, htext, -⟩ := (hruns _).2 r hread
  exact ⟨hread, hopen, hrun, htext hopen, hliterals, htrees r hrun hliterals, hrefused⟩

end Regex

end FormalLang
