import FormalLang.Proofs.Faults
import FormalLang.Proofs.Regex.Scopes
import Mathlib.Data.List.Infix

/-!
# The faults of the reader

The reader goes through the text from left to right. The groups that are open around it tell how many more parentheses it has
gone over that open a group than such that close one, so that a closing parenthesis without an open group, and an open group
at the end, are faults of the text itself. A run is looked over for foreign characters before anything else is made of it, and
nothing else that the reader goes over can hold one.

* `Lexeme.isPlain_of_mem_ofChars`: a run holds no parenthesis and no bar.
* `ReadError.IsTrueOf`: what a fault says about the text that is still to come, with the groups that are open before it.
* `ReadError.IsTrueOf.append`: a fault of a rest of the text is a fault of the text.
* `Regex.faults_readSymbols`, `Regex.faults_readScopes`: the reader of a run and the reader of groups tell the truth.
* `Regex.Shape.isAllowedChar_of_mem`: no foreign character is in a text that is read.
* `Regex.read_error`: what each fault says about the text.
-/

namespace FormalLang

variable {cs ds : List Char} {c : Char} {r : Regex}

/-- Does the fault say that an operand is missing: in a run, before a star or a bar, in a group or in the whole text? -/
def ReadError.isMissingOperand : ReadError → Bool
  | invalidCharacter _ | unbalanced => false
  | emptyRun | leadingStar | doubledStar | leadingBar | emptyGroup | emptyText => true

/-! ## Lexemes -/

namespace Lexeme

/-- A run has no parenthesis and no bar. -/
def IsPlain : Lexeme → Prop
  | run cs => ∀ c ∈ cs, isDelimiter c = false
  | _ => True

theorem isPlain_extendRun {ls : List Lexeme} (hc : isDelimiter c = false) (h : ∀ l ∈ ls, l.IsPlain) :
    ∀ l ∈ extendRun c ls, l.IsPlain := by
  unfold extendRun
  split
  · simp_all [IsPlain]
  · simp_all [IsPlain]

theorem isPlain_of_mem_ofChars (cs : List Char) : ∀ l ∈ ofChars cs, l.IsPlain := by
  fun_induction ofChars cs with
  | case1 => simp
  | case6 c cs h₁ h₂ h₃ h₄ ih =>
    have hc : isDelimiter c = false := by
      simp only [isDelimiter, Bool.or_eq_false_iff, decide_eq_false_iff_not]
      exact ⟨⟨h₁, h₃⟩, h₄⟩
    exact isPlain_extendRun hc ih
  | _ => simp_all [IsPlain]

end Lexeme

namespace Regex

/-- No part at the beginning closes more groups than it opens, and the whole text closes as many as it opens. -/
def Balanced (cs : List Char) : Prop :=
  (∀ ds ∈ cs.inits, ds.count ')' ≤ ds.count '(') ∧ cs.count ')' = cs.count '('

instance (cs : List Char) : Decidable (Balanced cs) := inferInstanceAs (Decidable (_ ∧ _))

/-! ## Runs -/

theorem faults_runAtoms (cs : List Char) : Faults (·.isMissingOperand = true) (runAtoms cs) := by
  fun_induction runAtoms cs with
  | case1 => exact .ok []
  | case2 => exact .error rfl
  | case3 c cs hc ih => exact ih.map
  | case4 c cs hc hstar ih => exact ih.map

theorem faults_readRun (cs : List Char) : Faults (·.isMissingOperand = true) (readRun cs) := by
  unfold readRun
  split
  · exact .error rfl
  · exact .error rfl
  · refine (faults_runAtoms _).bind fun rs _ => ?_
    split
    · exact .error rfl
    · exact .ok _

end Regex

/-! ## What a fault says -/

namespace ReadError

open Regex

/-- What a fault says about a text that begins inside `depth` open groups: a character is the first that is not allowed, or a part
at the beginning closes more groups than are open there, or some group is open at the end, or else an operand is missing. -/
def IsTrueOf (depth : Nat) (cs : List Char) : ReadError → Prop
  | invalidCharacter c =>
    ∃ front rest, cs = front ++ c :: rest ∧ isAllowedChar c = false ∧ ∀ d ∈ front, isAllowedChar d = true
  | unbalanced => (∃ ds ∈ cs.inits, depth + ds.count '(' < ds.count ')') ∨ cs.count ')' < depth + cs.count '('
  | e => e.isMissingOperand = true

variable {depth depth' : Nat} {e : ReadError}

theorem isTrueOf_of_isMissingOperand (h : e.isMissingOperand = true) : e.IsTrueOf depth cs := by
  cases e with
  | invalidCharacter c => contradiction
  | unbalanced => contradiction
  | _ => exact h

/-- What is said of the rest of a text holds of the whole, if no foreign character is in front of it and the groups that are open
are counted. -/
theorem IsTrueOf.append (h : e.IsTrueOf depth' cs) (hds : ∀ d ∈ ds, isAllowedChar d = true)
    (hdepth : depth + ds.count '(' = depth' + ds.count ')') : e.IsTrueOf depth (ds ++ cs) := by
  cases e with
  | invalidCharacter c =>
    obtain ⟨front, rest, rfl, hc, hfront⟩ := h
    exact ⟨ds ++ front, rest, by simp, hc, List.forall_mem_append.mpr ⟨hds, hfront⟩⟩
  | unbalanced =>
    rcases h with ⟨es, hes, hlt⟩ | hlt
    · refine .inl ⟨ds ++ es, ?_, ?_⟩
      · rw [List.mem_inits] at hes ⊢
        exact (List.prefix_append_right_inj ds).mpr hes
      · simp only [List.count_append]
        omega
    · refine .inr ?_
      simp only [List.count_append]
      omega
  | _ => exact h

end ReadError

namespace Regex

theorem isAllowedChar_of_isRunChar (hc : isRunChar c = true) : isAllowedChar c = true := by simp [isAllowedChar, hc]

theorem count_eq_zero_of_isRunChar (hcs : ∀ c ∈ cs, isRunChar c = true) {d : Char} (hd : isRunChar d = false) :
    cs.count d = 0 := by
  rw [List.count_eq_zero]
  intro hmem
  simp [hcs d hmem] at hd

/-- A fault of a run says that its first foreign character is the fault, or that an operand is missing. -/
theorem faults_readSymbols (hcs : (Lexeme.run cs).IsPlain) (depth : Nat) (rest : List Char) :
    Faults (·.IsTrueOf depth (cs ++ rest)) (readSymbols cs) := by
  unfold readSymbols
  split
  · next c hc =>
    obtain ⟨hrun, front, back, rfl, hfront⟩ := List.find?_eq_some_iff_append.mp hc
    have hdelim : Lexeme.isDelimiter c = false := hcs c (by simp)
    refine .error ⟨front, back ++ rest, by simp, ?_, fun d hd => isAllowedChar_of_isRunChar ?_⟩
    · simp_all [isAllowedChar]
    · simpa using hfront d hd
  · intro e he
    exact ReadError.isTrueOf_of_isMissingOperand (faults_readRun cs e he)

/-- What the reader says of the lexemes to come is true of their text. -/
theorem faults_readScopes {ls : List Lexeme} (hls : ∀ l ∈ ls, l.IsPlain) (outer : List Scope) (s : Scope) :
    Faults (·.IsTrueOf outer.length (ls.flatMap Lexeme.chars)) (readScopes ls outer s) := by
  fun_induction readScopes ls outer s with
  | case1 | case5 | case8 => exact .error rfl
  | case2 => exact .error (.inr (by simp))
  | case3 => exact .ok _
  | case4 ls outer s ih =>
    intro e he
    exact (ih (List.forall_mem_cons.mp hls).2 e he).append (List.all_eq_true.mp (by decide)) (by simp [Lexeme.chars])
  | case6 ls outer s t ht ih =>
    intro e he
    exact (ih (List.forall_mem_cons.mp hls).2 e he).append (List.all_eq_true.mp (by decide)) (by simp [Lexeme.chars])
  | case7 s starred ls =>
    refine .error (.inl ⟨[')'], ?_, by simp⟩)
    rw [List.mem_inits, List.flatMap_cons, Lexeme.chars_closing]
    exact ⟨_, rfl⟩
  | case9 starred ls s around outer t ht ih =>
    intro e he
    refine (ih (List.forall_mem_cons.mp hls).2 e he).append ?_ ?_
    · exact List.all_eq_true.mp (by cases starred <;> decide)
    · cases starred <;> simp [Lexeme.chars]
  | case10 es ls outer s e h =>
    exact .error (faults_readSymbols (hls _ (.head _)) outer.length _ e h)
  | case11 es ls outer s t ht ih =>
    -- The run has been read, so that it has only symbols and stars.
    have hrun := (shape_of_readSymbols ht).run_chars.2
    intro e he
    refine (ih (List.forall_mem_cons.mp hls).2 e he).append (fun d hd => isAllowedChar_of_isRunChar (hrun d hd)) ?_
    simp [Lexeme.chars, count_eq_zero_of_isRunChar hrun (d := '(') rfl, count_eq_zero_of_isRunChar hrun (d := ')') rfl]

/-- What the reader says of a text is true of it. -/
theorem faults_readChars (cs : List Char) : Faults (·.IsTrueOf 0 cs) (readChars cs) := by
  have h := faults_readScopes (Lexeme.isPlain_of_mem_ofChars cs) [] {}
  rwa [Lexeme.flatMap_chars_ofChars] at h

/-! ## What is read -/

theorem isAllowedChar_of_isSymbolChar (hc : isSymbolChar c = true) : isAllowedChar c = true :=
  isAllowedChar_of_isRunChar (isRunChar_of_isSymbolChar hc)

theorem isAllowedChar_of_mem_starChars {starred : Bool} (hc : c ∈ starChars starred) : isAllowedChar c = true :=
  isAllowedChar_of_isRunChar (isRunChar_of_mem_starChars c hc)

/-- A text that is read has no foreign character. -/
theorem Shape.isAllowedChar_of_mem {p : Piece} (h : Shape p cs r) : ∀ c ∈ cs, isAllowedChar c = true := by
  induction h with
  | symbol starred hc =>
    exact List.forall_mem_cons.mpr ⟨isAllowedChar_of_isSymbolChar hc, fun _ => isAllowedChar_of_mem_starChars⟩
  | moreSymbols starred _ hc ih =>
    refine List.forall_mem_append.mpr ⟨ih, List.forall_mem_cons.mpr ⟨isAllowedChar_of_isSymbolChar hc, ?_⟩⟩
    exact fun _ => isAllowedChar_of_mem_starChars
  | group starred _ ih =>
    refine List.forall_mem_append.mpr ⟨List.forall_mem_cons.mpr ⟨by decide, ih⟩, List.forall_mem_cons.mpr ⟨by decide, ?_⟩⟩
    exact fun _ => isAllowedChar_of_mem_starChars
  | firstRun _ ih => exact ih
  | firstGroup _ ih => exact ih
  | nextRun _ _ ihl ihr => exact List.forall_mem_append.mpr ⟨ihl, ihr⟩
  | nextGroup _ _ ihl ihr => exact List.forall_mem_append.mpr ⟨ihl, ihr⟩
  | term _ ih => exact ih
  | alternation _ _ ihl ihr => exact List.forall_mem_append.mpr ⟨ihl, List.forall_mem_cons.mpr ⟨by decide, ihr⟩⟩

/-- Faults are true of the text. A fault that names a character names the first one that is neither a symbol nor an operator. If
parentheses are said to be unbalanced, some part at the beginning closes more groups than it opens, or the whole text opens more
than it closes. So only a missing operand is said of a text with balanced parentheses and without foreign characters, and a text
with a foreign character is never read. -/
theorem read_error (text : String) :
    (∀ c, read text = .error (.invalidCharacter c) → ∃ front rest, text.toList = front ++ c :: rest ∧
      isAllowedChar c = false ∧ ∀ d ∈ front, isAllowedChar d = true) ∧
    (read text = .error .unbalanced → (∃ cs, cs <+: text.toList ∧ cs.count '(' < cs.count ')') ∨
      text.toList.count ')' < text.toList.count '(') ∧
    (∀ e, read text = .error e → (∀ c ∈ text.toList, isAllowedChar c = true) → Balanced text.toList →
      e.isMissingOperand = true) ∧
    ((∃ c ∈ text.toList, isAllowedChar c = false) → ∃ e, read text = .error e) := by
  have hfaults := faults_readChars text.toList
  refine ⟨fun c hc => hfaults _ hc, fun hc => ?_, fun e he hallowed hbalanced => ?_, ?_⟩
  · rcases hfaults _ hc with ⟨cs, hcs, hlt⟩ | hlt
    · exact .inl ⟨cs, (List.mem_inits cs text.toList).mp hcs, by omega⟩
    · exact .inr (by omega)
  · have htrue := hfaults e he
    cases e with
    | invalidCharacter c =>
      obtain ⟨front, rest, htext, hc, -⟩ := htrue
      have := hallowed c (by simp [htext])
      simp [hc] at this
    | unbalanced =>
      obtain ⟨hbegin, hcount⟩ := hbalanced
      rcases htrue with ⟨cs, hcs, hlt⟩ | hlt
      · have := hbegin cs hcs
        omega
      · omega
    | _ => exact htrue
  · rintro ⟨c, hmem, hc⟩
    cases hread : read text with
    | error e => exact ⟨e, rfl⟩
    | ok r =>
      have := (readChars_iff_shape.mp hread).isAllowedChar_of_mem c hmem
      simp [hc] at this

/-- A foreign character after a star that is out of place, and one after a parenthesis that is; a group that stays open; and an
empty alternative. -/
theorem read_error_each :
    (∃ front rest, "(a**é)".toList = front ++ 'é' :: rest ∧ isAllowedChar 'é' = false ∧
      ∀ d ∈ front, isAllowedChar d = true) ∧
    ((∃ cs, cs <+: "a)(é".toList ∧ cs.count '(' < cs.count ')') ∨ "a)(é".toList.count ')' < "a)(é".toList.count '(') ∧
    ((∃ cs, cs <+: "(a".toList ∧ cs.count '(' < cs.count ')') ∨ "(a".toList.count ')' < "(a".toList.count '(') ∧
    ReadError.leadingBar.isMissingOperand = true ∧ ∃ e, read "a)(é" = .error e :=
  ⟨(read_error "(a**é)").1 'é' (by decide), (read_error "a)(é").2.1 (by decide), (read_error "(a").2.1 (by decide),
    (read_error "a||b").2.2.1 .leadingBar (by decide) (List.all_eq_true.mp (by decide)) (by decide),
    (read_error "a)(é").2.2.2 ⟨'é', by decide, by decide⟩⟩

end Regex

end FormalLang
