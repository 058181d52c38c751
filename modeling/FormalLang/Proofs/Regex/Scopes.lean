import FormalLang.Proofs.Regex.RoundTrip
import Mathlib.Data.List.Chain

/-!
# The text of open scopes

What the reader has read so far is kept in its scopes: the alternatives that a bar has closed, each with the shape of a
term, the operands after them, which are a term too, and the same for each group around. Every lexeme extends the text
in one of these places, so a text that is read to its end has the shape of an expression, with the tree that was read.

* `Lexeme.isChain_ofChars`: two runs never stand side by side.
* `Regex.shape_of_readSymbols`: a run that is read has the shape of a run.
* `Regex.Spells.close`: a closed scope has the shape of an expression.
* `Regex.shape_of_readScopes`: what the scopes and the lexemes to come spell together.
* `Regex.readChars_iff_shape`: a text is read as a tree exactly if it has the shape of an expression with that tree.
-/

namespace FormalLang

variable {cs ds : List Char} {c : Char} {r : Regex}

/-! ## Neighbouring lexemes -/

namespace Lexeme

/-- Is the lexeme a run? -/
def isRun : Lexeme → Bool
  | run _ => true
  | _ => false

/-- The lexemes are not both runs. -/
def Apart (l m : Lexeme) : Prop := l.isRun = true → m.isRun = false

theorem apart_of_isRun_eq_false {l m : Lexeme} (h : l.isRun = false) : Apart l m := fun hl =>
  absurd (h.symm.trans hl) Bool.false_ne_true

theorem isChain_extendRun (c : Char) {ls : List Lexeme} (h : ls.IsChain Apart) : (extendRun c ls).IsChain Apart := by
  unfold extendRun
  split
  · next cs rest =>
    rw [List.isChain_cons] at h ⊢
    exact h
  · next hne =>
    refine List.isChain_cons.mpr ⟨fun m hm _ => ?_, h⟩
    cases m with
    | run cs =>
      obtain ⟨rest, rfl⟩ := List.head?_eq_some_iff.mp hm
      exact absurd rfl (hne cs rest)
    | _ => rfl

/-- All symbols and stars between two operators are in one run. -/
theorem isChain_ofChars (cs : List Char) : (ofChars cs).IsChain Apart := by
  fun_induction ofChars cs with
  | case1 => exact .nil
  | case2 cs ih => exact List.isChain_cons.mpr ⟨fun _ _ => apart_of_isRun_eq_false rfl, ih⟩
  | case3 cs ih => exact List.isChain_cons.mpr ⟨fun _ _ => apart_of_isRun_eq_false rfl, ih⟩
  | case4 cs _ ih => exact List.isChain_cons.mpr ⟨fun _ _ => apart_of_isRun_eq_false rfl, ih⟩
  | case5 cs ih => exact List.isChain_cons.mpr ⟨fun _ _ => apart_of_isRun_eq_false rfl, ih⟩
  | case6 c cs _ _ _ _ ih => exact isChain_extendRun c ih

end Lexeme

namespace Regex

/-! ## Runs -/

theorem isSymbolChar_of_isRunChar (h : isRunChar c = true) (hc : c ≠ '*') : isSymbolChar c = true := by
  rw [isRunChar, Bool.or_eq_true, decide_eq_true_eq] at h
  exact h.resolve_right hc

/-- A run of symbols and stars that is read is the text of a run of letters and digits, which has the shape of a run. -/
theorem shape_of_readSymbols (h : readSymbols cs = .ok r) : Shape .run cs r := by
  unfold readSymbols at h
  split at h
  · cases h
  next hfind =>
  have hcs : ∀ c ∈ cs, isRunChar c = true := by
    intro c hc
    simpa using List.find?_eq_none.mp hfind c hc
  have halphanumeric : r.IsAlphanumeric := by
    intro a ha
    obtain ⟨c, hc, hstar, rfl⟩ := exists_of_mem_literals_of_readRun h ha
    exact ⟨c, isSymbolChar_of_isRunChar (hcs c hc) hstar, rfl⟩
  have hopen : '(' ∉ cs := fun hmem => absurd (hcs _ hmem) (by decide)
  rw [← spell_of_readRun h hopen]
  exact shape_spell_of_isRun halphanumeric (isRun_of_readRun h)

/-! ## Scopes -/

/-- The text of closed alternatives, the last one first, each with its bar. -/
inductive Alternatives : List Regex → List Char → Prop where
  | nil : Alternatives [] []
  | cons {alts cs ds l} {b : Bool} : Alternatives alts cs → Shape (.term b) ds l →
      Alternatives (l :: alts) (cs ++ ds ++ ['|'])

/-- The text of a scope, which ends with a run or not. -/
inductive Spells : Scope → Bool → List Char → Prop where
  | empty {alts cs} : Alternatives alts cs → Spells ⟨alts, none⟩ false cs
  | operand {alts cs ds r} {b : Bool} : Alternatives alts cs → Shape (.term b) ds r →
      Spells ⟨alts, some r⟩ b (cs ++ ds)

/-- The text of all open scopes, each with the parenthesis that opens it. -/
inductive Spans : List Scope → Scope → Bool → List Char → Prop where
  | outermost {s b cs} : Spells s b cs → Spans [] s b cs
  | group {outer around s b b' cs ds} : Spans outer around b cs → Spells s b' ds →
      Spans (around :: outer) s b' (cs ++ '(' :: ds)

section Spells

variable {s : Scope} {outer : List Scope} {alts : List Regex} {b : Bool}

/-- Alternatives before an expression make an expression, grouped to the right. -/
theorem Alternatives.close (h : Alternatives alts cs) (hr : Shape .expression ds r) :
    Shape .expression (cs ++ ds) (Scope.close ⟨alts, none⟩ r) := by
  induction h generalizing ds r with
  | nil => exact hr
  | @cons alts cs es l b _ hl ih =>
    rw [List.append_assoc, List.append_assoc]
    exact ih (.alternation hl hr)

namespace Spells

/-- A closed scope has the shape of an expression. -/
theorem close (h : Spells s b cs) (hs : s.operand = some r) : Shape .expression cs (s.close r) := by
  cases h with
  | empty => contradiction
  | operand halts hr =>
    obtain rfl := Option.some.inj hs
    exact halts.close (.term hr)

theorem bar (h : Spells s b cs) (hs : s.operand = some r) :
    Spells ⟨r :: s.alternatives, none⟩ false (cs ++ ['|']) := by
  cases h with
  | empty => contradiction
  | operand halts hr =>
    obtain rfl := Option.some.inj hs
    exact .empty (halts.cons hr)

theorem pushRun (h : Spells s false cs) (hr : Shape .run ds r) : Spells (s.push r) true (cs ++ ds) := by
  cases h with
  | empty halts => exact .operand halts (.firstRun hr)
  | operand halts hl =>
    rw [List.append_assoc]
    exact .operand halts (.nextRun hl hr)

theorem pushGroup (h : Spells s b cs) (hr : Shape .group ds r) : Spells (s.push r) false (cs ++ ds) := by
  cases h with
  | empty halts => exact .operand halts (.firstGroup hr)
  | operand halts hl =>
    rw [List.append_assoc]
    exact .operand halts (.nextGroup hl hr)

end Spells

namespace Spans

/-- What extends the text of the innermost scope extends the whole text. -/
theorem map {s' : Scope} {b' : Bool} (h : Spans outer s b cs)
    (hs : ∀ cs, Spells s b cs → Spells s' b' (cs ++ ds)) : Spans outer s' b' (cs ++ ds) := by
  cases h with
  | outermost h => exact .outermost (hs _ h)
  | group houter h =>
    rw [List.append_assoc]
    exact .group houter (hs _ h)

theorem opening (h : Spans outer s b cs) : Spans (s :: outer) {} false (cs ++ ['(']) := .group h (.empty .nil)

/-- A closed group is an operand of the scope around it. -/
theorem closing {around : Scope} (starred : Bool) (h : Spans (around :: outer) s b cs) (hs : s.operand = some r) :
    Spans outer (around.push (starIf starred (s.close r))) false (cs ++ ')' :: starChars starred) := by
  cases h with
  | group houter h =>
    have hgroup := Shape.group starred (h.close hs)
    rw [List.append_assoc]
    exact houter.map fun _ haround => haround.pushGroup hgroup

/-- At the end of the text no group is open. -/
theorem close (h : Spans [] s b cs) (hs : s.operand = some r) : Shape .expression cs (s.close r) := by
  cases h with
  | outermost h => exact h.close hs

end Spans

end Spells

/-! ## The whole text -/

theorem Lexeme.chars_closing (starred : Bool) : (Lexeme.closing starred).chars = ')' :: starChars starred := by
  cases starred <;> rfl

/-- What the scopes and the lexemes to come spell together has the shape of an expression. A run is not to follow
another one, since both would be a single operand. -/
theorem shape_of_readScopes {ls : List Lexeme} {outer : List Scope} {s : Scope} {b : Bool} (hs : Spans outer s b cs)
    (hls : ls.IsChain Lexeme.Apart) (hb : b = true → ∀ l ∈ ls.head?, l.isRun = false)
    (h : readScopes ls outer s = .ok r) :
    Shape .expression (cs ++ ls.flatMap Lexeme.chars) r := by
  fun_induction readScopes ls outer s generalizing cs b with
  | case1 | case2 | case5 | case7 | case8 | case10 => contradiction
  | case3 s t ht =>
    obtain rfl := Except.ok.inj h
    rw [List.flatMap_nil, List.append_nil]
    exact hs.close ht
  | case4 ls outer s ih =>
    have := ih hs.opening hls.tail nofun h
    rwa [List.append_assoc] at this
  | case6 ls outer s t ht ih =>
    have := ih (hs.map fun _ hs => hs.bar ht) hls.tail nofun h
    rwa [List.append_assoc] at this
  | case9 starred ls s around outer t ht ih =>
    have := ih (hs.closing starred ht) hls.tail nofun h
    rwa [List.append_assoc, ← Lexeme.chars_closing] at this
  | case11 es ls outer s t ht ih =>
    cases b with
    | true => exact absurd (hb rfl _ rfl) Bool.noConfusion
    | false =>
      have hrun := shape_of_readSymbols ht
      have hnext := (List.isChain_cons.mp hls).1
      have := ih (hs.map fun _ hs => hs.pushRun hrun) hls.tail (fun _ l hl => hnext l hl rfl) h
      rwa [List.append_assoc] at this

/-- A text is read as a tree exactly if it has the shape of an expression with that tree. -/
theorem readChars_iff_shape : readChars cs = .ok r ↔ Shape .expression cs r := by
  refine ⟨fun h => ?_, readChars_of_shape⟩
  have := shape_of_readScopes (.outermost (.empty .nil)) (Lexeme.isChain_ofChars cs) nofun h
  rwa [List.nil_append, Lexeme.flatMap_chars_ofChars] at this

end Regex

end FormalLang
