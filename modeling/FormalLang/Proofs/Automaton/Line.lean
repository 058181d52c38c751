import FormalLang.Automaton.Text.Writing
import FormalLang.Automaton.Text.Line
import FormalLang.Proofs.Text.Numbers

/-!
# What lines say

A line that is written for a header or a transition says just that. A transition on a symbol that is not one ASCII letter
or digit gives a line that says nothing, also where the symbol itself ends the line. What a line says is found in it: values and
numbers are parts of the line.

* `Line.ofChars?_header`, `Line.ofChars?_transition`: what written lines say.
* `Line.ofChars?_transition_eq_none`, `Line.ofChars?_cut`: lines of transitions on other symbols say nothing.
* `Line.isInfix_of_header`, `Line.parts_of_transition`: where the parts of what a line says come from.
-/

namespace FormalLang

namespace Line

variable {cs ds es rest : List Char} {c : Char} {a : Symbol} {p q : Nat}

/-! ## Scanners -/

theorem after?_eq_some_iff {start : List Char} : after? start cs = some rest ↔ cs = start ++ rest := by
  induction start generalizing cs with
  | nil =>
    rw [after?, Option.some.injEq]
    rfl
  | cons x start ih =>
    cases cs with
    | nil =>
      rw [after?]
      exact ⟨nofun, nofun⟩
    | cons c cs =>
      rw [after?, List.cons_append, List.cons.injEq]
      split
      · next h => rw [ih, eq_comm (a := c), h, eq_self, true_and]
      · next h => exact ⟨nofun, fun h' => absurd h'.1.symm h⟩

theorem digits?_eq_some (h : digits? cs = some (ds, rest)) :
    cs = ds ++ rest ∧ ds ≠ [] ∧ ∀ c ∈ ds, Text.isDecimalDigit c = true := by
  unfold digits? at h
  split at h
  · contradiction
  · next hne =>
    obtain ⟨rfl, rfl⟩ := Prod.mk.inj (Option.some.inj h)
    exact ⟨List.takeWhile_append_dropWhile.symm, hne, fun c hc => List.mem_takeWhile_imp hc⟩

theorem digits?_append (hne : ds ≠ []) (hd : ∀ c ∈ ds, Text.isDecimalDigit c = true)
    (hrest : ∀ c ∈ rest.head?, Text.isDecimalDigit c = false) : digits? (ds ++ rest) = some (ds, rest) := by
  have hstop : rest.takeWhile Text.isDecimalDigit = [] ∧ rest.dropWhile Text.isDecimalDigit = rest := by
    cases rest with
    | nil => exact ⟨rfl, rfl⟩
    | cons c rest => simp [hrest c rfl]
  have htake : (ds ++ rest).takeWhile Text.isDecimalDigit = ds := by
    rw [List.takeWhile_append_of_pos hd, hstop.1, List.append_nil]
  have hdrop : (ds ++ rest).dropWhile Text.isDecimalDigit = rest := by
    rw [List.dropWhile_append_of_pos hd, hstop.2]
  rw [digits?, htake, hdrop]
  split
  · contradiction
  · rfl

theorem isSuffix_of_arrowSymbol? (h : arrowSymbol? cs = some (a, rest)) : rest <:+ cs := by
  unfold arrowSymbol? at h
  split at h
  · next c cs =>
    split at h
    · obtain ⟨-, rfl⟩ := Prod.mk.inj (Option.some.inj h)
      exact (Text.trimLeft_isSuffix cs).trans (List.suffix_append ['\'', c, '\''] cs)
    · contradiction
  · obtain ⟨-, rfl⟩ := Prod.mk.inj (Option.some.inj h)
    exact List.suffix_refl _

/-! ## Parts of lines -/

theorem isInfix_of_headerValue? {spelling : String} (h : headerValue? spelling cs = some ds) : ds <:+: cs := by
  obtain ⟨rest, hrest, h⟩ := Option.bind_eq_some_iff.mp h
  obtain ⟨value, hvalue, h⟩ := Option.bind_eq_some_iff.mp h
  obtain rfl := Option.some.inj h
  have hrest := after?_eq_some_iff.mp hrest
  have hvalue := after?_eq_some_iff.mp hvalue
  have hbehind : value <:+ Text.trimLeft rest := ⟨[':'], hvalue.symm⟩
  have hbehind : value <:+ cs := (hbehind.trans (Text.trimLeft_isSuffix rest)).trans ⟨spelling.toList, hrest.symm⟩
  exact (Text.trim_isInfix value).trans hbehind.isInfix

/-- What a line says is found behind the blanks it begins with. -/
theorem ofChars?_eq_some {l : Line} (h : ofChars? cs = some l) :
    l = .blank ∨ header? (Text.trimLeft cs) = some l ∨ transition? (Text.trimLeft cs) = some l := by
  unfold ofChars? at h
  split at h
  · exact .inl (Option.some.inj h).symm
  · cases hh : header? (Text.trimLeft cs) with
    | some k =>
      rw [hh] at h
      exact .inr (.inl h)
    | none =>
      rw [hh] at h
      exact .inr (.inr h)

theorem exists_of_header? {l : Line} (h : header? cs = some l) : ∃ k v, l = .header k v ∧ v <:+: cs := by
  obtain ⟨⟨spelling, k⟩, -, h⟩ := List.exists_of_findSome?_eq_some h
  obtain ⟨v, hv, rfl⟩ := Option.map_eq_some_iff.mp h
  exact ⟨k, v, rfl, isInfix_of_headerValue? hv⟩

/-- The number of a state, as it is written in a line. -/
structure IsNumberOf (cs ds : List Char) : Prop where
  isInfix : ds <:+: cs
  ne_nil : ds ≠ []
  digits : ∀ c ∈ ds, Text.isDecimalDigit c = true

theorem isNumberOf_of_arrowTarget? (h : arrowTarget? cs = some ds) : IsNumberOf cs ds := by
  simp only [arrowTarget?, Option.bind_eq_bind, Option.bind_eq_some_iff] at h
  obtain ⟨rest, hrest, ⟨t, r⟩, ht, h⟩ := h
  split at h
  · obtain rfl := Option.some.inj h
    obtain ⟨heq, hne, hd⟩ := digits?_eq_some ht
    have hrest : rest <:+ cs := ⟨_, (after?_eq_some_iff.mp hrest).symm⟩
    have hbehind : t ++ r <:+ cs := heq ▸ (Text.trimLeft_isSuffix rest).trans hrest
    exact ⟨(List.prefix_append t r).isInfix.trans hbehind.isInfix, hne, hd⟩
  · contradiction

theorem exists_of_transition? {l : Line} (h : transition? cs = some l) :
    ∃ s a t, l = .transition s a t ∧ IsNumberOf cs s ∧ IsNumberOf cs t := by
  simp only [transition?, Option.bind_eq_bind, Option.bind_eq_some_iff] at h
  obtain ⟨⟨s, r₁⟩, hs, r₂, h₂, ⟨a, r₃⟩, h₃, t, ht, h⟩ := h
  obtain ⟨rfl, hsne, hsd⟩ := digits?_eq_some hs
  have h₂ : r₂ <:+ r₁ := .trans ⟨_, (after?_eq_some_iff.mp h₂).symm⟩ (Text.trimLeft_isSuffix r₁)
  have h₃ : r₃ <:+ r₂ := (isSuffix_of_arrowSymbol? h₃).trans (Text.trimLeft_isSuffix r₂)
  have hbehind : r₃ <:+ s ++ r₁ := (h₃.trans h₂).trans (List.suffix_append s r₁)
  have ht := isNumberOf_of_arrowTarget? ht
  exact ⟨s, a, t, (Option.some.inj h).symm, ⟨(List.prefix_append s r₁).isInfix, hsne, hsd⟩,
    ⟨ht.isInfix.trans hbehind.isInfix, ht.ne_nil, ht.digits⟩⟩

/-- The value of a header is a part of its line. -/
theorem isInfix_of_header {k : Header} (h : ofChars? cs = some (.header k ds)) : ds <:+: cs := by
  rcases ofChars?_eq_some h with h | h | h
  · contradiction
  · obtain ⟨k, v, hkv, hv⟩ := exists_of_header? h
    obtain ⟨-, rfl⟩ := Line.header.inj hkv
    exact hv.trans (Text.trimLeft_isSuffix cs).isInfix
  · obtain ⟨s, a, t, hl, -⟩ := exists_of_transition? h
    contradiction

/-- The numbers of a transition are parts of its line. -/
theorem parts_of_transition (h : ofChars? cs = some (.transition ds a es)) : IsNumberOf cs ds ∧ IsNumberOf cs es := by
  rcases ofChars?_eq_some h with h | h | h
  · contradiction
  · obtain ⟨k, v, hl, -⟩ := exists_of_header? h
    contradiction
  · obtain ⟨s, b, t, hl, hs, ht⟩ := exists_of_transition? h
    obtain ⟨rfl, rfl, rfl⟩ := Line.transition.inj hl
    have hcs := (Text.trimLeft_isSuffix cs).isInfix
    exact ⟨⟨hs.isInfix.trans hcs, hs.ne_nil, hs.digits⟩, ⟨ht.isInfix.trans hcs, ht.ne_nil, ht.digits⟩⟩

/-! ## Written lines -/

theorem header?_name (h : Header) (cs : List Char) :
    header? (h.name.toList ++ ':' :: ' ' :: cs) = some (.header h (Text.trim cs)) := by
  cases h <;> rfl

/-- The line of a header says its value, without the blanks at its ends. -/
theorem ofChars?_header (h : Header) (cs : List Char) :
    ofChars? (h.name.toList ++ ':' :: ' ' :: cs) = some (.header h (Text.trim cs)) := by
  have hname : ofChars? (h.name.toList ++ ':' :: ' ' :: cs) =
      (header? (h.name.toList ++ ':' :: ' ' :: cs) <|> transition? (h.name.toList ++ ':' :: ' ' :: cs)) := by
    cases h <;> rfl
  rw [hname, header?_name]
  rfl

/-- The spellings of headers begin with letters. -/
theorem exists_of_mem_spellings {s : String × Header} (hs : s ∈ Header.spellings) :
    ∃ x xs, s.1.toList = x :: xs ∧ x.isDigit = false := by
  simp only [Header.spellings, List.mem_cons, List.not_mem_nil, or_false] at hs
  rcases hs with rfl | rfl | rfl | rfl
  all_goals exact ⟨_, _, rfl, rfl⟩

/-- No header begins with a digit. -/
theorem header?_digit (hc : c.isDigit = true) (cs : List Char) : header? (c :: cs) = none := by
  refine List.findSome?_eq_none_iff.mpr fun s hs => ?_
  obtain ⟨x, xs, hspelling, hx⟩ := exists_of_mem_spellings hs
  have hne : x ≠ c := by
    rintro rfl
    exact absurd hc (hx ▸ Bool.false_ne_true)
  show (headerValue? s.1 (c :: cs)).map _ = none
  rw [headerValue?, hspelling, after?, if_neg hne]
  rfl

theorem ofChars?_digits (hne : ds ≠ []) (hd : ∀ c ∈ ds, c.isDigit = true) (rest : List Char) :
    ofChars? (ds ++ rest) = transition? (ds ++ rest) := by
  cases ds with
  | nil => contradiction
  | cons d ds =>
    have hd := hd d (.head _)
    have hblank := Text.isBlank_eq_false_of_isDecimalDigit (Text.isDecimalDigit_of_isDigit hd)
    rw [List.cons_append, ofChars?, Text.trimLeft_cons hblank]
    show (header? (d :: (ds ++ rest)) <|> transition? (d :: (ds ++ rest))) = _
    rw [header?_digit hd]
    rfl

/-- A line that begins with a number and the beginning of an arrow. -/
theorem ofChars?_arrow (p : Nat) (cs : List Char) : ofChars? ((toString p).toList ++ (" --".toList ++ cs)) =
    (arrowSymbol? (Text.trimLeft cs)).bind fun (a, rest) =>
      (arrowTarget? rest).map (Line.transition (toString p).toList a) := by
  have hne := Text.toList_toString_ne_nil p
  have hspace : ∀ c ∈ (" --".toList ++ cs).head?, Text.isDecimalDigit c = false := by
    intro c hc
    obtain rfl := Option.some.inj hc
    decide
  rw [ofChars?_digits hne fun c hc => Text.isDigit_of_mem_toString hc, transition?,
    digits?_append hne (fun c hc => Text.isDecimalDigit_of_mem_toString hc) hspace]
  show (arrowSymbol? (Text.trimLeft cs)).bind _ = _
  congr 1
  funext ⟨a, rest⟩
  show (arrowTarget? rest).bind _ = (arrowTarget? rest).map _
  cases arrowTarget? rest <;> rfl

/-- The end of an arrow and a number. -/
theorem arrowTarget?_tip (q : Nat) : arrowTarget? ("--> ".toList ++ (toString q).toList) = some (toString q).toList := by
  have hne := Text.toList_toString_ne_nil q
  have hd : ∀ c ∈ (toString q).toList, Text.isDecimalDigit c = true := fun c hc => Text.isDecimalDigit_of_mem_toString hc
  generalize (toString q).toList = ds at hne hd
  have hdigits : digits? ds = some (ds, []) := by
    have h : digits? (ds ++ []) = some (ds, []) := digits?_append hne hd nofun
    rwa [List.append_nil] at h
  have htrim : Text.trimLeft (' ' :: ds) = ds := by
    cases ds with
    | nil => contradiction
    | cons d ds =>
      rw [Text.trimLeft_blank (by decide), Text.trimLeft_cons]
      exact Text.isBlank_eq_false_of_isDecimalDigit (hd d (.head _))
  show (digits? (Text.trimLeft (' ' :: ds))).bind _ = _
  rw [htrim, hdigits]
  rfl

/-! ## Transitions -/

/-- A symbol that can stand in the line of a transition. -/
def IsWritable (a : Symbol) : Prop := a = epsilon ∨ ∃ c : Char, c.isAlphanum = true ∧ a = String.singleton c

theorem toList_transitionText_epsilon (p q : Nat) : (transitionText (p, epsilon, q)).toList =
    (toString p).toList ++ (" --".toList ++ ("--> ".toList ++ (toString q).toList)) := by
  rw [transitionText, if_pos rfl, String.toList_append, String.toList_append, List.append_assoc]
  rfl

/-- The line of a transition on a character, cut before the character. -/
theorem toList_transitionText (hc : c ≠ 'ε') (p q : Nat) : (transitionText (p, String.singleton c, q)).toList =
    (toString p).toList ++ (" --".toList ++ [' ', '\'']) ++ c :: '\'' :: ' ' :: ("--> ".toList ++ (toString q).toList) := by
  rw [transitionText, if_neg (singleton_ne_epsilon hc)]
  simp only [String.toList_append, String.toList_singleton, List.append_assoc]
  rfl

/-- The line of a transition says the transition. -/
theorem ofChars?_transition (ha : IsWritable a) (p q : Nat) : ofChars? (transitionText (p, a, q)).toList =
    some (.transition (toString p).toList a (toString q).toList) := by
  have htip : ∀ b, (arrowTarget? ("--> ".toList ++ (toString q).toList)).map (Line.transition (toString p).toList b) =
      some (.transition (toString p).toList b (toString q).toList) := fun b => by
    rw [arrowTarget?_tip]
    rfl
  rcases ha with rfl | ⟨c, hc, rfl⟩
  · rw [toList_transitionText_epsilon, ofChars?_arrow]
    exact htip epsilon
  · have hne : c ≠ 'ε' := by
      rintro rfl
      exact absurd hc (by decide)
    rw [toList_transitionText hne, List.append_assoc, List.append_assoc, ofChars?_arrow]
    show (arrowSymbol? ('\'' :: c :: '\'' :: ' ' :: ("--> ".toList ++ (toString q).toList))).bind _ = _
    rw [arrowSymbol?, if_pos hc]
    exact htip (String.singleton c)

/-- The line of a transition on a character that is neither an ASCII letter nor a digit says nothing. -/
theorem ofChars?_transition_eq_none (hc : c.isAlphanum = false) (hne : c ≠ 'ε') (p q : Nat) :
    ofChars? (transitionText (p, String.singleton c, q)).toList = none := by
  rw [toList_transitionText hne, List.append_assoc, List.append_assoc, ofChars?_arrow]
  show (arrowSymbol? ('\'' :: c :: '\'' :: ' ' :: ("--> ".toList ++ (toString q).toList))).bind _ = _
  rw [arrowSymbol?, if_neg (Bool.eq_false_iff.mp hc)]
  rfl

/-- The line of a transition that is cut before its symbol says nothing. -/
theorem ofChars?_cut (p : Nat) : ofChars? ((toString p).toList ++ (" --".toList ++ [' ', '\''])) = none := by
  rw [ofChars?_arrow]
  rfl

end Line

end FormalLang
