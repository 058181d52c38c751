import FormalLang.Proofs.Regex.Meaning

/-!
# The symbols of an expression

An expression has a word for each of its literals, since every expression around the literal has words for its other
parts. So expressions with the same words have the same literals. A tree that is read has only letters and digits.

* `Regex.mem_literals_iff`: the literals are the symbols of the words.
* `Regex.Equivalent.mem_literals_iff`: expressions with the same words have the same literals.
* `Regex.isAlphanumeric_of_shape`, `isPlain_of_read`: the literals of a tree that is read.
-/

namespace FormalLang

namespace Regex

variable {r s : Regex} {a : Symbol}

theorem mem_literals_of_matches {w : List Symbol} (h : r.Matches w) : ∀ a ∈ w, a ∈ r.literals := by
  induction h with
  | literal a => exact fun b hb => hb
  | concat _ _ ihu ihv =>
    exact List.forall_mem_append.mpr ⟨fun a ha => List.mem_append_left _ (ihu a ha),
      fun a ha => List.mem_append_right _ (ihv a ha)⟩
  | left _ ih => exact fun a ha => List.mem_append_left _ (ih a ha)
  | right _ ih => exact fun a ha => List.mem_append_right _ (ih a ha)
  | none => exact fun a ha => absurd ha List.not_mem_nil
  | more _ _ ihu ihv => exact List.forall_mem_append.mpr ⟨ihu, ihv⟩

theorem exists_matches (r : Regex) : ∃ w, r.Matches w := by
  induction r with
  | literal a => exact ⟨_, .literal a⟩
  | concat l r ihl ihr =>
    obtain ⟨u, hu⟩ := ihl
    obtain ⟨v, hv⟩ := ihr
    exact ⟨_, .concat hu hv⟩
  | alternation l r ihl _ =>
    obtain ⟨u, hu⟩ := ihl
    exact ⟨u, .left hu⟩
  | star r _ => exact ⟨[], .none⟩

/-- Every literal stands in some word: each expression around it has words for its other parts. -/
theorem exists_matches_of_mem_literals (ha : a ∈ r.literals) : ∃ w, r.Matches w ∧ a ∈ w := by
  induction r with
  | literal b => exact ⟨[b], .literal b, ha⟩
  | concat l r ihl ihr =>
    rcases List.mem_append.mp ha with ha | ha
    · obtain ⟨u, hu, hau⟩ := ihl ha
      obtain ⟨v, hv⟩ := exists_matches r
      exact ⟨u ++ v, .concat hu hv, List.mem_append_left _ hau⟩
    · obtain ⟨u, hu⟩ := exists_matches l
      obtain ⟨v, hv, hav⟩ := ihr ha
      exact ⟨u ++ v, .concat hu hv, List.mem_append_right _ hav⟩
  | alternation l r ihl ihr =>
    rcases List.mem_append.mp ha with ha | ha
    · obtain ⟨u, hu, hau⟩ := ihl ha
      exact ⟨u, .left hu, hau⟩
    · obtain ⟨v, hv, hav⟩ := ihr ha
      exact ⟨v, .right hv, hav⟩
  | star r ih =>
    obtain ⟨u, hu, hau⟩ := ih ha
    exact ⟨u ++ [], .more hu .none, List.mem_append_left _ hau⟩

theorem mem_literals_iff : a ∈ r.literals ↔ ∃ w, r.Matches w ∧ a ∈ w :=
  ⟨exists_matches_of_mem_literals, fun ⟨_, hw, ha⟩ => mem_literals_of_matches hw a ha⟩

theorem Equivalent.mem_literals_iff (h : Equivalent r s) : a ∈ r.literals ↔ a ∈ s.literals := by
  rw [Regex.mem_literals_iff, Regex.mem_literals_iff]
  simp only [h _]

/-- The literals of a tree that is read are single letters and digits. -/
theorem isAlphanumeric_of_shape {p : Piece} {cs : List Char} (h : Shape p cs r) : r.IsAlphanumeric := by
  have hsymbol : ∀ {c : Char} {starred : Bool}, isSymbolChar c = true →
      (starIf starred (literal (String.singleton c))).IsAlphanumeric := by
    intro c starred hc a ha
    exact ⟨c, hc, List.mem_singleton.mp (mem_literals_starIf.mp ha)⟩
  induction h with
  | symbol starred hc => exact hsymbol hc
  | moreSymbols starred _ hc ih => exact List.forall_mem_append.mpr ⟨ih, hsymbol hc⟩
  | group starred _ ih => exact fun a ha => ih a (mem_literals_starIf.mp ha)
  | firstRun _ ih => exact ih
  | firstGroup _ ih => exact ih
  | nextRun _ _ ihl ihr => exact List.forall_mem_append.mpr ⟨ihl, ihr⟩
  | nextGroup _ _ ihl ihr => exact List.forall_mem_append.mpr ⟨ihl, ihr⟩
  | term _ ih => exact ih
  | alternation _ _ ihl ihr => exact List.forall_mem_append.mpr ⟨ihl, ihr⟩

theorem IsAlphanumeric.isPlain (h : r.IsAlphanumeric) : r.IsPlain := by
  intro a ha
  obtain ⟨c, hc, rfl⟩ := h a ha
  refine ⟨c, rfl, fun heq => ?_⟩
  have : c = 'ε' := by simpa [epsilon] using congrArg String.toList heq
  subst this
  exact absurd hc (by decide)

theorem isPlain_of_read {text : String} (h : read text = .ok r) : r.IsPlain :=
  (isAlphanumeric_of_shape (read_iff_shape.mp h)).isPlain

end Regex

end FormalLang
