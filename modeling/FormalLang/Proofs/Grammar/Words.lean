import FormalLang.Proofs.Grammar.Derivations

/-!
# Words of terminals

A derivation of a word of terminals can be made rightmost. If every nonterminal of a grammar's bodies derives a word,
whatever a sequence can begin with stands at the beginning of a word that the sequence derives.

* `Grammar.RightDerives.context`: a rightmost derivation goes on before terminals.
* `Grammar.derives_iff_yields`: a word is derived if it is yielded letter by letter.
* `Grammar.Derives.rightmost`: a word of terminals that is derived is also derived rightmost.
* `Grammar.Finishing.exists_word_of_begins`: a word with a given first letter.
-/

namespace FormalLang

namespace Grammar

variable {g : Grammar} {u v : List Letter} {w : List Symbol}

/-! ## Rightmost derivations -/

theorem RightDerives.trans {x : List Letter} (h : g.RightDerives u v) (k : g.RightDerives v x) :
    g.RightDerives u x := by
  induction k with
  | refl => exact h
  | step _ hp ih => exact .step ih hp

theorem RightDerives.context (h : g.RightDerives u v) (x : List Letter) (w : List Symbol) :
    g.RightDerives (x ++ u ++ w.map .terminal) (x ++ v ++ w.map .terminal) := by
  induction h with
  | refl => exact .refl _
  | @step x' p w' _ hp ih =>
    have h := RightDerives.step (x := x ++ x') (w := w' ++ w) (p := p) (by simpa using ih) hp
    simpa using h

/-- A word of terminals is derived from a sequence, letter by letter and each nonterminal by a production. -/
inductive Yields (g : Grammar) : List Letter → List Symbol → Prop where
  | nil : Yields g [] []
  | terminal {a u w} : Yields g u w → Yields g (.terminal a :: u) (a :: w)
  | nonterminal {p u w w'} : p ∈ g.productions → Yields g p.body w → Yields g u w' →
      Yields g (.nonterminal p.head :: u) (w ++ w')

theorem yields_map_terminal (g : Grammar) (w : List Symbol) : g.Yields (w.map .terminal) w := by
  induction w with
  | nil => exact .nil
  | cons a w ih => exact .terminal ih

theorem Yields.append {x : List Letter} {w' : List Symbol} (h : g.Yields u w) (k : g.Yields x w') :
    g.Yields (u ++ x) (w ++ w') := by
  induction h with
  | nil => exact k
  | terminal _ ih => exact .terminal ih
  | nonterminal hp hb _ _ ih =>
    rw [List.append_assoc]
    exact .nonterminal hp hb ih

theorem Yields.exists_append {x : List Letter} (h : g.Yields (u ++ x) w) :
    ∃ w₁ w₂, g.Yields u w₁ ∧ g.Yields x w₂ ∧ w = w₁ ++ w₂ := by
  induction u generalizing w with
  | nil => exact ⟨[], w, .nil, h, rfl⟩
  | cons l u ih =>
    cases h with
    | terminal h =>
      obtain ⟨w₁, w₂, h₁, h₂, rfl⟩ := ih h
      exact ⟨_ :: w₁, w₂, .terminal h₁, h₂, rfl⟩
    | nonterminal hp hb h =>
      obtain ⟨w₁, w₂, h₁, h₂, rfl⟩ := ih h
      exact ⟨_, w₂, .nonterminal hp hb h₁, h₂, (List.append_assoc _ _ _).symm⟩

/-- A derivation undone step by step: what derives a sequence yields the words that the sequence yields. -/
theorem Yields.of_derives (h : g.Derives u v) (k : g.Yields v w) : g.Yields u w := by
  induction h generalizing w with
  | refl => exact k
  | @step x y p _ hp ih =>
    obtain ⟨w', w₃, h', h₃, rfl⟩ := k.exists_append
    obtain ⟨w₁, w₂, h₁, h₂, rfl⟩ := h'.exists_append
    refine ih ?_
    rw [List.append_assoc]
    exact h₁.append (.nonterminal hp h₂ h₃)

theorem yields_nil_iff : g.Yields [] w ↔ w = [] := by
  constructor
  · rintro ⟨⟩
    rfl
  · rintro rfl
    exact .nil

theorem yields_terminal_cons_iff {a : Symbol} :
    g.Yields (.terminal a :: u) w ↔ ∃ w', w = a :: w' ∧ g.Yields u w' := by
  constructor
  · intro h
    cases h with
    | terminal h => exact ⟨_, rfl, h⟩
  · rintro ⟨w', rfl, h⟩
    exact .terminal h

/-- A nonterminal yields what the bodies of its productions yield. -/
theorem yields_nonterminal_iff {n : Int} :
    g.Yields [.nonterminal n] w ↔ ∃ p ∈ g.productions, p.head = n ∧ g.Yields p.body w := by
  constructor
  · intro h
    cases h with
    | @nonterminal p _ _ _ hp hb hnil =>
      cases hnil
      exact ⟨p, hp, rfl, by rwa [List.append_nil]⟩
  · rintro ⟨p, hp, rfl, hb⟩
    simpa using Yields.nonterminal hp hb .nil

theorem Yields.rightDerives (h : g.Yields u w) : g.RightDerives u (w.map .terminal) := by
  induction h with
  | nil => exact .refl _
  | @terminal a u w _ ih => simpa using ih.context [.terminal a] []
  | @nonterminal p u w w' hp _ _ ihb ih =>
    -- The letters behind the nonterminal are worked off first.
    have hrest : g.RightDerives (.nonterminal p.head :: u) (.nonterminal p.head :: w'.map .terminal) := by
      simpa using ih.context [.nonterminal p.head] []
    have hbody : g.RightDerives (p.body ++ w'.map .terminal) ((w ++ w').map .terminal) := by
      simpa using ihb.context [] w'
    exact (RightDerives.step (x := []) hrest hp).trans hbody

/-- A word of terminals that is derived is also derived by always replacing the last nonterminal. -/
theorem Derives.rightmost (h : g.Derives u (w.map .terminal)) : g.RightDerives u (w.map .terminal) :=
  (Yields.of_derives h (g.yields_map_terminal w)).rightDerives

theorem derives_iff_yields : g.Derives u (w.map .terminal) ↔ g.Yields u w :=
  ⟨fun h => .of_derives h (g.yields_map_terminal w), fun h => h.rightDerives.derives⟩

/-! ## Nonterminals that derive words -/

/-- The letters are terminals and nonterminals that derive a word. -/
def Finishes (g : Grammar) (u : List Letter) : Prop :=
  ∀ n, Letter.nonterminal n ∈ u → ∃ w : List Symbol, g.Derives [.nonterminal n] (w.map .terminal)

/-- All letters of the bodies can become words. -/
def Finishing (g : Grammar) : Prop := ∀ p ∈ g.productions, g.Finishes p.body

theorem Finishes.exists_word (h : g.Finishes u) : ∃ w : List Symbol, g.Derives u (w.map .terminal) := by
  have hu : ∀ n, Letter.nonterminal n ∈ u →
      ∃ w : List Symbol, (∀ a ∈ w, True) ∧ g.Derives [.nonterminal n] (w.map .terminal) :=
    fun n hn => (h n hn).imp fun _ hw => ⟨fun _ _ => trivial, hw⟩
  obtain ⟨w, -, hw⟩ := exists_word_of_forall hu fun _ _ => trivial
  exact ⟨w, hw⟩

theorem Finishing.finishes_of_derives (hg : g.Finishing) (hu : g.Finishes u) (hd : g.Derives u v) :
    g.Finishes v := by
  induction hd with
  | refl => exact hu
  | @step x y p _ hp ih =>
    intro n hn
    rcases List.mem_append.mp hn with hn | hn
    · rcases List.mem_append.mp hn with hn | hn
      · exact ih n (List.mem_append_left _ hn)
      · exact hg p hp n hn
    · exact ih n (List.mem_append_right _ (.tail _ hn))

/-- Letters of which the first visible one is a terminal derive only words that have this terminal as their first
visible symbol. -/
theorem find?_of_derives {a : Symbol} (ha : (Letter.erase u).head? = some (.terminal a))
    (hd : g.Derives u (w.map .terminal)) : w.find? (· ≠ epsilon) = some a := by
  induction u generalizing w with
  | nil => cases ha
  | cons l u ih =>
    cases l with
    | nonterminal n => simp [Letter.erase, Letter.isEpsilon] at ha
    | terminal b =>
      have hd : g.Derives ([.terminal b] ++ u) (w.map .terminal) := hd
      obtain ⟨y, z, hy, hz, hw⟩ := derives_append_iff.mp hd
      obtain rfl : y = [.terminal b] := (derives_map_terminal_iff (w := [b])).mp hy
      obtain ⟨c, w, rfl, hc, rfl⟩ := List.map_eq_cons_iff.mp hw
      obtain rfl := Letter.terminal.inj hc
      by_cases hb : c = epsilon
      · rw [List.find?_cons_of_neg (by simpa using hb)]
        exact ih (by simpa [Letter.erase, hb] using ha) hz
      · rw [List.find?_cons_of_pos (by simpa using hb)]
        simpa [Letter.erase, hb] using ha

/-- Whatever a sequence can begin with is the first visible symbol of a word that it derives. -/
theorem Finishing.exists_word_of_begins {a : Symbol} (hg : g.Finishing) (hu : g.Finishes u) (ha : g.Begins u a) :
    ∃ w : List Symbol, g.Derives u (w.map .terminal) ∧ w.find? (· ≠ epsilon) = some a := by
  obtain ⟨v, hv, ha⟩ := ha
  obtain ⟨w, hw⟩ := (hg.finishes_of_derives hu hv).exists_word
  exact ⟨w, hv.trans hw, find?_of_derives ha hw⟩

end Grammar

end FormalLang
