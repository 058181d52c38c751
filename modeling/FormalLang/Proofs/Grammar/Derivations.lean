import FormalLang.Grammar.Derivation

/-!
# What sequences derive

A sequence of letters derives what its parts derive, side by side. So it can be read off letter by letter which words it
derives and what they begin with.

* `Letter.erase_eq_append_cons_iff`: where a nonterminal stands when ε is erased.
* `Grammar.derives_append_iff`: what a concatenation derives.
* `Grammar.generates_iff`: a word is derived as terminals, some of which may be ε.
* `Grammar.exists_word_of_forall`: words for the letters make a word for the sequence.
* `Grammar.begins_append_iff`: a concatenation begins with what its first part begins with, and if that vanishes, with
  what its second part begins with.
-/

namespace FormalLang

/-- An element of a concatenation is in its first or in its second part. -/
theorem append_eq_append_cons {α : Type} {u v x y : List α} {a : α} (h : u ++ v = x ++ a :: y) :
    (∃ m, u = x ++ a :: m ∧ y = m ++ v) ∨ ∃ m, x = u ++ m ∧ v = m ++ a :: y := by
  rcases List.append_eq_append_iff.mp h with ⟨m, hx, hv⟩ | ⟨m, hu, hy⟩
  · exact .inr ⟨m, hx, hv⟩
  · cases m with
    | nil => exact .inr ⟨[], by simpa using hu.symm, by simpa using hy.symm⟩
    | cons b m =>
      obtain ⟨rfl, rfl⟩ := List.cons.inj hy
      exact .inl ⟨m, hu, rfl⟩

/-- Letters without a nonterminal are the terminals of a word. -/
theorem Letter.exists_eq_map_terminal {u : List Letter} (h : ∀ n, Letter.nonterminal n ∉ u) :
    ∃ w : List Symbol, u = w.map .terminal := by
  induction u with
  | nil => exact ⟨[], rfl⟩
  | cons l u ih =>
    obtain ⟨w, rfl⟩ := ih fun n hn => h n (.tail _ hn)
    cases l with
    | nonterminal n => exact absurd (.head _) (h n)
    | terminal a => exact ⟨a :: w, rfl⟩

theorem Letter.nonterminal_not_mem_map_terminal (n : Int) (w : List Symbol) :
    Letter.nonterminal n ∉ w.map Letter.terminal := by
  simp

@[simp] theorem Letter.isEpsilon_terminal (a : Symbol) : (Letter.terminal a).isEpsilon = decide (a = epsilon) := by
  simp [Letter.isEpsilon]

theorem Letter.mem_erase {l : Letter} {u : List Letter} : l ∈ erase u ↔ l ∈ u ∧ l ≠ .terminal epsilon := by
  simp [erase, isEpsilon]

theorem Letter.erase_map_terminal (w : List Symbol) :
    erase (w.map .terminal) = (w.filter (· ≠ epsilon)).map .terminal := by
  induction w with
  | nil => rfl
  | cons a w ih =>
    rw [erase] at ih
    by_cases ha : a = epsilon <;> simp [erase, ha, ih]

theorem Letter.head?_erase_map_terminal (w : List Symbol) :
    (erase (w.map .terminal)).head? = (w.find? (· ≠ epsilon)).map .terminal := by
  rw [erase_map_terminal, List.head?_map, List.head?_filter]

/-- If only terminals remain when ε is erased, there were only terminals. -/
theorem Letter.erase_eq_map_terminal_iff {u : List Letter} {w : List Symbol} :
    erase u = w.map .terminal ↔ ∃ w' : List Symbol, u = w'.map .terminal ∧ w'.filter (· ≠ epsilon) = w := by
  have hinj : Function.Injective Letter.terminal := fun a b h => Letter.terminal.inj h
  constructor
  · intro h
    obtain ⟨w', rfl⟩ := exists_eq_map_terminal (u := u) fun n hn =>
      nonterminal_not_mem_map_terminal n w (h ▸ mem_erase.mpr ⟨hn, nofun⟩)
    rw [erase_map_terminal] at h
    exact ⟨w', rfl, (List.map_inj_right hinj).mp h⟩
  · rintro ⟨w', rfl, rfl⟩
    exact erase_map_terminal w'

theorem Letter.erase_nonterminal_cons (n : Int) (u : List Letter) :
    erase (.nonterminal n :: u) = .nonterminal n :: erase u := List.filter_cons_of_pos (by simp [isEpsilon])

/-- A nonterminal stands where it stood before ε was erased. -/
theorem Letter.erase_eq_append_cons_iff {u s t : List Letter} {n : Int} :
    erase u = s ++ .nonterminal n :: t ↔ ∃ x y, u = x ++ .nonterminal n :: y ∧ erase x = s ∧ erase y = t := by
  constructor
  · intro h
    obtain ⟨x, z, rfl, hx, hz⟩ := List.filter_eq_append_iff.mp h
    obtain ⟨e, y, rfl, he, -, hy⟩ := List.filter_eq_cons_iff.mp hz
    have he : erase e = [] := List.filter_eq_nil_iff.mpr he
    refine ⟨x ++ e, y, by simp, ?_, hy⟩
    rw [erase_append, he, List.append_nil]
    exact hx
  · rintro ⟨x, y, rfl, rfl, rfl⟩
    rw [erase_append, erase_nonterminal_cons]

namespace Grammar

variable {g : Grammar} {u v x : List Letter}

/-! ## Derivations -/

theorem Derives.left (h : g.Derives u v) (x : List Letter) : g.Derives (u ++ x) (v ++ x) := h.append (.refl x)

/-- A concatenation derives what its parts derive side by side. -/
theorem derives_append_iff :
    g.Derives (u ++ v) x ↔ ∃ y z, g.Derives u y ∧ g.Derives v z ∧ x = y ++ z := by
  constructor
  · intro h
    induction h with
    | refl => exact ⟨u, v, .refl u, .refl v, rfl⟩
    | @step x' y' p _ hp ih =>
      obtain ⟨y, z, hy, hz, h⟩ := ih
      -- The nonterminal that is replaced belongs to the second part or to the first.
      rcases List.append_eq_append_iff.mp h with ⟨m, rfl, hm⟩ | ⟨m, hm, rfl⟩
      · cases m with
        | nil =>
          obtain rfl : z = .nonterminal p.head :: y' := by simpa using hm.symm
          refine ⟨x', p.body ++ y', by simpa using hy, ?_, by simp⟩
          exact Derives.step (x := []) hz hp
        | cons l m =>
          obtain ⟨rfl, rfl⟩ := List.cons.inj hm
          refine ⟨x' ++ p.body ++ m, z, .step hy hp, hz, by simp⟩
      · subst hm
        refine ⟨y, m ++ p.body ++ y', hy, .step hz hp, by simp⟩
  · rintro ⟨y, z, hy, hz, rfl⟩
    exact hy.append hz

/-- Terminals derive only themselves. -/
theorem derives_map_terminal_iff {w : List Symbol} : g.Derives (w.map .terminal) x ↔ x = w.map .terminal := by
  refine ⟨fun h => ?_, fun h => h ▸ .refl _⟩
  induction h with
  | refl => rfl
  | @step x' y' p _ hp ih =>
    have hmem : Letter.nonterminal p.head ∈ w.map Letter.terminal := by
      rw [← ih]
      simp
    exact absurd hmem (Letter.nonterminal_not_mem_map_terminal _ _)

theorem derives_head {p : Production} (hp : p ∈ g.productions) (h : g.Derives p.body x) :
    g.Derives [.nonterminal p.head] x := (Derives.production hp).trans h

/-! ## Words -/

/-- A word is derived as terminals, among which there may be ε. -/
theorem generates_iff {w : List Symbol} :
    g.Generates u w ↔ ∃ w' : List Symbol, g.Derives u (w'.map .terminal) ∧ w'.filter (· ≠ epsilon) = w := by
  constructor
  · rintro ⟨v, hv, h⟩
    obtain ⟨w', rfl, hw⟩ := Letter.erase_eq_map_terminal_iff.mp h
    exact ⟨w', hv, hw⟩
  · rintro ⟨w', hd, hw⟩
    exact ⟨_, hd, Letter.erase_eq_map_terminal_iff.mpr ⟨w', rfl, hw⟩⟩

theorem vanishes_nil (g : Grammar) : g.Vanishes [] := ⟨[], .refl _, rfl⟩

/-- A concatenation vanishes if both its parts do. -/
theorem vanishes_append_iff : g.Vanishes (u ++ v) ↔ g.Vanishes u ∧ g.Vanishes v := by
  constructor
  · rintro ⟨x, hx, he⟩
    obtain ⟨y, z, hy, hz, rfl⟩ := derives_append_iff.mp hx
    obtain ⟨hy', hz'⟩ := List.append_eq_nil_iff.mp ((Letter.erase_append y z).symm.trans he)
    exact ⟨⟨y, hy, hy'⟩, z, hz, hz'⟩
  · rintro ⟨⟨y, hy, hy'⟩, z, hz, hz'⟩
    refine ⟨y ++ z, hy.append hz, ?_⟩
    rw [Letter.erase_append, hy', hz']
    rfl

/-- If all nonterminals of a sequence derive words of allowed terminals, and its terminals are allowed, then the sequence
derives such a word. -/
theorem exists_word_of_forall {allowed : Symbol → Prop}
    (hn : ∀ n, Letter.nonterminal n ∈ u →
      ∃ w : List Symbol, (∀ a ∈ w, allowed a) ∧ g.Derives [.nonterminal n] (w.map .terminal))
    (ha : ∀ a, Letter.terminal a ∈ u → allowed a) :
    ∃ w : List Symbol, (∀ a ∈ w, allowed a) ∧ g.Derives u (w.map .terminal) := by
  induction u with
  | nil => exact ⟨[], nofun, .refl _⟩
  | cons l u ih =>
    obtain ⟨w, hw, hd⟩ := ih (fun n h => hn n (.tail _ h)) (fun a h => ha a (.tail _ h))
    obtain ⟨w', hw', hd'⟩ : ∃ w : List Symbol, (∀ a ∈ w, allowed a) ∧ g.Derives [l] (w.map .terminal) := by
      cases l with
      | nonterminal n => exact hn n (.head _)
      | terminal a => exact ⟨[a], by simpa using ha a (.head _), .refl _⟩
    refine ⟨w' ++ w, fun a h => ?_, ?_⟩
    · exact (List.mem_append.mp h).elim (hw' a) (hw a)
    · rw [List.map_append]
      exact hd'.append hd

/-! ## First letters -/

/-- A sequence that begins with a terminal, once ε is erased, is derived from a sequence of letters. -/
def Begins (g : Grammar) (u : List Letter) (a : Symbol) : Prop :=
  ∃ v, g.Derives u v ∧ (Letter.erase v).head? = some (.terminal a)

variable {a b : Symbol}

theorem Begins.ne_epsilon (h : g.Begins u a) : a ≠ epsilon := by
  obtain ⟨v, -, hv⟩ := h
  rintro rfl
  exact (Letter.mem_erase.mp (List.mem_of_mem_head? hv)).2 rfl

theorem not_begins_nil : ¬ g.Begins [] a := by
  rintro ⟨v, hd, hv⟩
  obtain rfl := (derives_map_terminal_iff (w := [])).mp hd
  cases hv

theorem begins_append_iff : g.Begins (u ++ v) a ↔ g.Begins u a ∨ g.Vanishes u ∧ g.Begins v a := by
  constructor
  · rintro ⟨x, hx, ha⟩
    obtain ⟨y, z, hy, hz, rfl⟩ := derives_append_iff.mp hx
    rw [Letter.erase_append] at ha
    cases he : Letter.erase y with
    | nil =>
      rw [he, List.nil_append] at ha
      exact .inr ⟨⟨y, hy, he⟩, z, hz, ha⟩
    | cons l m =>
      rw [he, List.cons_append, List.head?_cons] at ha
      exact .inl ⟨y, hy, by rw [he, List.head?_cons, ha]⟩
  · rintro (⟨y, hy, ha⟩ | ⟨⟨y, hy, he⟩, z, hz, ha⟩)
    · refine ⟨y ++ v, hy.left v, ?_⟩
      rw [Letter.erase_append, List.head?_append, ha]
      rfl
    · refine ⟨y ++ z, hy.append hz, ?_⟩
      rw [Letter.erase_append, he]
      exact ha

theorem Begins.of_derives (h : g.Derives u v) (hb : g.Begins v a) : g.Begins u a := by
  obtain ⟨x, hx, ha⟩ := hb
  exact ⟨x, h.trans hx, ha⟩

/-- A terminal other than ε begins with itself. -/
theorem begins_terminal (ha : a ≠ epsilon) : g.Begins [.terminal a] a :=
  ⟨_, .refl _, by simp [Letter.erase, ha]⟩

end Grammar

end FormalLang
