import FormalLang.Proofs.Grammar.Marking
import FormalLang.Proofs.Grammar.SymbolTables

/-!
# First sets

The first set of a sequence, as the tables have it, holds exactly the terminals that what the sequence derives can begin
with. That it holds no others is kept by each round. That it holds all of them is shown backwards along a derivation:
once a round adds nothing, undoing a step of a derivation loses nothing of the first set.

* `FirstFollow.mem_sequenceFirst_append`: the first set of a concatenation.
* `FirstFollow.mem_sequenceFirst_iff_exists`: which letter a symbol of a first set comes from.
* `FirstFollow.begins_of_mem_sequenceFirst`: soundness, for any sound table.
* `FirstFollow.mem_sequenceFirst_of_derives`: a sequence has what it derives in its first set.
* `FirstFollow.mem_sequenceFirst_iff`, `FirstFollow.epsilon_mem_sequenceFirst_iff`: first sets are exact.
-/

namespace FormalLang

namespace FirstFollow

open Grammar

variable {g : Grammar} {nullable : OrderedSet Int} {t t' : SymbolTable} {u v : List Letter} {a : Symbol} {n : Int}

theorem mem_visible {s : OrderedSet Symbol} : a ∈ visible s ↔ a ∈ s ∧ a ≠ epsilon := by
  simp [visible]

/-! ## First sets of sequences -/

theorem epsilon_mem_sequenceFirst : epsilon ∈ sequenceFirst nullable t u ↔ canVanish nullable u = true := by
  induction u with
  | nil => simp [sequenceFirst, canVanish]
  | cons l u ih =>
    rw [← List.singleton_append, letterwise_canVanish.append_iff, ← ih]
    cases l with
    | nonterminal n =>
      rw [letterwise_canVanish.nonterminal_iff, List.singleton_append, sequenceFirst]
      split
      · next hn => simp [hn]
      · next hn => simp [hn]
    | terminal b =>
      rw [List.singleton_append, sequenceFirst]
      split
      · next hb => simp [canVanish, hb]
      · next hb => simp [canVanish, hb, eq_comm]

/-- The first set of a concatenation is that of its first part, with that of its second part if the first may
vanish. -/
theorem mem_sequenceFirst_append (ha : a ≠ epsilon) :
    a ∈ sequenceFirst nullable t (u ++ v) ↔
      a ∈ sequenceFirst nullable t u ∨ canVanish nullable u = true ∧ a ∈ sequenceFirst nullable t v := by
  induction u with
  | nil => simp [sequenceFirst, canVanish, ha]
  | cons l u ih =>
    rw [List.cons_append, ← List.singleton_append (l := u), letterwise_canVanish.append_iff, List.singleton_append]
    cases l with
    | nonterminal n =>
      rw [letterwise_canVanish.nonterminal_iff, sequenceFirst, sequenceFirst]
      split
      · next hn => simp [hn, ih, or_assoc]
      · next hn => simp [hn]
    | terminal b =>
      rw [sequenceFirst, sequenceFirst]
      split
      · next hb => simp [canVanish, hb, ih]
      · next hb => simp [canVanish, hb]

/-- The symbol is the letter itself, or in the set of the nonterminal. -/
def Starts (t : SymbolTable) (a : Symbol) : Letter → Prop
  | .nonterminal n => a ∈ t.getD n ∅
  | .terminal b => a = b

theorem mem_sequenceFirst_singleton {l : Letter} (ha : a ≠ epsilon) :
    a ∈ sequenceFirst nullable t [l] ↔ Starts t a l := by
  cases l with
  | nonterminal n =>
    rw [sequenceFirst, Starts]
    split <;> simp [sequenceFirst, mem_visible, ha]
  | terminal b =>
    rw [sequenceFirst, Starts]
    split
    · next hb => simp [sequenceFirst, ha, hb]
    · simp

/-- A symbol of a first set comes from the first letter that has it, and the letters before that one may vanish. -/
theorem mem_sequenceFirst_iff_exists (ha : a ≠ epsilon) : a ∈ sequenceFirst nullable t u ↔
    ∃ v l w, u = v ++ l :: w ∧ canVanish nullable v = true ∧ Starts t a l := by
  induction u with
  | nil => simp [sequenceFirst, ha]
  | cons l u ih =>
    rw [← List.singleton_append, mem_sequenceFirst_append ha, mem_sequenceFirst_singleton ha, ih]
    constructor
    · rintro (h | ⟨hl, v, m, w, rfl, hv, h⟩)
      · exact ⟨[], l, u, rfl, rfl, h⟩
      · have hlv : canVanish nullable ([l] ++ v) = true := letterwise_canVanish.append_iff.mpr ⟨hl, hv⟩
        exact ⟨l :: v, m, w, rfl, hlv, h⟩
    · rintro ⟨v, m, w, hu, hv, h⟩
      cases v with
      | nil =>
        obtain ⟨rfl, rfl⟩ := List.cons.inj hu
        exact .inl h
      | cons k v =>
        obtain ⟨rfl, rfl⟩ := List.cons.inj hu
        rw [← List.singleton_append, letterwise_canVanish.append_iff] at hv
        exact .inr ⟨hv.1, v, m, w, rfl, hv.2, h⟩

/-- A symbol of a first set stands in the sequence or is in the set of a nonterminal. -/
theorem exists_mem_of_mem_sequenceFirst (ha : a ≠ epsilon) (h : a ∈ sequenceFirst nullable t u) :
    Letter.terminal a ∈ u ∨ ∃ n, a ∈ t.getD n ∅ := by
  obtain ⟨v, l, w, rfl, -, h⟩ := (mem_sequenceFirst_iff_exists ha).mp h
  cases l with
  | nonterminal n => exact .inr ⟨n, h⟩
  | terminal b =>
    obtain rfl : a = b := h
    exact .inl (List.mem_append_right _ (.head _))

/-- Of the sets of the nonterminals only those that hold the symbol count. -/
theorem mem_sequenceFirst_mono (ha : a ≠ epsilon) (ht : ∀ n, a ∈ t.getD n ∅ → a ∈ t'.getD n ∅)
    (h : a ∈ sequenceFirst nullable t u) : a ∈ sequenceFirst nullable t' u := by
  obtain ⟨v, l, w, rfl, hv, h⟩ := (mem_sequenceFirst_iff_exists ha).mp h
  refine (mem_sequenceFirst_iff_exists ha).mpr ⟨v, l, w, rfl, hv, ?_⟩
  cases l with
  | nonterminal n => exact ht n h
  | terminal b => exact h

/-! ## Rounds -/

theorem below_firstRound (g : Grammar) (nullable : OrderedSet Int) (t : SymbolTable) :
    t.Below (firstRound g nullable t) :=
  List.foldlRecOn (motive := fun s => t.Below s) g.productions _ (.refl t)
    fun s hs p _ => hs.trans (s.below_extend p.head _)

/-- A round adds what the bodies begin with. -/
theorem mem_firstRound {p : Production} (hp : p ∈ g.productions) (ha : a ≠ epsilon)
    (h : a ∈ sequenceFirst nullable t p.body) : a ∈ (firstRound g nullable t).getD p.head ∅ := by
  obtain ⟨s, hs, hend⟩ := exists_foldl_step .refl .trans (fun s p => s.below_extend p.head _) t hp
  refine hend p.head a (SymbolTable.mem_getD_extend.mpr (.inr ⟨rfl, mem_visible.mpr ⟨?_, ha⟩⟩))
  exact mem_sequenceFirst_mono ha (fun n => hs n a) h

theorem within_firstRound (h : t.Within g.nonterminals g.terminals) :
    (firstRound g nullable t).Within g.nonterminals g.terminals := by
  refine List.foldlRecOn (motive := fun s : SymbolTable => s.Within g.nonterminals g.terminals) g.productions _ h
    fun s hs p hp => hs.extend (mem_nonterminals.mpr (.inr ⟨p, hp, .inl rfl⟩)) fun a ha => ?_
  obtain ⟨ha, hne⟩ := mem_visible.mp ha
  rcases exists_mem_of_mem_sequenceFirst hne ha with h | ⟨n, h⟩
  · exact mem_terminals.mpr ⟨hne, p, hp, h⟩
  · exact hs.mem_symbols n a h

theorem within_firstRounds (g : Grammar) : (firstRounds g).state.Within g.nonterminals g.terminals :=
  settle_induction (P := fun t : SymbolTable => t.Within g.nonterminals g.terminals) (fun _ _ => within_firstRound) _
    (.blank _ _)

/-- The last round adds nothing. -/
theorem firstRound_firstRounds (g : Grammar) :
    firstRound g g.nullable (firstRounds g).state = (firstRounds g).state :=
  SymbolTable.settle_growing (fun _ => within_firstRound) (below_firstRound g g.nullable) (.blank _ _)
    (Nat.lt_succ_self _)

/-! ## Soundness -/

/-- Each symbol in the set of a nonterminal begins something that the nonterminal derives. -/
def Sound (g : Grammar) (t : SymbolTable) : Prop := ∀ n, ∀ a ∈ t.getD n ∅, g.Begins [.nonterminal n] a

theorem begins_of_mem_sequenceFirst (ht : Sound g t) (ha : a ≠ epsilon) (h : a ∈ sequenceFirst g.nullable t u) :
    g.Begins u a := by
  obtain ⟨v, l, w, rfl, hv, h⟩ := (mem_sequenceFirst_iff_exists ha).mp h
  rw [← List.singleton_append, begins_append_iff, begins_append_iff]
  refine .inr ⟨canVanish_nullable_iff.mp hv, .inl ?_⟩
  cases l with
  | nonterminal n => exact ht n a h
  | terminal b =>
    obtain rfl : a = b := h
    exact begins_terminal ha

theorem Sound.firstRound (ht : Sound g t) : Sound g (firstRound g g.nullable t) := by
  refine List.foldlRecOn (motive := Sound g) g.productions _ ht fun s hs p hp n a ha => ?_
  rcases SymbolTable.mem_getD_extend.mp ha with ha | ⟨rfl, hb⟩
  · exact hs n a ha
  · obtain ⟨ha, hne⟩ := mem_visible.mp hb
    exact (begins_of_mem_sequenceFirst hs hne ha).of_derives (.production hp)

theorem sound_firstRounds (g : Grammar) : Sound g (firstRounds g).state := by
  refine settle_induction (P := Sound g) (fun _ _ => Sound.firstRound) _ fun n a ha => ?_
  rw [SymbolTable.getD_blank] at ha
  exact absurd ha (OrderedSet.not_mem_empty a)

/-! ## Completeness -/

/-- A sequence has in its first set what it begins with itself. -/
theorem mem_sequenceFirst_of_head (ha : a ≠ epsilon) (h : (Letter.erase u).head? = some (.terminal a)) :
    a ∈ sequenceFirst nullable t u := by
  rw [Letter.erase, List.head?_filter, List.find?_eq_some_iff_append] at h
  obtain ⟨-, v, w, rfl, hv⟩ := h
  refine (mem_sequenceFirst_iff_exists ha).mpr ⟨v, _, w, rfl, ?_, rfl⟩
  refine (letterwise_canVanish _ _).mpr ⟨fun n hn => ?_, fun b hb => ?_⟩
  · simpa [Letter.isEpsilon] using hv _ hn
  · simpa [Letter.isEpsilon] using hv _ hb

/-- A sequence has in its first set what is in that of a sequence derived from it. -/
theorem mem_sequenceFirst_of_derives (ha : a ≠ epsilon) (hd : g.Derives u v)
    (h : a ∈ sequenceFirst g.nullable (firstRounds g).state v) :
    a ∈ sequenceFirst g.nullable (firstRounds g).state u := by
  induction hd with
  | refl => exact h
  | @step x y p _ hp ih =>
    refine ih ?_
    rw [List.append_assoc] at h
    rw [← List.singleton_append]
    simp only [mem_sequenceFirst_append ha] at h ⊢
    -- Of the three parts, only the one in the middle has changed.
    refine h.imp_right (And.imp_right (Or.imp (fun hb => ?_) (And.imp_left fun hv => ?_)))
    · rw [mem_sequenceFirst_singleton ha, ← firstRound_firstRounds]
      exact mem_firstRound hp ha hb
    · exact letterwise_canVanish.nonterminal_iff.mpr (letterwise_canVanish.head_mem_mark hp hv)

/-! ## Exactness -/

theorem mem_firstRounds_iff (ha : a ≠ epsilon) :
    a ∈ sequenceFirst g.nullable (firstRounds g).state u ↔ g.Begins u a := by
  refine ⟨begins_of_mem_sequenceFirst (sound_firstRounds g) ha, ?_⟩
  rintro ⟨v, hd, hv⟩
  exact mem_sequenceFirst_of_derives ha hd (mem_sequenceFirst_of_head ha hv)

theorem get?_firstTable (g : Grammar) (n : Int) : (firstTable g).get? n =
    ((firstRounds g).state.get? n).map fun s => if n ∈ g.nullable then s.insert epsilon else s :=
  Table.get?_mapValues _ _ n

/-- The table differs from what the rounds have filled only by ε. -/
theorem mem_getD_firstTable (ha : a ≠ epsilon) : a ∈ (firstTable g).getD n ∅ ↔ a ∈ (firstRounds g).state.getD n ∅ := by
  rw [Table.getD, Table.getD, get?_firstTable]
  cases (firstRounds g).state.get? n with
  | none => rfl
  | some s =>
    simp only [Option.map_some, Option.getD_some]
    split <;> simp [ha]

theorem epsilon_mem_firstTable {s : OrderedSet Symbol} (hs : (firstTable g).get? n = some s) :
    epsilon ∈ s ↔ n ∈ g.nullable := by
  rw [get?_firstTable] at hs
  obtain ⟨s', hs', rfl⟩ := Option.map_eq_some_iff.mp hs
  split
  · next hn => simp [hn]
  · next hn =>
    refine iff_of_false (fun he => ?_) hn
    have hD : (firstRounds g).state.getD n ∅ = s' := by rw [Table.getD, hs']; rfl
    exact (sound_firstRounds g n epsilon (hD ▸ he)).ne_epsilon rfl

/-- The first set of a sequence holds the terminals that what it derives can begin with. -/
theorem mem_sequenceFirst_iff (ha : a ≠ epsilon) :
    a ∈ sequenceFirst g.nullable (firstTable g) u ↔ g.Begins u a := by
  rw [← mem_firstRounds_iff ha]
  exact ⟨mem_sequenceFirst_mono ha fun _ => (mem_getD_firstTable ha).mp,
    mem_sequenceFirst_mono ha fun _ => (mem_getD_firstTable ha).mpr⟩

/-- The first set of a sequence holds ε if the sequence derives the empty word. -/
theorem epsilon_mem_sequenceFirst_iff : epsilon ∈ sequenceFirst g.nullable t u ↔ g.Vanishes u :=
  epsilon_mem_sequenceFirst.trans canVanish_nullable_iff

/-- The set of a nonterminal holds the terminals that what it derives can begin with, and ε if it derives the empty word. -/
theorem mem_of_get?_firstTable {s : OrderedSet Symbol} (hs : (firstTable g).get? n = some s) :
    a ∈ s ↔ g.Begins [.nonterminal n] a ∨ a = epsilon ∧ g.Vanishes [.nonterminal n] := by
  by_cases ha : a = epsilon
  · subst ha
    rw [epsilon_mem_firstTable hs, mem_nullable_iff]
    exact ⟨fun h => .inr ⟨rfl, h⟩, fun h => (h.resolve_left fun hb => hb.ne_epsilon rfl).2⟩
  · have hD : (firstTable g).getD n ∅ = s := by rw [Table.getD, hs]; rfl
    rw [← mem_sequenceFirst_iff ha, mem_sequenceFirst_singleton ha, Starts, hD]
    exact ⟨.inl, fun h => h.resolve_right fun he => ha he.1⟩

/-! ## Look-ups -/

theorem mem_keys_firstTable : n ∈ (firstTable g).keys ↔ n ∈ g.nonterminals := by
  rw [← (within_firstRounds g).mem_keys, ← Table.get?_isSome_iff, ← Table.get?_isSome_iff, get?_firstTable,
    Option.isSome_map]

theorem mem_leading (h : n ∈ leading nullable u) : Letter.nonterminal n ∈ u := by
  induction u with
  | nil => cases h
  | cons l u ih =>
    cases l with
    | nonterminal m =>
      rw [leading] at h
      rcases List.mem_cons.mp h with rfl | h
      · exact .head _
      · split at h
        · exact .tail _ (ih h)
        · cases h
    | terminal b =>
      rw [leading] at h
      split at h
      · exact .tail _ (ih h)
      · cases h

theorem eq_sequenceFirst_of_firstOfSequence {f : FirstFollow} {s : OrderedSet Symbol} (h : f.firstOfSequence u = .ok s) :
    s = sequenceFirst f.nullable f.first u := by
  unfold firstOfSequence at h
  split at h
  · cases h
  · exact (Except.ok.inj h).symm

/-- A look-up succeeds if the nonterminals of the sequence are those of the grammar. -/
theorem firstOfSequence_eq_ok (hu : ∀ n, Letter.nonterminal n ∈ u → n ∈ g.nonterminals) :
    (ofGrammar g).firstOfSequence u = .ok (sequenceFirst g.nullable (firstTable g) u) := by
  have hnone : (leading g.nullable u).find? (fun n => !(firstTable g).contains n) = none := by
    rw [List.find?_eq_none]
    intro n hn
    have hkey : ((firstTable g).get? n).isSome = true :=
      Table.get?_isSome_iff.mpr (mem_keys_firstTable.mpr (hu n (mem_leading hn)))
    simp [Table.contains, hkey]
  rw [firstOfSequence]
  simp only [ofGrammar, hnone]

/-- A first set can be looked up for every sequence of letters whose nonterminals are those of the grammar. It holds the
terminals that what the sequence derives can begin with, and ε if the sequence derives the empty word. So it is for the
set of a nonterminal, which holds ε if the nonterminal is nullable. -/
theorem firstOfSequence_exact (hu : ∀ n, Letter.nonterminal n ∈ u → n ∈ g.nonterminals) :
    (∃ s, (ofGrammar g).firstOfSequence u = .ok s ∧ (∀ a, a ≠ epsilon → (a ∈ s ↔ g.Begins u a)) ∧
      (epsilon ∈ s ↔ g.Vanishes u)) ∧
    ∀ n ∈ g.nonterminals, ∃ s, (ofGrammar g).firstOf (.nonterminal n) = .ok s ∧
      (∀ a, a ≠ epsilon → (a ∈ s ↔ g.Begins [.nonterminal n] a)) ∧
      (epsilon ∈ s ↔ n ∈ g.nullable) ∧ (n ∈ g.nullable ↔ g.Vanishes [.nonterminal n]) := by
  refine ⟨⟨_, firstOfSequence_eq_ok hu, fun a ha => mem_sequenceFirst_iff ha, epsilon_mem_sequenceFirst_iff⟩, ?_⟩
  intro n hn
  obtain ⟨s, hs⟩ := Option.isSome_iff_exists.mp (Table.get?_isSome_iff.mpr (mem_keys_firstTable.mpr hn))
  have hD : (firstTable g).getD n ∅ = s := by rw [Table.getD, hs]; rfl
  refine ⟨s, by simp only [firstOf, lookUp, ofGrammar, hs], fun a ha => ?_, ?_, mem_nullable_iff⟩
  · rw [← mem_sequenceFirst_iff ha, mem_sequenceFirst_singleton ha, Starts, hD]
  · exact epsilon_mem_firstTable hs

/-- A grammar with left recursion, a cycle of unit productions, a nonterminal without productions, and ε between
letters. -/
def entangled : Grammar where
  start := 0
  productions := [
    ⟨0, [.nonterminal 0, .terminal "a"]⟩,
    ⟨0, [.nonterminal 1, .terminal epsilon, .nonterminal 2, .terminal "b"]⟩,
    ⟨0, [.nonterminal 3, .terminal "c"]⟩,
    ⟨1, [.nonterminal 2]⟩, ⟨2, [.nonterminal 1]⟩, ⟨1, [.terminal epsilon]⟩]

/-- The second production of the start can begin with "b" only, since the two nonterminals in it can at most vanish. The
first one begins as the second does, and the third one with a nonterminal that nothing replaces. -/
theorem firstOfSequence_exact_entangled :
    ∃ u : List Letter, u = [.nonterminal 1, .terminal epsilon, .nonterminal 0] ∧
      (∀ n, Letter.nonterminal n ∈ u → n ∈ entangled.nonterminals) ∧
      (ofGrammar entangled).firstOfSequence u = .ok (OrderedSet.singleton "b") ∧
      entangled.Begins u "b" ∧ ¬ entangled.Begins u "a" ∧ ¬ entangled.Begins u "c" ∧ ¬ entangled.Vanishes u ∧
      2 ∈ entangled.nonterminals ∧ entangled.Vanishes [.nonterminal 2] := by
  refine ⟨_, rfl, ?_⟩
  have hu : ∀ n, Letter.nonterminal n ∈ [Letter.nonterminal 1, .terminal epsilon, .nonterminal 0] →
      n ∈ entangled.nonterminals := by
    intro n hn
    obtain rfl | rfl : n = 1 ∨ n = 0 := by simpa using hn
    · decide
    · decide
  obtain ⟨⟨s, hs, hbegins, hvanishes⟩, hfirst⟩ := firstOfSequence_exact hu
  obtain rfl : s = OrderedSet.singleton "b" := Except.ok.inj (hs.symm.trans rfl)
  obtain ⟨-, -, -, -, hnullable⟩ := hfirst 2 (by decide)
  refine ⟨hu, hs, (hbegins "b" (by decide)).mp (by decide), fun h => ?_, fun h => ?_, fun h => ?_, by decide,
    hnullable.mp (by decide)⟩
  · exact absurd ((hbegins "a" (by decide)).mpr h) (by decide)
  · exact absurd ((hbegins "c" (by decide)).mpr h) (by decide)
  · exact absurd (hvanishes.mpr h) (by decide)

end FirstFollow

end FormalLang
