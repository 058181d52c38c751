import FormalLang.Proofs.Grammar.First

/-!
# Follow sets

What follows a nonterminal is generated by three rules, read off the bodies in which it stands. The rounds over the
productions arrive at the least table that obeys them: each round only adds what the rules give, and the last one would
have added whatever was missing. What the rules give is what comes behind the nonterminal in derivations: a rule is used
where a derivation puts the nonterminal, and every later step happens in front of it or behind it.

* `Grammar.follows_of_derives`: wherever a derivation has the symbol behind a nonterminal, the rules give it.
* `Grammar.Follows.exists_derives`: what the rules give comes behind the nonterminal in some derivation.
* `FirstFollow.followRound_induction`: what every addition to a table keeps, a round keeps.
* `FirstFollow.mem_followRounds_iff`: the rounds end in what the rules give.
* `FirstFollow.followOf_exact`: follow sets are exact.
-/

namespace FormalLang

namespace Grammar

variable {g : Grammar} {u v x y : List Letter} {n m : Int} {a : Symbol} {after : Prop}

/-! ## What comes behind a nonterminal -/

/-- The symbol comes first in a sequence, or if the sequence vanishes, behind it; `after` says whether it comes
there. -/
def Ahead (g : Grammar) (a : Symbol) (after : Prop) (u : List Letter) : Prop :=
  g.Begins u a ∨ g.Vanishes u ∧ after

theorem ahead_nil : g.Ahead a after [] ↔ after := by
  simp [Ahead, not_begins_nil, vanishes_nil]

theorem ahead_append_iff : g.Ahead a after (u ++ v) ↔ g.Ahead a (g.Ahead a after v) u := by
  simp only [Ahead, begins_append_iff, vanishes_append_iff, and_or_left, or_assoc, and_assoc]

theorem Ahead.of_derives (hd : g.Derives u v) (h : g.Ahead a after v) : g.Ahead a after u :=
  h.imp (.of_derives hd) fun ⟨⟨w, hw, he⟩, ha⟩ => ⟨⟨w, hd.trans hw, he⟩, ha⟩

/-- The rules for what follows a nonterminal: the end marker follows the start; in a body, what the letters behind the
nonterminal begin with follows it, and if they vanish, what follows the head. -/
inductive Follows (g : Grammar) : Int → Symbol → Prop where
  | start : Follows g g.start endMarker
  | begins {p x n y a} : p ∈ g.productions → p.body = x ++ .nonterminal n :: y → g.Begins y a → Follows g n a
  | inherited {p x n y a} : p ∈ g.productions → p.body = x ++ .nonterminal n :: y → g.Vanishes y →
      Follows g p.head a → Follows g n a

theorem Follows.ne_epsilon (h : g.Follows n a) : a ≠ epsilon := by
  induction h with
  | start => decide
  | begins _ _ hb => exact hb.ne_epsilon
  | inherited _ _ _ _ ih => exact ih

/-- Wherever a derivation has the symbol behind a nonterminal, the rules give it. The nonterminal stood there before the
last step, in front of what was replaced or behind it, or it has come with the body of the production. -/
theorem follows_of_derives (hd : g.Derives [.nonterminal m] v) (hv : v = x ++ .nonterminal n :: y)
    (ha : g.Ahead a (g.Follows m a) y) : g.Follows n a := by
  induction hd generalizing x n y with
  | refl =>
    obtain ⟨rfl, rfl, rfl⟩ : x = [] ∧ m = n ∧ y = [] := by
      cases x <;> simp_all
    exact ahead_nil.mp ha
  | @step x' y' p _ hp ih =>
    rcases append_eq_append_cons hv with ⟨z, hz, rfl⟩ | ⟨z, rfl, rfl⟩
    · rcases append_eq_append_cons hz with ⟨k, rfl, rfl⟩ | ⟨k, rfl, hbody⟩
      · refine ih (x := x) (y := k ++ .nonterminal p.head :: y') (by simp) (ha.of_derives ?_)
        simpa using (Derives.production hp).context k y'
      · rcases ahead_append_iff.mp ha with hb | ⟨hz, hy⟩
        · exact .begins hp hbody hb
        · exact .inherited hp hbody hz (ih rfl hy)
    · exact ih (x := x' ++ .nonterminal p.head :: z) (by simp) ha

/-- What the rules give comes behind the nonterminal in what some nonterminal derives, or at the end of what the start
derives. -/
theorem Follows.exists_derives (h : g.Follows n a) : ∃ m ∈ g.nonterminals, ∃ x y,
    g.Derives [.nonterminal m] (x ++ .nonterminal n :: y) ∧ g.Ahead a (m = g.start ∧ a = endMarker) y := by
  induction h with
  | start => exact ⟨g.start, mem_nonterminals.mpr (.inl rfl), [], [], .refl _, ahead_nil.mpr ⟨rfl, rfl⟩⟩
  | @begins p x n y a hp hbody hb =>
    have hhead : p.head ∈ g.nonterminals := mem_nonterminals.mpr (.inr ⟨p, hp, .inl rfl⟩)
    exact ⟨p.head, hhead, x, y, hbody ▸ .production hp, .inl hb⟩
  | @inherited p x n y a hp hbody hy _ ih =>
    obtain ⟨m, hm, x', y', hd, ha⟩ := ih
    refine ⟨m, hm, x' ++ x, y ++ y', ?_, ahead_append_iff.mpr (.inr ⟨hy, ha⟩)⟩
    simpa [hbody] using hd.step hp

/-- A terminal stands right behind a nonterminal, once ε is erased, if the letters behind the nonterminal begin with
it. -/
theorem infix_erase_iff : [.nonterminal n, .terminal a] <:+: Letter.erase u ↔
    ∃ x y, u = x ++ .nonterminal n :: y ∧ (Letter.erase y).head? = some (.terminal a) := by
  constructor
  · rintro ⟨s, t, h⟩
    obtain ⟨x, y, rfl, -, hy⟩ := Letter.erase_eq_append_cons_iff.mp (by simpa using h.symm)
    exact ⟨x, y, rfl, by rw [hy]; rfl⟩
  · rintro ⟨x, y, rfl, hy⟩
    obtain ⟨t, ht⟩ := List.head?_eq_some_iff.mp hy
    exact ⟨Letter.erase x, t, by simpa using (Letter.erase_eq_append_cons_iff.mpr ⟨x, y, rfl, rfl, ht⟩).symm⟩

/-- A nonterminal stands at the end, once ε is erased, if only ε stands behind it. -/
theorem suffix_erase_iff : [.nonterminal n] <:+ Letter.erase u ↔
    ∃ x y, u = x ++ .nonterminal n :: y ∧ Letter.erase y = [] := by
  constructor
  · rintro ⟨s, h⟩
    obtain ⟨x, y, rfl, -, hy⟩ := Letter.erase_eq_append_cons_iff.mp h.symm
    exact ⟨x, y, rfl, hy⟩
  · rintro ⟨x, y, rfl, hy⟩
    exact ⟨Letter.erase x, (Letter.erase_eq_append_cons_iff.mpr ⟨x, y, rfl, rfl, hy⟩).symm⟩

/-- What stands behind a letter is replaced on its own. -/
theorem Derives.behind (h : g.Derives u v) (x : List Letter) (l : Letter) :
    g.Derives (x ++ l :: u) (x ++ l :: v) := (Derives.refl x).append ((Derives.refl [l]).append h)

/-- The rules give what comes right behind the nonterminal in what some nonterminal derives, and the end marker if the
nonterminal comes at the end of what the start derives. -/
theorem follows_iff : g.Follows n a ↔
    (∃ m ∈ g.nonterminals, ∃ v, g.Derives [.nonterminal m] v ∧ [.nonterminal n, .terminal a] <:+: Letter.erase v) ∨
      a = endMarker ∧ ∃ v, g.Derives [.nonterminal g.start] v ∧ [.nonterminal n] <:+ Letter.erase v := by
  constructor
  · intro h
    obtain ⟨m, hm, x, y, hd, ⟨v, hy, hv⟩ | ⟨⟨v, hy, hv⟩, rfl, rfl⟩⟩ := h.exists_derives
    · exact .inl ⟨m, hm, _, hd.trans (hy.behind x _), infix_erase_iff.mpr ⟨x, v, rfl, hv⟩⟩
    · exact .inr ⟨rfl, _, hd.trans (hy.behind x _), suffix_erase_iff.mpr ⟨x, v, rfl, hv⟩⟩
  · rintro (⟨m, -, v, hd, h⟩ | ⟨rfl, v, hd, h⟩)
    · obtain ⟨x, y, rfl, hy⟩ := infix_erase_iff.mp h
      exact follows_of_derives hd rfl (.inl ⟨y, .refl _, hy⟩)
    · obtain ⟨x, y, rfl, hy⟩ := suffix_erase_iff.mp h
      exact follows_of_derives hd rfl (.inr ⟨⟨y, .refl _, hy⟩, .start⟩)

end Grammar

namespace FirstFollow

open Grammar

variable {g : Grammar} {nullable : OrderedSet Int} {first t t' : SymbolTable} {body x y : List Letter}
  {n head : Int} {a : Symbol}

/-! ## Rounds -/

/-- What a production with the given head adds to the set of a nonterminal that stands before `rest` in its body. -/
def addition (nullable : OrderedSet Int) (first t : SymbolTable) (head : Int) (rest : List Letter) :
    OrderedSet Symbol :=
  let after := sequenceFirst nullable first rest
  (visible after).union (if epsilon ∈ after then t.getD head ∅ else ∅)

theorem mem_addition : a ∈ addition nullable first t head y ↔
    a ∈ visible (sequenceFirst nullable first y) ∨ canVanish nullable y = true ∧ a ∈ t.getD head ∅ := by
  rw [addition, OrderedSet.mem_union, ← epsilon_mem_sequenceFirst (t := first)]
  split
  · next h => simp [h]
  · next h => simp [h]

theorem mem_addition_mono (h : t.Below t') (ha : a ∈ addition nullable first t head y) :
    a ∈ addition nullable first t' head y :=
  mem_addition.mpr ((mem_addition.mp ha).imp_right (And.imp_right (h head a)))

/-- What every addition to a table keeps, the additions for a body keep. -/
theorem followBody_induction {P : SymbolTable → Prop}
    (hP : ∀ x n y t, body = x ++ .nonterminal n :: y → P t → P (t.extend n (addition nullable first t head y)))
    (ht : P t) : P (followBody nullable first head body t) := by
  induction body generalizing t with
  | nil => exact ht
  | cons l body ih =>
    have hbody : ∀ x n y t, body = x ++ .nonterminal n :: y → P t →
        P (t.extend n (addition nullable first t head y)) := fun x n y t h => hP (l :: x) n y t (by rw [h]; rfl)
    cases l with
    | terminal b => exact ih hbody ht
    | nonterminal n => exact ih hbody (hP [] n body t rfl ht)

/-- What every addition to a table keeps, a round keeps. -/
theorem followRound_induction {P : SymbolTable → Prop}
    (hP : ∀ p ∈ g.productions, ∀ x n y t, p.body = x ++ .nonterminal n :: y → P t →
      P (t.extend n (addition nullable first t p.head y)))
    (ht : P t) : P (followRound g nullable first t) :=
  List.foldlRecOn (motive := P) g.productions _ ht fun _ hs p hp => followBody_induction (hP p hp) hs

theorem below_followBody (nullable : OrderedSet Int) (first t : SymbolTable) (head : Int) (body : List Letter) :
    t.Below (followBody nullable first head body t) :=
  followBody_induction (P := fun s => t.Below s) (fun _ n _ s _ h => h.trans (s.below_extend n _)) (.refl t)

theorem below_followRound (g : Grammar) (nullable : OrderedSet Int) (first t : SymbolTable) :
    t.Below (followRound g nullable first t) :=
  followRound_induction (P := fun s => t.Below s) (fun _ _ _ n _ s _ h => h.trans (s.below_extend n _)) (.refl t)

theorem mem_followBody (ha : a ∈ addition nullable first t head y) :
    a ∈ (followBody nullable first head (x ++ .nonterminal n :: y) t).getD n ∅ := by
  induction x generalizing t with
  | nil => exact below_followBody nullable first _ head y n a (SymbolTable.mem_getD_extend.mpr (.inr ⟨rfl, ha⟩))
  | cons l x ih =>
    cases l with
    | terminal b => exact ih ha
    | nonterminal m => exact ih (mem_addition_mono (t.below_extend m _) ha)

/-- A round adds to the set of each nonterminal of a body what the body has to add. -/
theorem mem_followRound {p : Production} (hp : p ∈ g.productions) (hbody : p.body = x ++ .nonterminal n :: y)
    (ha : a ∈ addition nullable first t p.head y) : a ∈ (followRound g nullable first t).getD n ∅ := by
  obtain ⟨s, hs, hend⟩ := exists_foldl_step .refl .trans
    (fun s p => below_followBody nullable first s p.head p.body) t hp
  refine hend n a ?_
  rw [hbody]
  exact mem_followBody (mem_addition_mono hs ha)

/-! ## The last round -/

/-- What follow sets may hold. -/
def followSymbols (g : Grammar) : OrderedSet Symbol := g.terminals.insert endMarker

theorem size_followSymbols_le (g : Grammar) : (followSymbols g).size ≤ g.terminals.size + 1 := by
  have h : ∀ a ∈ followSymbols g, a ∈ endMarker :: g.terminals.toList :=
    fun a ha => List.mem_cons.mpr (OrderedSet.mem_insert.mp ha)
  exact OrderedSet.size_le_length h

/-- The end marker follows the start, and nothing else follows anything. -/
def followSeed (g : Grammar) : SymbolTable :=
  (SymbolTable.blank g.nonterminals).extend g.start (OrderedSet.singleton endMarker)

theorem mem_followSeed : a ∈ (followSeed g).getD n ∅ ↔ n = g.start ∧ a = endMarker := by
  rw [followSeed, SymbolTable.mem_getD_extend, SymbolTable.getD_blank]
  simp

theorem within_followSeed (g : Grammar) : (followSeed g).Within g.nonterminals (followSymbols g) := by
  refine (SymbolTable.Within.blank _ _).extend (mem_nonterminals.mpr (.inl rfl)) fun a ha => ?_
  exact OrderedSet.mem_insert.mpr (.inl (OrderedSet.mem_singleton.mp ha))

theorem within_followRound (h : t.Within g.nonterminals (followSymbols g)) :
    (followRound g nullable (firstTable g) t).Within g.nonterminals (followSymbols g) := by
  refine followRound_induction (P := fun t => SymbolTable.Within t g.nonterminals (followSymbols g))
    (fun p hp x n y t hbody ht => ?_) h
  refine ht.extend (mem_nonterminals.mpr (.inr ⟨p, hp, .inr (by simp [hbody])⟩)) fun a ha => ?_
  rcases mem_addition.mp ha with ha | ⟨-, ha⟩
  · obtain ⟨ha, hne⟩ := mem_visible.mp ha
    refine OrderedSet.mem_insert.mpr (.inr ?_)
    rcases exists_mem_of_mem_sequenceFirst hne ha with hy | ⟨m, hm⟩
    · exact mem_terminals.mpr ⟨hne, p, hp, by simp [hbody, hy]⟩
    · exact (within_firstRounds g).mem_symbols m a ((mem_getD_firstTable hne).mp hm)
  · exact ht.mem_symbols p.head a ha

theorem within_followRounds (g : Grammar) : (followRounds g).state.Within g.nonterminals (followSymbols g) :=
  settle_induction (P := fun t : SymbolTable => t.Within g.nonterminals (followSymbols g))
    (fun _ _ => within_followRound) _ (within_followSeed g)

/-- The last round adds nothing. -/
theorem followRound_followRounds (g : Grammar) :
    followRound g g.nullable (firstTable g) (followRounds g).state = (followRounds g).state := by
  refine SymbolTable.settle_growing (fun _ => within_followRound) (below_followRound g g.nullable (firstTable g))
    (within_followSeed g) ?_
  exact Nat.lt_succ_of_le (Nat.mul_le_mul_left _ (size_followSymbols_le g))

/-! ## Exactness -/

theorem mem_addition_iff : a ∈ addition g.nullable (firstTable g) t head y ↔
    g.Begins y a ∨ g.Vanishes y ∧ a ∈ t.getD head ∅ := by
  rw [mem_addition, canVanish_nullable_iff, mem_visible]
  refine or_congr_left ⟨fun ⟨ha, hne⟩ => (mem_sequenceFirst_iff hne).mp ha, fun h => ?_⟩
  exact ⟨(mem_sequenceFirst_iff h.ne_epsilon).mpr h, h.ne_epsilon⟩

/-- The table holds only what the rules give. -/
def Obeys (g : Grammar) (t : SymbolTable) : Prop := ∀ n, ∀ a ∈ t.getD n ∅, g.Follows n a

theorem obeys_followSeed (g : Grammar) : Obeys g (followSeed g) := by
  intro n a ha
  obtain ⟨rfl, rfl⟩ := mem_followSeed.mp ha
  exact .start

theorem Obeys.followRound (ht : Obeys g t) : Obeys g (followRound g g.nullable (firstTable g) t) := by
  refine followRound_induction (fun p hp x n y t hbody ht m a ha => ?_) ht
  rcases SymbolTable.mem_getD_extend.mp ha with ha | ⟨rfl, hadd⟩
  · exact ht m a ha
  · rcases mem_addition_iff.mp hadd with hb | ⟨hv, hhead⟩
    · exact .begins hp hbody hb
    · exact .inherited hp hbody hv (ht p.head a hhead)

theorem obeys_followRounds (g : Grammar) : Obeys g (followRounds g).state :=
  settle_induction (P := Obeys g) (fun _ _ => Obeys.followRound) _ (obeys_followSeed g)

/-- The rounds end in what the rules give: the last round would have added what was missing. -/
theorem mem_followRounds_iff : a ∈ (followRounds g).state.getD n ∅ ↔ g.Follows n a := by
  refine ⟨obeys_followRounds g n a, fun h => ?_⟩
  induction h with
  | start =>
    refine settle_induction (P := fun t : SymbolTable => endMarker ∈ t.getD g.start ∅)
      (fun _ t h => below_followRound g g.nullable (firstTable g) t g.start endMarker h) _ ?_
    exact mem_followSeed.mpr ⟨rfl, rfl⟩
  | begins hp hbody hb =>
    rw [← followRound_followRounds]
    exact mem_followRound hp hbody (mem_addition_iff.mpr (.inl hb))
  | inherited hp hbody hv _ ih =>
    rw [← followRound_followRounds]
    exact mem_followRound hp hbody (mem_addition_iff.mpr (.inr ⟨hv, ih⟩))

/-- The follow set of each nonterminal of a grammar can be looked up. A symbol is in it if it stands right behind the
nonterminal in what some nonterminal derives, and the end marker also if the nonterminal stands at the end of what the
start derives, each time once ε is erased. ε is in no follow set. -/
theorem followOf_exact (hn : n ∈ g.nonterminals) :
    ∃ s, (ofGrammar g).followOf n = .ok s ∧ epsilon ∉ s ∧ ∀ a, a ∈ s ↔
      (∃ m ∈ g.nonterminals, ∃ v, g.Derives [.nonterminal m] v ∧
        [.nonterminal n, .terminal a] <:+: Letter.erase v) ∨
      a = endMarker ∧ ∃ v, g.Derives [.nonterminal g.start] v ∧ [.nonterminal n] <:+ Letter.erase v := by
  refine ⟨_, lookUp_eq_ok ((within_followRounds g).mem_keys.mpr hn), fun h => ?_, fun a => ?_⟩
  · exact (mem_followRounds_iff.mp h).ne_epsilon rfl
  · exact mem_followRounds_iff.trans follows_iff

/-- A grammar in which two nonterminals hand on to each other what follows them: each ends a body of the other, but for
letters that vanish. -/
def circular : Grammar where
  start := 0
  productions := [
    ⟨0, [.nonterminal 1, .terminal "a"]⟩, ⟨0, [.nonterminal 2, .terminal "b"]⟩,
    ⟨0, [.nonterminal 2, .terminal epsilon]⟩, ⟨1, [.terminal "x", .nonterminal 2, .nonterminal 3]⟩,
    ⟨2, [.terminal "y", .nonterminal 1, .terminal epsilon]⟩, ⟨3, [.terminal epsilon]⟩]

/-- The symbol "b" follows the second nonterminal in a body, and so the first one; "x" follows neither. -/
theorem followOf_exact_circular :
    1 ∈ circular.nonterminals ∧ (ofGrammar circular).followOf 1 = .ok (OrderedSet.ofList ["a", "b", endMarker]) ∧
      (∃ m ∈ circular.nonterminals, ∃ v, circular.Derives [.nonterminal m] v ∧
        [.nonterminal 1, .terminal "b"] <:+: Letter.erase v) ∧
      ¬ ∃ m ∈ circular.nonterminals, ∃ v, circular.Derives [.nonterminal m] v ∧
        [.nonterminal 1, .terminal "x"] <:+: Letter.erase v := by
  have hn : 1 ∈ circular.nonterminals := by decide
  obtain ⟨s, hs, -, hmem⟩ := followOf_exact hn
  have hvalue : (ofGrammar circular).followOf 1 = .ok (OrderedSet.ofList ["a", "b", endMarker]) := by decide +kernel
  obtain rfl : s = OrderedSet.ofList ["a", "b", endMarker] := Except.ok.inj (hs.symm.trans hvalue)
  refine ⟨hn, hs, ?_, fun h => ?_⟩
  · exact ((hmem "b").mp (by decide)).resolve_right fun h => absurd h.1 (by decide)
  · exact absurd ((hmem "x").mpr (.inl h)) (by decide)

end FirstFollow

end FormalLang
