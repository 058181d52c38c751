import FormalLang.Proofs.Automaton.Agreement
import FormalLang.Proofs.Nfa.Alike
import FormalLang.Proofs.Text.SameLines

/-!
# Automaton texts with the same lines

A text can be read if each of its lines can, no header is given twice, the three headers are there and have values of their
kind, and all states are in range. None of this depends on where a line stands: headers may come behind the transitions whose
states they bound, and a second header is at fault whichever of the two comes first. So the tables of a text are described by
its lines alone, and a text with the same lines has the same tables, up to the order and the numbers of its lines.

* `AutomatonText.exists_foldlM_addLine_iff`, `hasValue_foldlM`: when lines can be entered, and what they leave.
* `AutomatonText.IsWrittenBy`: some lines write the tables, in whatever order.
* `AutomatonText.isWrittenBy_of_read`, `exists_read_of_isWrittenBy`: what is read is what the lines write.
* `Nfa.exists_load_of_sameLines`, `Dfa.exists_load_of_sameLines`: the automata of a text with the same lines.
* `load_rearranged`: rearranged lines load as the same automata.
-/

namespace FormalLang

variable {cs : List Char} {ls ms : List (List Char)}

/-! ## Lines -/

namespace Line

theorem ofChars?_of_isBlankLine (h : Text.isBlankLine cs = true) : ofChars? cs = some .blank := by
  have htrim : Text.trimLeft cs = [] := List.dropWhile_eq_nil_iff.mpr (List.all_eq_true.mp h)
  rw [ofChars?, htrim]

theorem isBlankLine_eq_false {l : Line} (h : ofChars? cs = some l) (hl : l ≠ .blank) : Text.isBlankLine cs = false := by
  rw [Bool.eq_false_iff]
  intro hblank
  exact hl (Option.some.inj (h.symm.trans (ofChars?_of_isBlankLine hblank)))

/-- Does the line give the header a value? -/
def names (h : Header) (cs : List Char) : Bool :=
  match ofChars? cs with
  | some (.header x _) => x = h
  | _ => false

theorem names_iff {h : Header} : names h cs = true ↔ ∃ v, ofChars? cs = some (.header h v) := by
  unfold names
  split
  · next x v hx =>
    rw [decide_eq_true_eq, hx]
    constructor
    · rintro rfl
      exact ⟨v, rfl⟩
    · rintro ⟨w, hw⟩
      exact (Line.header.inj (Option.some.inj hw)).1
  · next hne =>
    refine iff_of_false Bool.false_ne_true ?_
    rintro ⟨v, hv⟩
    exact hne h v hv

end Line

namespace AutomatonText

variable {k : Nat} {d d' : Draft} {h x : Header} {v : List Char}

/-- The line is blank, or gives a header, or gives a transition whose numbers can be read. -/
def IsReadable (cs : List Char) : Prop :=
  ∃ l, Line.ofChars? cs = some l ∧ ∀ source a target, l = .transition source a target →
    (∃ p, readNumber source = .ok p) ∧ ∃ q, readNumber target = .ok q

theorem isReadable_of_isBlankLine (h : Text.isBlankLine cs = true) : IsReadable cs :=
  ⟨.blank, Line.ofChars?_of_isBlankLine h, nofun⟩

/-- The header has the value. -/
def Draft.HasValue (d : Draft) (h : Header) (v : List Char) : Prop := ∃ i, d.headers.get? h = some (i, v)

/-- A line can be entered if it can be read and does not give a header a second time. -/
theorem exists_addLine_iff : (∃ d', d.addLine k cs = .ok d') ↔
    IsReadable cs ∧ ∀ h, Line.names h cs = true → d.headers.contains h = false := by
  cases hl : Line.ofChars? cs with
  | none => simp [Draft.addLine, IsReadable, hl]
  | some l =>
    cases l with
    | blank => simp [Draft.addLine, IsReadable, Line.names, hl]
    | header y v => cases hc : d.headers.contains y <;> simp [Draft.addLine, IsReadable, Line.names, hl, hc]
    | transition s a t =>
      simp only [Draft.addLine, IsReadable, Line.names, hl, bind_eq_ok_iff]
      constructor
      · rintro ⟨_, p, hp, q, hq, -⟩
        refine ⟨⟨_, rfl, ?_⟩, fun _ hn => absurd hn Bool.false_ne_true⟩
        rintro _ _ _ ⟨⟩
        exact ⟨⟨p, hp⟩, q, hq⟩
      · rintro ⟨⟨_, ⟨⟩, hnumbers⟩, -⟩
        obtain ⟨⟨p, hp⟩, q, hq⟩ := hnumbers _ _ _ rfl
        exact ⟨_, p, hp, q, hq, rfl⟩

/-- A line adds the value that it gives. -/
theorem hasValue_addLine (hd : d.addLine k cs = .ok d') :
    d'.HasValue x v ↔ d.HasValue x v ∨ Line.ofChars? cs = some (.header x v) := by
  unfold Draft.addLine at hd
  split at hd
  · contradiction
  · next hl =>
    obtain rfl := Except.ok.inj hd
    simp [hl]
  · next y w hl =>
    split at hd
    · contradiction
    · next hnew =>
      obtain rfl := Except.ok.inj hd
      simp only [Draft.HasValue, Table.get?_insert, hl, Option.some.injEq, Line.header.injEq]
      by_cases hxy : x = y
      · subst hxy
        have hnone : d.headers.get? x = none := by simpa [Table.contains] using hnew
        simp [hnone]
      · simp [hxy, Ne.symm hxy]
  · next hl =>
    obtain ⟨p, -, hd⟩ := bind_eq_ok_iff.mp hd
    obtain ⟨q, -, hd⟩ := bind_eq_ok_iff.mp hd
    obtain rfl := Except.ok.inj hd
    simp [hl, Draft.HasValue]

theorem contains_iff : d.headers.contains h = true ↔ ∃ v, d.HasValue h v := by
  rw [Table.contains, Option.isSome_iff_exists]
  constructor
  · rintro ⟨⟨i, v⟩, hv⟩
    exact ⟨v, i, hv⟩
  · rintro ⟨v, i, hv⟩
    exact ⟨(i, v), hv⟩

/-- A header counts once, in the table after its line. -/
theorem toNat_contains_addLine (hd : d.addLine k cs = .ok d') (h : Header) :
    (d'.headers.contains h).toNat = (d.headers.contains h).toNat + (Line.names h cs).toNat := by
  have hcontains : d'.headers.contains h = (d.headers.contains h || Line.names h cs) := by
    rw [Bool.eq_iff_iff, Bool.or_eq_true, contains_iff, contains_iff, Line.names_iff, ← exists_or]
    exact exists_congr fun v => hasValue_addLine hd
  rw [hcontains]
  cases hn : Line.names h cs with
  | false => rw [Bool.or_false]; rfl
  | true =>
    rw [(exists_addLine_iff.mp ⟨d', hd⟩).2 h hn]
    rfl

/-- Lines can be entered if each of them can be read and no header is given twice. -/
theorem exists_foldlM_addLine_iff {l : List (List Char × Nat)} :
    (∃ d', l.foldlM (fun d (cs, i) => d.addLine (i + 1) cs) d = .ok d') ↔
      (∀ e ∈ l, IsReadable e.1) ∧
        ∀ h, (l.map Prod.fst).countP (Line.names h) + (d.headers.contains h).toNat ≤ 1 := by
  induction l generalizing d with
  | nil =>
    refine iff_of_true ⟨d, rfl⟩ ⟨nofun, fun h => ?_⟩
    simpa using Bool.toNat_le _
  | cons e l ih =>
    have hcount : ∀ h, ((e :: l).map Prod.fst).countP (Line.names h) =
        (l.map Prod.fst).countP (Line.names h) + (Line.names h e.1).toNat := by
      intro h
      rw [List.map_cons, List.countP_cons]
      cases Line.names h e.1 <;> rfl
    simp only [List.foldlM_cons, bind_eq_ok_iff, List.forall_mem_cons, hcount]
    constructor
    · rintro ⟨d', mid, hmid, hrest⟩
      obtain ⟨hreads, honce⟩ := ih.mp ⟨d', hrest⟩
      refine ⟨⟨(exists_addLine_iff.mp ⟨mid, hmid⟩).1, hreads⟩, fun h => ?_⟩
      have := honce h
      have := toNat_contains_addLine hmid h
      omega
    · rintro ⟨⟨hread, hreads⟩, honce⟩
      have hnew : ∀ h, Line.names h e.1 = true → d.headers.contains h = false := by
        intro h hn
        rw [Bool.eq_false_iff]
        intro hc
        have := honce h
        rw [hn, hc, Bool.toNat_true] at this
        omega
      obtain ⟨mid, hmid⟩ := exists_addLine_iff.mpr ⟨hread, hnew⟩
      obtain ⟨d', hd'⟩ : ∃ d', l.foldlM (fun d (cs, i) => d.addLine (i + 1) cs) mid = .ok d' := by
        refine ih.mpr ⟨hreads, fun h => ?_⟩
        have := honce h
        have := toNat_contains_addLine hmid h
        omega
      exact ⟨d', mid, hmid, hd'⟩

theorem hasValue_foldlM {l : List (List Char × Nat)} (hd : l.foldlM (fun d (cs, i) => d.addLine (i + 1) cs) d = .ok d') :
    d'.HasValue x v ↔ d.HasValue x v ∨ ∃ e ∈ l, Line.ofChars? e.1 = some (.header x v) := by
  induction l generalizing d with
  | nil =>
    obtain rfl := Except.ok.inj hd
    simp
  | cons e l ih =>
    rw [List.foldlM_cons] at hd
    obtain ⟨mid, hmid, hd⟩ := bind_eq_ok_iff.mp hd
    rw [ih hd, hasValue_addLine hmid, List.exists_mem_cons_iff, or_assoc]

/-! ## Texts -/

/-- A line gives the header the value. -/
def GivesValue (ls : List (List Char)) (h : Header) (v : List Char) : Prop :=
  ∃ cs ∈ ls, Line.ofChars? cs = some (.header h v)

/-- The lines write the tables: each of them can be read, none of them gives a header a second time, the headers have values
that stand for the numbers of the tables, the transitions are those of the lines, and all states are in range. -/
structure IsWrittenBy (t : AutomatonText) (ls : List (List Char)) : Prop where
  readable : ∀ cs ∈ ls, IsReadable cs
  once : ∀ h, ls.countP (Line.names h) ≤ 1
  start_eq : ∃ v, GivesValue ls .startState v ∧ ∃ k, readState k v = .ok t.start
  accept_eq : ∃ v, GivesValue ls .endStates v ∧ ∃ k, readStates k v = .ok t.accept
  count_eq : ∃ v, GivesValue ls .numStates v ∧ ∃ k, readState k v = .ok t.count
  transition_iff : ∀ p a q, (∃ e ∈ t.transitions, e.Gives p a q) ↔
    ∃ cs ∈ ls, ∃ e : TransitionLine, e.IsSaidBy cs ∧ e.Gives p a q
  inRange : t.InRange

/-- The tables have the same states, start, accepting states and transitions, whatever the order and the numbers of the lines
that give the transitions. -/
structure Alike (t t' : AutomatonText) : Prop where
  count_eq : t.count = t'.count
  start_eq : t.start = t'.start
  accept_eq : t.accept = t'.accept
  transition_iff : ∀ p a q, (∃ e ∈ t.transitions, e.Gives p a q) ↔ ∃ e ∈ t'.transitions, e.Gives p a q

variable {t t' : AutomatonText} {text text' : String}

theorem readState_eq_ok_iff {q : Nat} : readState k v = .ok q ↔
    (v.isEmpty || !v.all Text.isDigitLike) = false ∧ readNumber v = .ok q := by
  unfold readState
  split
  · next h => simp [h]
  · next h => simp [Bool.eq_false_iff.mpr h]

theorem readStates_eq_ok_iff {qs : List Nat} : readStates k v = .ok qs ↔
    ∃ items, stateList? v = some items ∧ items.mapM readNumber = .ok qs := by
  unfold readStates
  split
  · next h => simp [h]
  · next items h => simp [h]

theorem GivesValue.congr (h : Text.SameLines ls ms) {x : Header} : GivesValue ls x v ↔ GivesValue ms x v :=
  h.exists_mem_iff fun _ hl => Line.isBlankLine_eq_false hl nofun

/-- What lines write does not depend on their order, nor on lines of blanks among them. -/
theorem IsWrittenBy.congr (ht : t.IsWrittenBy ls) (h : Text.SameLines ls ms) : t.IsWrittenBy ms where
  readable := h.forall_mem (fun _ => isReadable_of_isBlankLine) ht.readable
  once x := by
    rw [← h.countP_eq fun l hl => ?_]
    · exact ht.once x
    · obtain ⟨v, hv⟩ := Line.names_iff.mp hl
      exact Line.isBlankLine_eq_false hv nofun
  start_eq := ht.start_eq.imp fun _ => And.imp_left (GivesValue.congr h).mp
  accept_eq := ht.accept_eq.imp fun _ => And.imp_left (GivesValue.congr h).mp
  count_eq := ht.count_eq.imp fun _ => And.imp_left (GivesValue.congr h).mp
  transition_iff p a q := by
    rw [ht.transition_iff]
    refine h.exists_mem_iff ?_
    rintro l ⟨e, ⟨source, target, hl, -⟩, -⟩
    exact Line.isBlankLine_eq_false hl nofun
  inRange := ht.inRange

/-! ### Lines in order -/

theorem exists_mem_zipIdx_iff {P : List Char → Prop} : (∃ e ∈ ls.zipIdx, P e.1) ↔ ∃ cs ∈ ls, P cs := by
  constructor
  · rintro ⟨e, he, h⟩
    exact ⟨e.1, List.fst_mem_of_mem_zipIdx he, h⟩
  · rintro ⟨cs, hcs, h⟩
    obtain ⟨i, hi⟩ := List.mem_iff_getElem?.mp hcs
    exact ⟨(cs, i), List.mem_zipIdx_iff_getElem?.mpr hi, h⟩

theorem exists_ofLines_iff :
    (∃ d, Draft.ofLines ls = .ok d) ↔ (∀ cs ∈ ls, IsReadable cs) ∧ ∀ h, ls.countP (Line.names h) ≤ 1 := by
  unfold Draft.ofLines
  rw [exists_foldlM_addLine_iff, ← List.forall_mem_map (f := Prod.fst), List.zipIdx_map_fst]
  exact Iff.rfl

section

variable (hd : Draft.ofLines ls = .ok d)
include hd

theorem hasValue_iff : d.HasValue h v ↔ GivesValue ls h v := by
  have hempty : ¬ ({} : Draft).HasValue h v := by
    rintro ⟨i, hi⟩
    contradiction
  rw [hasValue_foldlM hd, or_iff_right hempty]
  exact exists_mem_zipIdx_iff (P := fun cs => Line.ofChars? cs = some (.header h v))

theorem exists_transition_iff {p q : Nat} {a : Symbol} : (∃ e ∈ d.transitions, e.Gives p a q) ↔
    ∃ cs ∈ ls, ∃ e : TransitionLine, e.IsSaidBy cs ∧ e.Gives p a q := by
  rw [← exists_mem_zipIdx_iff (P := fun cs => ∃ e : TransitionLine, e.IsSaidBy cs ∧ e.Gives p a q)]
  simp only [mem_transitions_foldlM hd, List.not_mem_nil, false_or]
  constructor
  · rintro ⟨e, ⟨l, hl, -, hsaid⟩, hgives⟩
    exact ⟨l, hl, e, hsaid, hgives⟩
  · rintro ⟨l, hl, e, hsaid, hgives⟩
    exact ⟨{ e with line := l.2 + 1 }, ⟨l, hl, rfl, hsaid⟩, hgives⟩

end

/-- What is read is what the lines write. -/
theorem isWrittenBy_of_read (h : read text = .ok t) : t.IsWrittenBy (Text.lines text.toList) := by
  obtain ⟨d, hd, htransitions, ⟨i, s, hs, hstart⟩, ⟨j, a, ha, haccept⟩, ⟨k, n, hn, hcount⟩, hr⟩ := read_eq_ok_iff.mp h
  obtain ⟨hreadable, honce⟩ := exists_ofLines_iff.mp ⟨d, hd⟩
  exact {
    readable := hreadable
    once := honce
    start_eq := ⟨s, (hasValue_iff hd).mp ⟨i, hs⟩, i, hstart⟩
    accept_eq := ⟨a, (hasValue_iff hd).mp ⟨j, ha⟩, j, haccept⟩
    count_eq := ⟨n, (hasValue_iff hd).mp ⟨k, hn⟩, k, hcount⟩
    transition_iff := fun p a q => by rw [← htransitions, exists_transition_iff hd]
    inRange := hr }

/-- Tables with the same transitions as those of a text have their states in range as well. -/
theorem Alike.inRange (h : t.Alike t') (hr : t.InRange) : t'.InRange := by
  have hends : ∀ e ∈ t'.transitions, e.source < t'.count ∧ e.target < t'.count := by
    intro e he
    obtain ⟨f, hf, hsource, -, htarget⟩ := (h.transition_iff e.source e.symbol e.target).mpr ⟨e, he, rfl, rfl, rfl⟩
    rw [← h.count_eq, ← hsource, ← htarget]
    exact ⟨hr.source_lt f hf, hr.target_lt f hf⟩
  exact {
    start_lt := h.start_eq ▸ h.count_eq ▸ hr.start_lt
    accept_lt := h.accept_eq ▸ h.count_eq ▸ hr.accept_lt
    source_lt := fun e he => (hends e he).1
    target_lt := fun e he => (hends e he).2 }

/-- What lines write is read from their text. -/
theorem exists_read_of_isWrittenBy (ht : t.IsWrittenBy (Text.lines text.toList)) :
    ∃ t', read text = .ok t' ∧ t.Alike t' := by
  obtain ⟨d, hd⟩ := exists_ofLines_iff.mpr ⟨ht.readable, ht.once⟩
  obtain ⟨s, hs, i, hstart⟩ := ht.start_eq
  obtain ⟨a, ha, j, haccept⟩ := ht.accept_eq
  obtain ⟨n, hn, k, hcount⟩ := ht.count_eq
  obtain ⟨i', hs⟩ := (hasValue_iff hd).mpr hs
  obtain ⟨j', ha⟩ := (hasValue_iff hd).mpr ha
  obtain ⟨k', hn⟩ := (hasValue_iff hd).mpr hn
  have halike : t.Alike ⟨t.count, t.start, t.accept, d.transitions⟩ :=
    ⟨rfl, rfl, rfl, fun p a q => by rw [ht.transition_iff, exists_transition_iff hd]⟩
  refine ⟨_, read_eq_ok_iff.mpr ⟨d, hd, rfl, ⟨i', s, hs, ?_⟩, ⟨j', a, ha, ?_⟩, ⟨k', n, hn, ?_⟩, halike.inRange ht.inRange⟩, halike⟩
  · exact readState_eq_ok_iff.mpr (readState_eq_ok_iff.mp hstart)
  · exact readStates_eq_ok_iff.mpr (readStates_eq_ok_iff.mp haccept)
  · exact readState_eq_ok_iff.mpr (readState_eq_ok_iff.mp hcount)

/-- A text with the same lines has the same tables. -/
theorem exists_read_of_sameLines (h : Text.SameLines (Text.lines text.toList) (Text.lines text'.toList))
    (ht : read text = .ok t) : ∃ t', read text' = .ok t' ∧ t.Alike t' :=
  exists_read_of_isWrittenBy ((isWrittenBy_of_read ht).congr h)

/-! ## Automata -/

theorem Alike.mem_iff (h : t.Alike t') (x : Int × Symbol × Int) :
    x ∈ t.transitions.map (fun e => ((e.source : Int), e.symbol, (e.target : Int))) ↔
      x ∈ t'.transitions.map fun e => ((e.source : Int), e.symbol, (e.target : Int)) := by
  have hmem : ∀ t : AutomatonText, x ∈ t.transitions.map (fun e => ((e.source : Int), e.symbol, (e.target : Int))) ↔
      ∃ (p : Nat) (a : Symbol) (q : Nat), x = ((p : Int), a, (q : Int)) ∧ ∃ e ∈ t.transitions, e.Gives p a q := by
    intro t
    rw [List.mem_map]
    constructor
    · rintro ⟨e, he, rfl⟩
      exact ⟨_, _, _, rfl, e, he, rfl, rfl, rfl⟩
    · rintro ⟨p, a, q, rfl, e, he, rfl, rfl, rfl⟩
      exact ⟨e, he, rfl⟩
  rw [hmem, hmem]
  simp only [h.transition_iff]

/-- The nondeterministic automata of tables that are alike have the same transitions and symbols. -/
theorem Alike.nfa (h : t.Alike t') (hr : t.InRange) (flags flags' : BuildFlags) :
    (t.nfa flags).Alike (t'.nfa flags') ∧ (t.nfa flags).alphabet = (t'.nfa flags').alphabet := by
  have hn := hr.ofTables_nfa flags
  have hn' := (h.inRange hr).ofTables_nfa flags'
  have hoccupied := (Nfa.Constructible.ofTables hn).consistent.target_exists
  have hoccupied' := (Nfa.Constructible.ofTables hn').consistent.target_exists
  rw [← h.count_eq, ← h.start_eq, ← h.accept_eq] at hn'
  have halike := Nfa.alike_ofTables hn hn' (fun _ => Iff.rfl) h.mem_iff
  exact ⟨halike, halike.alphabet_eq hoccupied hoccupied'⟩

/-- The deterministic automata of tables that are alike have the same tables. -/
theorem Alike.sameTables (h : t.Alike t') {d d' : Dfa} (hd : t.IsDfa d) (hd' : t'.IsDfa d') : d.SameTables d' where
  count_eq := by rw [hd.count_eq, hd'.count_eq, h.count_eq]
  start_eq := by rw [hd.start_eq, hd'.start_eq, h.start_eq]
  accept_eq := OrderedSet.ext fun q => by rw [hd.accept_iff, hd'.accept_iff, h.accept_eq]
  alphabet_eq := by
    have hsymbol : ∀ (t : AutomatonText) a, (∃ e ∈ t.transitions, e.symbol = a) ↔ ∃ p q, ∃ e ∈ t.transitions, e.Gives p a q := by
      intro t a
      constructor
      · rintro ⟨e, he, ha⟩
        exact ⟨e.source, e.target, e, he, rfl, ha, rfl⟩
      · rintro ⟨p, q, e, he, -, ha, -⟩
        exact ⟨e, he, ha⟩
    refine OrderedSet.ext fun a => ?_
    rw [hd.mem_alphabet_iff, hd'.mem_alphabet_iff, hsymbol, hsymbol]
    simp only [h.transition_iff]
  target_eq p a := Option.ext fun q => by rw [hd.target_iff, hd'.target_iff, h.transition_iff]

end AutomatonText

open AutomatonText

variable {text text' : String} {flags : BuildFlags}

/-- A text with the same lines has an automaton with the same states, transitions and symbols. -/
theorem Nfa.exists_load_of_sameLines (h : Text.SameLines (Text.lines text.toList) (Text.lines text'.toList)) {n : Nfa}
    (hn : Nfa.load text flags = .ok n) (flags' : BuildFlags) :
    ∃ n', Nfa.load text' flags' = .ok n' ∧ n.Alike n' ∧ n.alphabet = n'.alphabet := by
  obtain ⟨t, ht, -⟩ := bind_eq_ok_iff.mp hn
  obtain ⟨t', ht', halike⟩ := exists_read_of_sameLines h ht
  obtain rfl := Except.ok.inj (hn.symm.trans (Nfa.load_of_read ht flags))
  exact ⟨t'.nfa flags', Nfa.load_of_read ht' flags', halike.nfa (inRange_of_read ht) flags flags'⟩

/-- A text with the same lines has a deterministic automaton with the same tables. -/
theorem Dfa.exists_load_of_sameLines (h : Text.SameLines (Text.lines text.toList) (Text.lines text'.toList)) {d : Dfa}
    (hd : Dfa.load text flags = .ok d) (flags' : BuildFlags) :
    ∃ d', Dfa.load text' flags' = .ok d' ∧ d.SameTables d' := by
  obtain ⟨t, ht, -⟩ := bind_eq_ok_iff.mp hd
  obtain ⟨t', ht', halike⟩ := exists_read_of_sameLines h ht
  rcases Dfa.load_of_read ht flags with ⟨d₀, hload, hdfa, hrows⟩ | ⟨fault, hload, -⟩
  · obtain rfl := Except.ok.inj (hd.symm.trans hload)
    rcases Dfa.load_of_read ht' flags' with ⟨d', hload', hdfa', -⟩ | ⟨fault, -, hfault⟩
    · exact ⟨d', hload', halike.sameTables hdfa hdfa'⟩
    · -- The targets of the first automaton are those of every line, so that no line is refused.
      have hlines : ∀ e ∈ t'.transitions, e.symbol ≠ epsilon ∧ d.target? e.source e.symbol = some e.target := by
        intro e he
        obtain ⟨f, hf, hgives⟩ := (halike.transition_iff _ _ _).mpr ⟨e, he, rfl, rfl, rfl⟩
        refine ⟨?_, (hdfa.target_iff _ _ _).mpr ⟨f, hf, hgives⟩⟩
        rw [← hgives.2.1]
        exact (isDeterministic_of_ok ht hrows).symbol_ne f ((mem_transitions_iff ht).mp hf)
      obtain ⟨rows, hrows'⟩ := exists_foldlM_addDeterministic (inRange_of_read ht').source_lt_length
        (fun p a q hq => nomatch (target?_replicate t'.count p a).symm.trans hq) hlines
      exact nomatch hfault.symm.trans hrows'
  · exact nomatch hload.symm.trans hd

/-- A text of rearranged lines, in any order and with lines of blanks put in or left out, has an automaton of either kind
exactly if the text has one, with the same states, transitions and symbols. -/
theorem load_rearranged {ls : List String} (h : Text.SameLines (Text.lines text.toList) (ls.map String.toList))
    (flags flags' : BuildFlags) :
    ((∃ n, Nfa.load text flags = .ok n) ↔ ∃ n, Nfa.load (String.intercalate "\n" ls) flags' = .ok n) ∧
      (∀ n n', Nfa.load text flags = .ok n → Nfa.load (String.intercalate "\n" ls) flags' = .ok n' →
        n.Alike n' ∧ n.alphabet = n'.alphabet) ∧
      ((∃ d, Dfa.load text flags = .ok d) ↔ ∃ d, Dfa.load (String.intercalate "\n" ls) flags' = .ok d) ∧
      ∀ d d', Dfa.load text flags = .ok d → Dfa.load (String.intercalate "\n" ls) flags' = .ok d' → d.SameTables d' := by
  have hsame : Text.SameLines (Text.lines text.toList) (Text.lines (String.intercalate "\n" ls).toList) := by
    rw [String.toList_intercalate]
    exact h.intercalate
  refine ⟨⟨?_, ?_⟩, fun n n' hn hn' => ?_, ⟨?_, ?_⟩, fun d d' hd hd' => ?_⟩
  · rintro ⟨n, hn⟩
    obtain ⟨n', hn', -⟩ := Nfa.exists_load_of_sameLines hsame hn flags'
    exact ⟨n', hn'⟩
  · rintro ⟨n, hn⟩
    obtain ⟨n', hn', -⟩ := Nfa.exists_load_of_sameLines hsame.symm hn flags
    exact ⟨n', hn'⟩
  · obtain ⟨m, hm, halike⟩ := Nfa.exists_load_of_sameLines hsame hn flags'
    obtain rfl := Except.ok.inj (hm.symm.trans hn')
    exact halike
  · rintro ⟨d, hd⟩
    obtain ⟨d', hd', -⟩ := Dfa.exists_load_of_sameLines hsame hd flags'
    exact ⟨d', hd'⟩
  · rintro ⟨d, hd⟩
    obtain ⟨d', hd', -⟩ := Dfa.exists_load_of_sameLines hsame.symm hd flags
    exact ⟨d', hd'⟩
  · obtain ⟨e, he, htables⟩ := Dfa.exists_load_of_sameLines hsame hd flags'
    obtain rfl := Except.ok.inj (he.symm.trans hd')
    exact htables

/-- Headers behind the transitions, with lines of blanks put in and one left out. -/
theorem load_rearranged_scattered : ∃ text ls n n' d d',
    text = "num_states:3\nfinish_states : [ 2 ]\nstart_state: 0\n\n0 --'a'-->1\n  1 --'b'--> 2\n" ∧
    ls = ["  1 --'b'--> 2", " \t", "start_state: 0", "0 --'a'-->1", "finish_states : [ 2 ]", " ", "num_states:3"] ∧
    Text.SameLines (Text.lines text.toList) (ls.map String.toList) ∧
    Nfa.load text = .ok n ∧ Nfa.load (String.intercalate "\n" ls) = .ok n' ∧ n.Alike n' ∧ n.alphabet = n'.alphabet ∧
    Dfa.load text = .ok d ∧ Dfa.load (String.intercalate "\n" ls) = .ok d' ∧ d.SameTables d' ∧ d'.target? 1 "b" = some 2 := by
  obtain ⟨text, htext⟩ : ∃ text, text =
    "num_states:3\nfinish_states : [ 2 ]\nstart_state: 0\n\n0 --'a'-->1\n  1 --'b'--> 2\n" := ⟨_, rfl⟩
  obtain ⟨ls, hls⟩ : ∃ ls, ls =
    ["  1 --'b'--> 2", " \t", "start_state: 0", "0 --'a'-->1", "finish_states : [ 2 ]", " ", "num_states:3"] := ⟨_, rfl⟩
  have hsame : Text.SameLines (Text.lines text.toList) (ls.map String.toList) := by
    subst htext hls
    decide
  obtain ⟨n, hn⟩ : ∃ n, Nfa.load text = .ok n := by
    subst htext
    exact ⟨_, rfl⟩
  obtain ⟨d, hd, htarget⟩ : ∃ d, Dfa.load text = .ok d ∧ d.target? 1 "b" = some 2 := by
    subst htext
    exact ⟨_, rfl, by decide⟩
  obtain ⟨hnfa, halike, hdfa, htables⟩ := load_rearranged hsame {} {}
  obtain ⟨n', hn'⟩ := hnfa.mp ⟨n, hn⟩
  obtain ⟨d', hd'⟩ := hdfa.mp ⟨d, hd⟩
  obtain ⟨hn_alike, halphabet⟩ := halike n n' hn hn'
  have hd_same := htables d d' hd hd'
  exact ⟨text, ls, n, n', d, d', htext, hls, hsame, hn, hn', hn_alike, halphabet, hd, hd', hd_same,
    (hd_same.target_eq 1 "b").symm.trans htarget⟩

end FormalLang
