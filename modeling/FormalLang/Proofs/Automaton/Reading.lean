import FormalLang.Automaton.Text.Reading
import FormalLang.Proofs.Automaton.Line
import FormalLang.Proofs.Automaton.StateList
import FormalLang.Proofs.Faults

/-!
# Faults of automaton texts

What is read passes through the lines, the headers and the ranges, and each stage refuses what the next one cannot take. One kind
of text gets further than it should: a number that no numeral writes, since the characters that a value may have are not
quite those of numerals.

* `LoadError.IsOf`: a fault of the format, or of a number in the text.
* `AutomatonText.faults_read`: reading fails with such faults only.
* `AutomatonText.InRange`, `read_eq_ok_iff`: what a text that can be read has, and what has been read of it.
-/

namespace FormalLang

/-- The fault is one of the format, or that of a number in the text. -/
def LoadError.IsOf (text : List Char) : LoadError → Prop
  | format _ _ => True
  | numeral f => f.OccursIn text
  | usage _ => False

theorem LoadError.IsOf.mono {cs ds : List Char} {e : LoadError} (h : e.IsOf cs) (hcs : cs <:+: ds) : e.IsOf ds := by
  cases e with
  | format => exact h
  | numeral f => exact Text.NumeralFault.OccursIn.mono h hcs
  | usage => exact h

namespace AutomatonText

variable {cs ds : List Char} {k : Nat} {d : Draft} {ls : List (List Char)}

/-! ## Numbers -/

/-- A number of decimal digits is refused for their number only. -/
theorem faults_readNumber (h : Line.IsNumberOf cs ds) : Faults (LoadError.IsOf cs) (readNumber ds) := by
  refine Faults.mapError fun f hf => ?_
  have hlike : ∀ c ∈ ds, Text.isDigitLike c = true := fun c hc => Text.isDigitLike_of_isDecimalDigit (h.digits c hc)
  exact (Text.occursIn_of_digitLike h.ne_nil hlike hf).mono h.isInfix

theorem faults_readState (k : Nat) (cs : List Char) : Faults (LoadError.IsOf cs) (readState k cs) := by
  unfold readState
  split
  · exact .error trivial
  · next h =>
    rw [Bool.or_eq_true, not_or, List.isEmpty_iff, Bool.not_eq_true', Bool.not_eq_false, List.all_eq_true] at h
    exact Faults.mapError fun f hf => Text.occursIn_of_digitLike h.1 h.2 hf

theorem faults_readStates (k : Nat) (hline : ∀ c ∈ cs, Text.isLineEnd c = false) :
    Faults (LoadError.IsOf cs) (readStates k cs) := by
  unfold readStates
  split
  · exact .error trivial
  · next items hitems =>
    refine Faults.mapM fun l hl => Faults.mapError fun f hf => ?_
    obtain ⟨hpart, hne, hdigits⟩ := exists_of_stateList? hitems l hl
    exact (Text.occursIn_of_spaced hne hdigits (fun c hc => hline c (hpart.subset hc)) hf).mono hpart

theorem faults_checkRange (count k q : Nat) : Faults (LoadError.IsOf cs) (checkRange count k q) := by
  unfold checkRange
  split
  · exact .ok ()
  · exact .error trivial

/-! ## Lines -/

theorem faults_addLine (d : Draft) (k : Nat) (cs : List Char) : Faults (LoadError.IsOf cs) (d.addLine k cs) := by
  unfold Draft.addLine
  split
  · exact .error trivial
  · exact .ok d
  · split
    · exact .error trivial
    · exact .ok _
  · next h =>
    obtain ⟨hs, ht⟩ := Line.parts_of_transition h
    exact (faults_readNumber hs).bind fun p _ => (faults_readNumber ht).bind fun q _ => .ok _

theorem faults_ofLines (h : ∀ l ∈ ls, l <:+: cs) : Faults (LoadError.IsOf cs) (Draft.ofLines ls) := by
  unfold Draft.ofLines
  refine Faults.foldlM (fun d l hl e he => ?_) _
  exact (faults_addLine d (l.2 + 1) l.1 e he).mono (h l.1 (List.fst_mem_of_mem_zipIdx hl))

/-- The values of headers are parts of lines. -/
def Draft.HeadersIn (ls : List (List Char)) (d : Draft) : Prop :=
  ∀ h k v, d.headers.get? h = some (k, v) → ∃ l ∈ ls, v <:+: l

theorem Draft.HeadersIn.addLine {d' : Draft} (hd : d.HeadersIn ls) (hcs : cs ∈ ls) (h : d.addLine k cs = .ok d') :
    d'.HeadersIn ls := by
  unfold Draft.addLine at h
  split at h
  · contradiction
  · obtain rfl := Except.ok.inj h
    exact hd
  · next x v hv =>
    split at h
    · contradiction
    · obtain rfl := Except.ok.inj h
      intro y i w hw
      rw [Table.get?_insert] at hw
      split at hw
      · obtain ⟨-, rfl⟩ := Prod.mk.inj (Option.some.inj hw)
        exact ⟨cs, hcs, Line.isInfix_of_header hv⟩
      · exact hd y i w hw
  · obtain ⟨p, -, h⟩ := bind_eq_ok_iff.mp h
    obtain ⟨q, -, h⟩ := bind_eq_ok_iff.mp h
    obtain rfl := Except.ok.inj h
    exact hd

theorem Draft.headersIn_ofLines (h : Draft.ofLines ls = .ok d) : d.HeadersIn ls := by
  have hstep : ∀ d : Draft, d.HeadersIn ls → ∀ e ∈ ls.zipIdx, ∀ d', d.addLine (e.2 + 1) e.1 = .ok d' → d'.HeadersIn ls :=
    fun d hd e he d' hd' => hd.addLine (List.fst_mem_of_mem_zipIdx he) hd'
  have hempty : ({} : Draft).HeadersIn ls := by
    intro h k v hv
    contradiction
  exact foldlM_invariant hstep hempty h

theorem faults_header (d : Draft) (h : Header) : Faults (LoadError.IsOf cs) (d.header h) := by
  unfold Draft.header
  split
  · exact .error trivial
  · exact .ok _

theorem Draft.header_eq_ok_iff {h : Header} {x : Nat × List Char} : d.header h = .ok x ↔ d.headers.get? h = some x := by
  unfold Draft.header
  cases d.headers.get? h <;> simp

/-! ## Texts -/

/-- Reading fails with faults of the format and of numbers in the text only. -/
theorem faults_read (text : String) : Faults (LoadError.IsOf text.toList) (read text) := by
  have hpieces := Text.pieces_lines text.toList
  unfold read
  refine (faults_ofLines hpieces.mem).bind fun d hd => ?_
  have hvalue : ∀ h k v, d.header h = .ok (k, v) → v <:+: text.toList ∧ ∀ c ∈ v, Text.isLineEnd c = false := by
    intro h k v hv
    obtain ⟨l, hl, hvl⟩ := Draft.headersIn_ofLines hd h k v (Draft.header_eq_ok_iff.mp hv)
    exact ⟨hvl.trans (hpieces.mem l hl), fun c hc => Text.isLineEnd_of_mem_lines hl c (hvl.subset hc)⟩
  refine (faults_header d .startState).bind fun ⟨i, s⟩ hs => ?_
  refine (faults_header d .endStates).bind fun ⟨j, a⟩ ha => ?_
  refine (faults_header d .numStates).bind fun ⟨k, n⟩ hn => ?_
  have hstate : ∀ i v, v <:+: text.toList → Faults (LoadError.IsOf text.toList) (readState i v) :=
    fun i v hv e he => (faults_readState i v e he).mono hv
  refine (hstate k n (hvalue _ _ _ hn).1).bind fun count _ => ?_
  refine (hstate i s (hvalue _ _ _ hs).1).bind fun start _ => ?_
  have hstates : Faults (LoadError.IsOf text.toList) (readStates j a) := fun e he =>
    (faults_readStates j (hvalue _ _ _ ha).2 e he).mono (hvalue _ _ _ ha).1
  refine hstates.bind fun accept _ => ?_
  refine (faults_checkRange count i start).bind fun _ _ => ?_
  refine (Faults.forM fun q _ => faults_checkRange count j q).bind fun _ _ => ?_
  refine (Faults.forM fun t _ => ?_).bind fun _ _ => .ok _
  exact (faults_checkRange count t.line t.source).bind fun _ _ => faults_checkRange count t.line t.target

/-- The states of what has been read are below their number. -/
structure InRange (t : AutomatonText) : Prop where
  start_lt : t.start < t.count
  accept_lt : ∀ q ∈ t.accept, q < t.count
  source_lt : ∀ e ∈ t.transitions, e.source < t.count
  target_lt : ∀ e ∈ t.transitions, e.target < t.count

theorem checkRange_eq_ok_iff {count k q : Nat} : checkRange count k q = .ok () ↔ q < count := by
  unfold checkRange
  split
  · next h => exact ⟨fun _ => h, fun _ => rfl⟩
  · next h => exact ⟨nofun, fun h' => absurd h' h⟩

/-- A text can be read if its lines can, the headers are there and have values, and the states are in range. -/
theorem read_eq_ok_iff {text : String} {t : AutomatonText} : read text = .ok t ↔
    ∃ d, Draft.ofLines (Text.lines text.toList) = .ok d ∧ d.transitions = t.transitions ∧
      (∃ i v, d.headers.get? .startState = some (i, v) ∧ readState i v = .ok t.start) ∧
      (∃ i v, d.headers.get? .endStates = some (i, v) ∧ readStates i v = .ok t.accept) ∧
      (∃ i v, d.headers.get? .numStates = some (i, v) ∧ readState i v = .ok t.count) ∧ t.InRange := by
  constructor
  · intro h
    obtain ⟨d, hd, h⟩ := bind_eq_ok_iff.mp h
    obtain ⟨⟨i, s⟩, hs, h⟩ := bind_eq_ok_iff.mp h
    obtain ⟨⟨j, a⟩, ha, h⟩ := bind_eq_ok_iff.mp h
    obtain ⟨⟨k, n⟩, hn, h⟩ := bind_eq_ok_iff.mp h
    obtain ⟨count, hcount, h⟩ := bind_eq_ok_iff.mp h
    obtain ⟨start, hstart, h⟩ := bind_eq_ok_iff.mp h
    obtain ⟨accept, haccept, h⟩ := bind_eq_ok_iff.mp h
    obtain ⟨⟨⟩, hstartlt, h⟩ := bind_eq_ok_iff.mp h
    obtain ⟨⟨⟩, hacceptlt, h⟩ := bind_eq_ok_iff.mp h
    obtain ⟨⟨⟩, htransitions, h⟩ := bind_eq_ok_iff.mp h
    obtain rfl := Except.ok.inj h
    have hends : ∀ e ∈ d.transitions, e.source < count ∧ e.target < count := by
      intro e he
      obtain ⟨⟨⟩, hs, ht⟩ := bind_eq_ok_iff.mp (forM_eq_ok_iff.mp htransitions e he)
      exact ⟨checkRange_eq_ok_iff.mp hs, checkRange_eq_ok_iff.mp ht⟩
    have hvalue : ∀ {h : Header} {x : Nat × List Char}, d.header h = .ok x → d.headers.get? h = some x :=
      Draft.header_eq_ok_iff.mp
    refine ⟨d, hd, rfl, ⟨i, s, hvalue hs, hstart⟩, ⟨j, a, hvalue ha, haccept⟩, ⟨k, n, hvalue hn, hcount⟩, ?_⟩
    exact {
      start_lt := checkRange_eq_ok_iff.mp hstartlt
      accept_lt := fun q hq => checkRange_eq_ok_iff.mp (forM_eq_ok_iff.mp hacceptlt q hq)
      source_lt := fun e he => (hends e he).1
      target_lt := fun e he => (hends e he).2 }
  · obtain ⟨count, start, accept, transitions⟩ := t
    rintro ⟨d, hd, rfl, ⟨i, s, hs, hstart⟩, ⟨j, a, ha, haccept⟩, ⟨k, n, hn, hcount⟩, hr⟩
    refine bind_eq_ok_iff.mpr ⟨d, hd, bind_eq_ok_iff.mpr ⟨(i, s), Draft.header_eq_ok_iff.mpr hs, ?_⟩⟩
    refine bind_eq_ok_iff.mpr ⟨(j, a), Draft.header_eq_ok_iff.mpr ha, ?_⟩
    refine bind_eq_ok_iff.mpr ⟨(k, n), Draft.header_eq_ok_iff.mpr hn, ?_⟩
    refine bind_eq_ok_iff.mpr ⟨count, hcount, bind_eq_ok_iff.mpr ⟨start, hstart, bind_eq_ok_iff.mpr ⟨accept, haccept, ?_⟩⟩⟩
    refine bind_eq_ok_iff.mpr ⟨(), checkRange_eq_ok_iff.mpr hr.start_lt, bind_eq_ok_iff.mpr ⟨(), ?_, ?_⟩⟩
    · exact forM_eq_ok_iff.mpr fun q hq => checkRange_eq_ok_iff.mpr (hr.accept_lt q hq)
    · refine bind_eq_ok_iff.mpr ⟨(), forM_eq_ok_iff.mpr fun e he => ?_, rfl⟩
      exact bind_eq_ok_iff.mpr ⟨(), checkRange_eq_ok_iff.mpr (hr.source_lt e he), checkRange_eq_ok_iff.mpr (hr.target_lt e he)⟩

/-- What has been read has the transitions of the lines, and its states are in range. -/
theorem exists_draft_of_read {text : String} {t : AutomatonText} (h : read text = .ok t) :
    ∃ d, Draft.ofLines (Text.lines text.toList) = .ok d ∧ d.transitions = t.transitions ∧ t.InRange := by
  obtain ⟨d, hd, ht, -, -, -, hr⟩ := read_eq_ok_iff.mp h
  exact ⟨d, hd, ht, hr⟩

theorem inRange_of_read {text : String} {t : AutomatonText} (h : read text = .ok t) : t.InRange := by
  obtain ⟨d, -, -, hr⟩ := exists_draft_of_read h
  exact hr

end AutomatonText

end FormalLang
