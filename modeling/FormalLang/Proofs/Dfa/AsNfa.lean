import FormalLang.Dfa.Isomorphism
import FormalLang.Proofs.Nfa.Alphabet
import FormalLang.Proofs.Nfa.Rebuilding

/-!
# Deterministic automata as nondeterministic ones

A deterministic automaton is a nondeterministic one in whose rows every set has one state. If ε labels none of its transitions,
a trail is a run: no step is silent, and the states after a word are at most one.

* `Dfa.toNfa`: the nondeterministic automaton with the same transitions.
* `Dfa.targets_toNfa`, `Dfa.mem_alphabet_toNfa`: its transitions and its alphabet.
* `Dfa.IsLoud.trail_toNfa_iff`: its trails are the runs.
* `Dfa.IsLoud.acceptsWord_toNfa`: both accept the same words.
-/

namespace FormalLang

/-- The row with the set of its one target for each symbol. -/
def singletonRow (row : Table Symbol Nat) : Table Symbol (OrderedSet Nat) := row.mapValues fun _ q => .singleton q

theorem get?_singletonRow (row : Table Symbol Nat) (a : Symbol) :
    (singletonRow row).get? a = (row.get? a).map OrderedSet.singleton :=
  Table.get?_mapValues (fun _ => OrderedSet.singleton) row a

theorem addTarget_singletonRow_of_none {row : Table Symbol Nat} {a : Symbol} (h : row.get? a = none) (q : Nat) :
    Nfa.addTarget (singletonRow row) (a, q) = singletonRow (row.insert a q) := by
  rw [Nfa.addTarget, Table.alter, get?_singletonRow, h, singletonRow, singletonRow, Table.mapValues_insert]
  rfl

theorem addTarget_singletonRow_of_some {row : Table Symbol Nat} {a : Symbol} {q : Nat} (h : row.get? a = some q) :
    Nfa.addTarget (singletonRow row) (a, q) = singletonRow row := by
  have hset : (OrderedSet.singleton q).insert q = OrderedSet.singleton q := OrderedSet.ext fun r => by simp
  have hget : (singletonRow row).get? a = some (OrderedSet.singleton q) := by rw [get?_singletonRow, h, Option.map_some]
  rw [Nfa.addTarget, Table.alter, hget, Option.getD_some, hset, Table.insert_eq_self hget]

namespace Dfa

variable {d : Dfa} {p q : Nat} {a : Symbol} {w : List Symbol}

/-- The nondeterministic automaton with the same transitions. -/
def toNfa (d : Dfa) (flags : BuildFlags) : Nfa where
  rows := d.rows.map singletonRow
  start := d.start
  accept := d.accept
  flags

theorem count_toNfa (d : Dfa) (flags : BuildFlags) : (d.toNfa flags).count = d.count := List.length_map _

theorem mem_targets_toNfa {flags : BuildFlags} : q ∈ (d.toNfa flags).targets p a ↔ d.target? p a = some q := by
  rw [Nfa.mem_targets_iff, target?, row, List.getD_eq_getElem?_getD]
  show (∃ row, (d.rows.map singletonRow)[p]? = some row ∧ _) ↔ _
  rw [List.getElem?_map]
  cases d.rows[p]? with
  | none => simp
  | some row =>
    rw [Option.map_some, Option.getD_some]
    simp only [Option.some.injEq, exists_eq_left', get?_singletonRow]
    cases row.get? a with
    | none => simp
    | some r => simp [eq_comm]

theorem targets_toNfa (d : Dfa) (flags : BuildFlags) (p : Nat) (a : Symbol) :
    (d.toNfa flags).targets p a = (d.target? p a).elim ∅ OrderedSet.singleton := by
  refine OrderedSet.ext fun q => ?_
  rw [mem_targets_toNfa]
  cases d.target? p a with
  | none => simp
  | some r => simp [eq_comm]

theorem mem_alphabet_toNfa {flags : BuildFlags} :
    a ∈ (d.toNfa flags).alphabet ↔ (∃ p q, d.target? p a = some q) ∧ a ≠ epsilon := by
  rw [Nfa.mem_alphabet_iff]
  refine and_congr_left fun _ => ?_
  show (∃ row ∈ d.rows.map singletonRow, a ∈ row.keys) ↔ _
  simp only [target?, row]
  constructor
  · rintro ⟨sets, hsets, ha⟩
    obtain ⟨row, hrow, rfl⟩ := List.mem_map.mp hsets
    obtain ⟨p, hp⟩ := List.mem_iff_getElem?.mp hrow
    obtain ⟨q, hq⟩ := Option.isSome_iff_exists.mp (Table.get?_isSome_iff.mpr ((Table.keys_mapValues _ row) ▸ ha))
    refine ⟨p, q, ?_⟩
    rw [List.getD_eq_getElem?_getD, hp]
    exact hq
  · rintro ⟨p, q, hq⟩
    rw [List.getD_eq_getElem?_getD] at hq
    cases hp : d.rows[p]? with
    | none =>
      rw [hp] at hq
      contradiction
    | some row =>
      rw [hp] at hq
      refine ⟨singletonRow row, List.mem_map.mpr ⟨row, List.mem_of_getElem? hp, rfl⟩, ?_⟩
      rw [singletonRow, Table.keys_mapValues, ← Table.get?_isSome_iff]
      exact hq ▸ rfl

/-! ## Runs -/

/-- No transition is silent. -/
def IsLoud (d : Dfa) : Prop := ∀ p, d.target? p epsilon = none

theorem IsLoud.eq_of_path (h : d.IsLoud) {flags : BuildFlags} (hpath : (d.toNfa flags).Path p [] q) : p = q := by
  cases hpath with
  | here => rfl
  | silent hq _ =>
    rw [mem_targets_toNfa, h] at hq
    contradiction

/-- A trail that reads a word is the run of the word. -/
theorem IsLoud.trail_toNfa_iff (h : d.IsLoud) {flags : BuildFlags} : (d.toNfa flags).Trail p w q ↔ d.run? p w = some q := by
  induction w generalizing p with
  | nil =>
    have hnil : (d.toNfa flags).Trail p [] q ↔ (d.toNfa flags).Path p [] q := by
      rw [Nfa.path_iff_trail, and_iff_right List.not_mem_nil]
    rw [hnil]
    constructor
    · exact fun hpath => congrArg some (h.eq_of_path hpath)
    · exact fun hrun => Option.some.inj hrun ▸ .here p
  | cons a w ih =>
    rw [Nfa.trail_cons_iff, run?_cons, Option.bind_eq_some_iff]
    simp only [mem_targets_toNfa, ih]
    constructor
    · rintro ⟨s, r, hs, hr, hw⟩
      exact ⟨r, h.eq_of_path hs ▸ hr, hw⟩
    · rintro ⟨r, hr, hw⟩
      exact ⟨p, r, .here p, hr, hw⟩

/-- Both automata accept the same words. -/
theorem IsLoud.acceptsWord_toNfa (h : d.IsLoud) (flags : BuildFlags) (w : List Symbol) :
    (d.toNfa flags).acceptsWord w = .ok (d.acceptsWord w) := by
  have hstart : (d.toNfa flags).start < (d.toNfa flags).count := (count_toNfa d flags).symm ▸ d.start_lt
  obtain ⟨b, hb, htrail⟩ := Nfa.acceptsWord_iff_trail hstart w
  rw [hb]
  refine congrArg Except.ok (Bool.eq_iff_iff.mpr (htrail.trans ?_))
  simp only [h.trail_toNfa_iff, acceptsWord, acceptsFrom, Option.any_eq_true, decide_eq_true_eq]
  exact exists_congr fun q => and_comm

end Dfa

end FormalLang
