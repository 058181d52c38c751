import FormalLang.Dfa.Basic
import Mathlib.Data.List.GetD

/-!
# Automata from tables

What an automaton made from tables without faults looks like: its rows, start, accepting states and symbols are those of
the tables.

* `DfaTables.faults_eq_nil_iff`: when tables have no fault.
* `DfaTables.exists_ofTables`: the automaton of tables without faults.
-/

namespace FormalLang

theorem getD_mem {α : Type} {l : List α} {i : Nat} {x : α} (hi : i < l.length) : l.getD i x ∈ l := by
  rw [List.getD_eq_getElem l x hi]
  exact List.getElem_mem hi

namespace DfaTables

variable {t : DfaTables}

/-- The number is that of a row. -/
def HasState (t : DfaTables) (q : Int) : Prop := 0 ≤ q ∧ q < t.rows.length

theorem stateFaults_eq_nil_iff {q : Int} : t.stateFaults q = [] ↔ t.HasState q :=
  ⟨stateFaults_eq_nil, fun h => if_pos h⟩

theorem symbolFaults_eq_nil_iff {a : Symbol} : t.symbolFaults a = [] ↔ a ∈ t.symbols :=
  ⟨symbolFaults_eq_nil, fun h => if_pos h⟩

/-- Tables have no fault if the number of rows is right, all states are those of rows and all symbols those of the
tables. -/
theorem faults_eq_nil_iff : t.faults = [] ↔
    t.count = t.rows.length ∧ t.HasState t.start ∧ (∀ q ∈ t.accept, t.HasState q) ∧
      ∀ row ∈ t.rows, ∀ e ∈ row.entries, e.1 ∈ t.symbols ∧ t.HasState e.2 := by
  have hcount : t.countFaults = [] ↔ t.count = t.rows.length := by
    unfold countFaults
    split
    · next h => simp [h]
    · next h => simp [h]
  simp only [faults, List.append_eq_nil_iff, List.flatMap_eq_nil_iff, hcount, stateFaults_eq_nil_iff,
    symbolFaults_eq_nil_iff, and_assoc]

/-- The automaton of tables without faults. -/
structure Represents (t : DfaTables) (d : Dfa) : Prop where
  count_eq : d.count = t.rows.length
  start_eq : (d.start : Int) = t.start
  accept_iff : ∀ q : Nat, q ∈ d.accept ↔ (q : Int) ∈ t.accept
  alphabet_eq : d.alphabet = t.symbols
  target_eq : ∀ q a, d.target? q a = ((t.rows.getD q ∅).get? a).map Int.toNat

/-- Tables without faults are accepted, and the automaton is the one that they describe. -/
theorem exists_ofTables (flags : BuildFlags) (sources : Option (List (OrderedSet Nat))) (h : t.faults = []) :
    ∃ d, Dfa.ofTables t flags sources = .ok d ∧ t.Represents d ∧ d.sources = sources ∧ d.flags = flags := by
  refine ⟨t.toDfa flags sources h, dif_pos h, ?_, rfl, rfl⟩
  obtain ⟨-, hstart, haccept, -⟩ := faults_eq_nil_iff.mp h
  refine ⟨?_, ?_, fun q => ?_, rfl, fun q a => ?_⟩
  · exact List.length_map _
  · have := hstart.1
    show ((t.start.toNat : Nat) : Int) = t.start
    omega
  · show q ∈ OrderedSet.ofList (t.accept.map Int.toNat) ↔ _
    rw [OrderedSet.mem_ofList, List.mem_map]
    constructor
    · rintro ⟨p, hp, rfl⟩
      have := (haccept p hp).1
      rwa [Int.toNat_of_nonneg this]
    · intro hq
      exact ⟨q, hq, Int.toNat_natCast q⟩
  · show ((t.rows.map (Table.mapValues fun _ => Int.toNat)).getD q ∅).get? a = _
    rw [List.getD_eq_getElem?_getD, List.getD_eq_getElem?_getD, List.getElem?_map]
    cases t.rows[q]? with
    | none => rfl
    | some row => exact Table.get?_mapValues (fun _ => Int.toNat) row a

theorem rows_of_ofTables {d : Dfa} {flags : BuildFlags} {sources : Option (List (OrderedSet Nat))}
    (h : Dfa.ofTables t flags sources = .ok d) : d.rows = t.rows.map fun row => row.mapValues fun _ q => q.toNat := by
  unfold Dfa.ofTables at h
  split at h
  · obtain rfl := Except.ok.inj h
    rfl
  · contradiction

end DfaTables

end FormalLang
