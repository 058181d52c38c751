import FormalLang.Proofs.Grammar.First
import FormalLang.Proofs.Grammar.Useful

/-!
# Grammars that list the same productions

What is nullable and what first sets hold is said by derivations, and a derivation uses productions without regard to their
places in the list. So the tables of two grammars agree if their lists have the same members, though the rounds that fill
them go through the productions in another order and end sooner or later.

* `Grammar.Alike`: the same start and the same productions.
* `Grammar.Alike.derives_iff`: the same derivations.
* `Grammar.Alike.nullable_eq`, `Grammar.Alike.get?_firstTable_eq`: the same tables.
* `Grammar.Alike.firstOfSequence_eq`: the same first sets of sequences, or the same fault.
-/

namespace FormalLang

open FirstFollow

namespace Grammar

/-- Two grammars have the same start and the same productions, in whatever order they list them and however often. -/
structure Alike (g h : Grammar) : Prop where
  start_eq : g.start = h.start
  mem_productions : ∀ p, p ∈ g.productions ↔ p ∈ h.productions

namespace Alike

variable {g h : Grammar} (hgh : g.Alike h)
include hgh

theorem derives_iff {u v : List Letter} : g.Derives u v ↔ h.Derives u v :=
  ⟨Derives.mono fun p => (hgh.mem_productions p).mp, Derives.mono fun p => (hgh.mem_productions p).mpr⟩

theorem vanishes_iff {u : List Letter} : g.Vanishes u ↔ h.Vanishes u :=
  exists_congr fun _ => and_congr_left fun _ => hgh.derives_iff

theorem begins_iff {u : List Letter} {a : Symbol} : g.Begins u a ↔ h.Begins u a :=
  exists_congr fun _ => and_congr_left fun _ => hgh.derives_iff

theorem nonterminals_eq : g.nonterminals = h.nonterminals := by
  refine OrderedSet.ext fun n => ?_
  rw [mem_nonterminals, mem_nonterminals, hgh.start_eq]
  simp only [hgh.mem_productions]

theorem nullable_eq : g.nullable = h.nullable :=
  OrderedSet.ext fun n => by rw [mem_nullable_iff, mem_nullable_iff, hgh.vanishes_iff]

/-- The first sets agree, and so do the nonterminals that have one. -/
theorem get?_firstTable_eq (n : Int) : (firstTable g).get? n = (firstTable h).get? n := by
  have hkeys : ((firstTable g).get? n).isSome = ((firstTable h).get? n).isSome := by
    rw [Bool.eq_iff_iff, Table.get?_isSome_iff, Table.get?_isSome_iff, mem_keys_firstTable, mem_keys_firstTable,
      hgh.nonterminals_eq]
  cases hg : (firstTable g).get? n with
  | none =>
    cases hh : (firstTable h).get? n with
    | none => rfl
    | some t => simp [hg, hh] at hkeys
  | some s =>
    cases hh : (firstTable h).get? n with
    | none => simp [hg, hh] at hkeys
    | some t =>
      refine congrArg some (OrderedSet.ext fun a => ?_)
      rw [mem_of_get?_firstTable hg, mem_of_get?_firstTable hh, hgh.begins_iff, hgh.vanishes_iff]

theorem sequenceFirst_eq (u : List Letter) :
    sequenceFirst g.nullable (firstTable g) u = sequenceFirst h.nullable (firstTable h) u := by
  refine OrderedSet.ext fun a => ?_
  by_cases ha : a = epsilon
  · rw [ha, epsilon_mem_sequenceFirst_iff, epsilon_mem_sequenceFirst_iff, hgh.vanishes_iff]
  · rw [mem_sequenceFirst_iff ha, mem_sequenceFirst_iff ha, hgh.begins_iff]

/-- A look-up succeeds in both tables, with the same first set, or fails in both at the same nonterminal. -/
theorem firstOfSequence_eq (u : List Letter) : (ofGrammar g).firstOfSequence u = (ofGrammar h).firstOfSequence u := by
  simp only [firstOfSequence, ofGrammar, Table.contains, hgh.get?_firstTable_eq]
  rw [hgh.sequenceFirst_eq, hgh.nullable_eq]

end Alike

end Grammar

end FormalLang
