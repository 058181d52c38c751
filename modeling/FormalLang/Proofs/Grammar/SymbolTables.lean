import FormalLang.Grammar.FirstFollow
import Mathlib.Algebra.Order.BigOperators.Group.List
import Mathlib.Algebra.Order.Ring.Nat

/-!
# Tables that grow

First and follow sets are filled in rounds that only add symbols, those of a finite set, to the sets of a fixed list of
nonterminals. Such rounds come to an end.

* `SymbolTable.mem_getD_extend`: what the sets hold after symbols have been added to one of them.
* `SymbolTable.Within`: the keys of a table and the symbols that its sets may hold.
* `SymbolTable.settle_growing`: rounds that only add symbols end in a table that the last one leaves as it is.
-/

namespace FormalLang

namespace SymbolTable

variable {t t' : SymbolTable} {n m : Int} {a : Symbol} {s : OrderedSet Symbol}
  {keys : OrderedSet Int} {symbols : OrderedSet Symbol}

/-! ## Sets -/

theorem getD_blank (keys : OrderedSet Int) (n : Int) : (blank keys).getD n ∅ = ∅ := by
  rw [blank, Table.getD, Table.get?_ofList_map]
  split <;> rfl

theorem mem_getD_extend : a ∈ (t.extend n s).getD m ∅ ↔ a ∈ t.getD m ∅ ∨ m = n ∧ a ∈ s := by
  rw [extend, Table.alter, Table.getD, Table.get?_insert]
  split
  · next h => simp [h, Table.getD]
  · next h => simp [h, Table.getD]

theorem keys_extend (h : n ∈ t.keys) : (t.extend n s).keys = t.keys := by
  rw [extend, Table.alter, Table.keys_insert, if_pos h]

/-! ## Growth -/

/-- Each set of the first table is part of that of the second. -/
def Below (t t' : SymbolTable) : Prop := ∀ n, ∀ a ∈ t.getD n ∅, a ∈ t'.getD n ∅

theorem Below.refl (t : SymbolTable) : t.Below t := fun _ _ h => h

theorem Below.trans {t'' : SymbolTable} (h : t.Below t') (k : t'.Below t'') : t.Below t'' :=
  fun n a ha => k n a (h n a ha)

theorem below_extend (t : SymbolTable) (n : Int) (s : OrderedSet Symbol) : t.Below (t.extend n s) :=
  fun _ _ h => mem_getD_extend.mpr (.inl h)

/-- The table has a set for each nonterminal of `keys`, and for no others, and its sets hold only symbols of
`symbols`. -/
structure Within (t : SymbolTable) (keys : OrderedSet Int) (symbols : OrderedSet Symbol) : Prop where
  keys_eq : t.keys = keys.toList
  mem_symbols : ∀ n, ∀ a ∈ t.getD n ∅, a ∈ symbols

namespace Within

theorem blank (keys : OrderedSet Int) (symbols : OrderedSet Symbol) : (blank keys).Within keys symbols where
  keys_eq := Table.keys_ofList_map keys.nodup_toList _
  mem_symbols n a h := by
    rw [getD_blank] at h
    exact absurd h (OrderedSet.not_mem_empty a)

theorem mem_keys (h : t.Within keys symbols) : n ∈ t.keys ↔ n ∈ keys := by rw [h.keys_eq]; rfl

theorem extend (h : t.Within keys symbols) (hn : n ∈ keys) (hs : ∀ a ∈ s, a ∈ symbols) :
    (t.extend n s).Within keys symbols where
  keys_eq := by rw [keys_extend (h.mem_keys.mpr hn), h.keys_eq]
  mem_symbols m a ha := by
    rcases mem_getD_extend.mp ha with ha | ⟨-, ha⟩
    · exact h.mem_symbols m a ha
    · exact hs a ha

end Within

/-- The number of symbols in all sets. -/
def total (t : SymbolTable) (keys : OrderedSet Int) : Nat := (keys.toList.map fun n => (t.getD n ∅).size).sum

theorem Within.total_le (h : t.Within keys symbols) : t.total keys ≤ keys.size * symbols.size := by
  refine (List.sum_le_card_nsmul _ symbols.size fun k hk => ?_).trans_eq ?_
  · obtain ⟨n, -, rfl⟩ := List.mem_map.mp hk
    exact OrderedSet.size_le_length (h.mem_symbols n)
  · rw [List.length_map, Nat.nsmul_eq_mul]
    rfl

/-- A table with further symbols has more of them. -/
theorem Within.total_lt (h : t.Within keys symbols) (h' : t'.Within keys symbols) (hle : t.Below t') (hne : t ≠ t') :
    t.total keys < t'.total keys := by
  have hsize (n : Int) : (t.getD n ∅).size ≤ (t'.getD n ∅).size := OrderedSet.size_le_length (hle n)
  obtain ⟨n, hn, hlt⟩ : ∃ n ∈ keys.toList, (t.getD n ∅).size < (t'.getD n ∅).size := by
    refine Classical.byContradiction fun hno => hne (Table.ext_getD ∅ (h.keys_eq.trans h'.keys_eq.symm) fun n => ?_)
    by_cases hn : n ∈ keys
    · refine Classical.byContradiction fun hd => hno ⟨n, hn, OrderedSet.size_lt_size (hle n) hd⟩
    · have hnone {t : SymbolTable} (h : t.Within keys symbols) : t.get? n = none :=
        Option.not_isSome_iff_eq_none.mp fun hs => hn (h.mem_keys.mp (Table.get?_isSome_iff.mp hs))
      rw [Table.getD, Table.getD, hnone h, hnone h']
  exact List.sum_lt_sum _ _ (fun n _ => hsize n) ⟨n, hn, hlt⟩

/-- Rounds that only add symbols, if there may be enough of them, end in a table that the last one leaves as it is. -/
theorem settle_growing {round : SymbolTable → SymbolTable} {limit : Nat}
    (hround : ∀ t, t.Within keys symbols → (round t).Within keys symbols)
    (hgrow : ∀ t : SymbolTable, t.Below (round t)) (ht : t.Within keys symbols) (hlimit : keys.size * symbols.size < limit) :
    round (settle (fun _ => round) limit t).state = (settle (fun _ => round) limit t).state := by
  refine settle_fixed (P := fun t : SymbolTable => t.Within keys symbols) (fun _ => hround) (fun t h => h.total_le)
    (fun _ t h hne => Within.total_lt h (hround t h) (hgrow t) hne.symm) ht (by omega)

end SymbolTable

end FormalLang
