import FormalLang.Proofs.Faults
import FormalLang.Proofs.Nfa.Constructible

/-!
# Automata from their own transitions

The transitions of an automaton, added in the order in which it lists them to an automaton with as many states and no
transitions, give all its rows again, with the symbols in the order in which they stood.

* `Nfa.ofTables_natCast`: tables whose states are in range are accepted, and their transitions are added in order.
* `Nfa.foldl_addTarget_rowTransitions`: the transitions of a row give the row.
* `Nfa.linkAll_transitions`: the transitions of an automaton give its rows.
-/

namespace FormalLang

namespace Nfa

variable {n : Nfa} {p : Nat} {a : Symbol}

/-! ## Tables -/

/-- The automaton with some transitions added one after the other. -/
def linkAll (n : Nfa) (transitions : List (Nat × Symbol × Nat)) : Nfa :=
  transitions.foldl (fun n (p, a, q) => n.link p a q) n

/-- The automaton without transitions of the given parts. -/
def bare (count start : Nat) (accept : OrderedSet Nat) (flags : BuildFlags) : Nfa :=
  { rows := List.replicate count ∅, start, accept, flags }

@[simp] theorem count_bare (count start : Nat) (accept : OrderedSet Nat) (flags : BuildFlags) :
    (bare count start accept flags).count = count := List.length_replicate

/-- A transition between the numbers of two states. -/
def intTransition : Nat × Symbol × Nat → Int × Symbol × Int
  | (p, a, q) => (p, a, q)

theorem foldlM_addTransition {ts : List (Nat × Symbol × Nat)} (h : ∀ t ∈ ts, t.1 < n.count ∧ t.2.2 < n.count) :
    (ts.map intTransition).foldlM (fun n (p, a, q) => n.addTransition p a q) n =
      .ok (n.linkAll ts) := by
  induction ts generalizing n with
  | nil => rfl
  | cons t ts ih =>
    obtain ⟨ht, hts⟩ := List.forall_mem_cons.mp h
    have hadd : n.addTransition t.1 t.2.1 t.2.2 = .ok (n.link t.1 t.2.1 t.2.2) := by
      rw [addTransition, checkState, checkState, checkState_natCast ht.1, checkState_natCast ht.2]
      rfl
    rw [List.map_cons, List.foldlM_cons]
    refine bind_eq_ok_iff.mpr ⟨_, hadd, ih fun t ht => ?_⟩
    rw [count_link]
    exact hts t ht

/-- Tables whose states are in range are accepted. -/
theorem ofTables_natCast {count start : Nat} {accept : List Nat} {ts : List (Nat × Symbol × Nat)} (hstart : start < count)
    (haccept : ∀ q ∈ accept, q < count) (hts : ∀ t ∈ ts, t.1 < count ∧ t.2.2 < count) (flags : BuildFlags) :
    ofTables count start (accept.map Int.ofNat) (ts.map intTransition) flags =
      .ok ((bare count start (.ofList accept) flags).linkAll ts) := by
  have hcount : ∀ s f, ({ rows := List.replicate (count : Int).toNat ∅, start := s, flags := f } : Nfa).count = count :=
    fun s f => List.length_replicate
  have haccept' : (accept.map Int.ofNat).mapM (checkState { rows := List.replicate count ∅, start, flags }) = .ok accept :=
    mapM_checkState_natCast fun q hq => Nat.lt_of_lt_of_eq (haccept q hq) (hcount start flags).symm
  refine bind_eq_ok_iff.mpr ⟨start, checkState_natCast ?_, ?_⟩
  · rwa [hcount]
  refine bind_eq_ok_iff.mpr ⟨accept, haccept', ?_⟩
  refine foldlM_addTransition (n := bare count start (.ofList accept) flags) fun t ht => ?_
  rw [count_bare]
  exact hts t ht

/-! ## Rows -/

/-- The row with the target of a transition from its state. -/
def addTarget (row : Table Symbol (OrderedSet Nat)) (e : Symbol × Nat) : Table Symbol (OrderedSet Nat) :=
  row.alter e.1 fun qs => (qs.getD ∅).insert e.2

/-- The transitions that a row lists. -/
def rowTransitions (row : Table Symbol (OrderedSet Nat)) : List (Symbol × Nat) :=
  row.entries.flatMap fun (a, qs) => qs.toList.map fun q => (a, q)

/-- The transitions on one symbol enter all its targets. -/
theorem foldl_addTarget_symbol (row : Table Symbol (OrderedSet Nat)) (a : Symbol) {qs : List Nat} (hqs : qs ≠ []) :
    (qs.map fun q => (a, q)).foldl addTarget row = row.insert a ((row.getD a ∅).insertAll qs) := by
  induction qs generalizing row with
  | nil => contradiction
  | cons q qs ih =>
    rw [List.map_cons, List.foldl_cons]
    cases qs with
    | nil => rfl
    | cons r rs =>
      rw [ih _ (List.cons_ne_nil r rs)]
      have hget : (addTarget row (a, q)).getD a ∅ = (row.getD a ∅).insert q := by
        rw [Table.getD, addTarget, Table.alter, Table.get?_insert, if_pos rfl]
        rfl
      rw [hget, addTarget, Table.alter, Table.insert_insert]
      rfl

/-- The transitions of some entries with symbols that a row does not have enter these entries. -/
theorem foldl_addTarget_entries {es : List (Symbol × OrderedSet Nat)} (row : Table Symbol (OrderedSet Nat))
    (hes : (es.map Prod.fst).Nodup) (hnew : ∀ e ∈ es, e.1 ∉ row.keys) (hocc : ∀ e ∈ es, ∃ q, q ∈ e.2) :
    (es.flatMap fun (a, qs) => qs.toList.map fun q => (a, q)).foldl addTarget row =
      es.foldl (fun row e => row.insert e.1 e.2) row := by
  induction es generalizing row with
  | nil => rfl
  | cons e es ih =>
    obtain ⟨a, qs⟩ := e
    obtain ⟨ha, hes⟩ := List.nodup_cons.mp hes
    obtain ⟨hrow, hnew⟩ := List.forall_mem_cons.mp hnew
    obtain ⟨⟨q, hq⟩, hocc⟩ := List.forall_mem_cons.mp hocc
    have hentry : (qs.toList.map fun q => (a, q)).foldl addTarget row = row.insert a qs := by
      have hget : row.getD a ∅ = ∅ := by
        rw [Table.getD, Table.get?_eq_none_iff.mpr hrow]
        rfl
      have hall : OrderedSet.insertAll ∅ qs.toList = qs := qs.ofList_toList
      rw [foldl_addTarget_symbol row a (List.ne_nil_of_mem hq), hget, hall]
    rw [List.flatMap_cons, List.foldl_append, hentry, List.foldl_cons]
    refine ih (row.insert a qs) hes (fun e he hmem => ?_) hocc
    rw [Table.keys_insert, if_neg hrow] at hmem
    rcases List.mem_append.mp hmem with hmem | hmem
    · exact hnew e he hmem
    · exact ha (List.mem_map.mpr ⟨e, he, List.mem_singleton.mp hmem⟩)

/-- The transitions of a row give the row. -/
theorem foldl_addTarget_rowTransitions {row : Table Symbol (OrderedSet Nat)} (h : ∀ e ∈ row.entries, ∃ q, q ∈ e.2) :
    (rowTransitions row).foldl addTarget ∅ = row :=
  (foldl_addTarget_entries ∅ row.nodup (fun _ _ => List.not_mem_nil) h).trans (Table.ofList_entries row)

/-! ## Automata -/

/-- Transitions from one state change its row only. -/
theorem linkAll_row (n : Nfa) (p : Nat) (l : List (Symbol × Nat)) :
    n.linkAll (l.map fun e => (p, e)) = { n with rows := n.rows.modify p fun row => l.foldl addTarget row } := by
  induction l generalizing n with
  | nil =>
    show n = { n with rows := n.rows.modify p id }
    rw [List.modify_id]
  | cons e l ih =>
    refine (ih (n.link p e.1 e.2)).trans ?_
    show ({ n with rows := (n.rows.modify p fun row => addTarget row e).modify p _ } : Nfa) = _
    rw [List.modify_modify_eq]
    rfl

theorem transitions_eq (n : Nfa) :
    n.transitions = n.rows.zipIdx.flatMap fun (row, p) => (rowTransitions row).map fun e => (p, e) := by
  simp only [transitions, rowTransitions, List.map_flatMap, List.map_map]
  rfl

/-- The transitions of further rows give the rows behind those that are there. -/
theorem linkAll_rows {rest : List (Table Symbol (OrderedSet Nat))} (hocc : ∀ row ∈ rest, ∀ e ∈ row.entries, ∃ q, q ∈ e.2)
    (n : Nfa) (done : List (Table Symbol (OrderedSet Nat))) (hn : n.rows = done ++ List.replicate rest.length ∅) :
    n.linkAll ((rest.zipIdx done.length).flatMap fun (row, p) => (rowTransitions row).map fun e => (p, e)) =
      { n with rows := done ++ rest } := by
  induction rest generalizing n done with
  | nil =>
    obtain ⟨rows, start, accept, flags⟩ := n
    obtain rfl : rows = done ++ [] := hn
    rfl
  | cons row rest ih =>
    obtain ⟨hrow, hrest⟩ := List.forall_mem_cons.mp hocc
    rw [List.zipIdx_cons, List.flatMap_cons, linkAll, List.foldl_append]
    have hfirst : n.linkAll ((rowTransitions row).map fun e => (done.length, e)) =
        { n with rows := (done ++ [row]) ++ List.replicate rest.length ∅ } := by
      rw [linkAll_row, hn, List.length_cons, List.replicate_succ, List.modify_eq_take_cons_drop (by simp)]
      simp [foldl_addTarget_rowTransitions hrow]
    have hrows := ih hrest { n with rows := (done ++ [row]) ++ List.replicate rest.length ∅ } (done ++ [row]) rfl
    rw [List.length_append, List.length_singleton, List.append_assoc done [row] rest] at hrows
    exact (congrArg (linkAll · _) hfirst).trans hrows

/-- The transitions of an automaton, added to one without transitions, give its rows. -/
theorem linkAll_transitions (h : n.Occupied) (start : Nat) (accept : OrderedSet Nat) (flags : BuildFlags) :
    (bare n.count start accept flags).linkAll n.transitions = { rows := n.rows, start, accept, flags } := by
  rw [transitions_eq]
  exact linkAll_rows h (bare n.count start accept flags) [] rfl

/-- The transitions of a well-formed automaton join states. -/
theorem WellFormed.ends_lt (h : n.WellFormed) : ∀ t ∈ n.transitions, t.1 < n.count ∧ t.2.2 < n.count := by
  rintro ⟨p, a, q⟩ ht
  have hq := mem_transitions.mp ht
  exact ⟨lt_count_of_mem_targets hq, h.target_lt p a q hq⟩

/-- The parts of a well-formed automaton give the automaton. -/
theorem ofTables_parts (h : n.WellFormed) (hstart : n.start < n.count) (flags : BuildFlags) :
    ofTables n.count n.start (n.accept.toList.map Int.ofNat) (n.transitions.map intTransition) flags =
      .ok { n with flags } := by
  rw [ofTables_natCast hstart h.accept_lt h.ends_lt, linkAll_transitions h.target_exists, OrderedSet.ofList_toList]

end Nfa

end FormalLang
