import FormalLang.Nfa.Stored
import FormalLang.Proofs.Nfa.Constructible
import FormalLang.Proofs.Nfa.Thompson

/-!
# Stored automata stay well formed

Between two operations a stored automaton holds what an `Nfa` tells of itself, and nothing is left in the field that tells where
a fragment begins. So an operation on it can be compared with the operation on the `Nfa`: it fails where that one fails,
and else it stores what that one gives. The checks of an addition come before its changes, so a refused one has changed
nothing; the checks of a construction never fail, since it joins only states that it has added.

* `StoredNfa.addTransition_run`, `StoredNfa.addRegex_run`, `StoredNfa.ofTables_eq_ok_iff`: the operations, one by one.
* `StoredNfa.eq_of_addTransition_error`: a refused addition changes nothing, whatever is stored.
* `StoredNfa.made_iff`: the stored automata that can be made are those of the automata that can be made.
* `StoredNfa.made_wellFormed`: they are well formed, and what a further operation does not touch.
-/

namespace FormalLang

namespace StoredNfa

variable {n m : Nfa} {s t : StoredNfa} {p q : Nat} {i j : Int} {a : Symbol}

/-- After an operation that succeeds the next one goes on with its answer. -/
theorem bind_run {α β : Type} {x : Storing α} {f : α → Storing β} {b : α} (h : x s = .ok b t) : (x >>= f) s = f b t := by
  show EStateM.bind x f s = _
  rw [EStateM.bind, h]

/-- An operation that fails is the last one. -/
theorem bind_run_error {α β : Type} {x : Storing α} {f : α → Storing β} {e : StoreError} (h : x s = .error e t) :
    (x >>= f) s = .error e t := by
  show EStateM.bind x f s = _
  rw [EStateM.bind, h]

theorem get_run (s : StoredNfa) : (get : Storing StoredNfa) s = .ok s s := rfl

theorem modify_run (f : StoredNfa → StoredNfa) (s : StoredNfa) : (modify f : Storing PUnit) s = .ok () (f s) := rfl

/-! ## Single edits -/

theorem checkState_run (h : FormalLang.checkState s.count i = .ok p) : checkState i s = .ok p s := by
  rw [checkState, bind_run (get_run s), h]
  rfl

theorem checkState_run_error {e : UsageError} (h : FormalLang.checkState s.count i = .error e) :
    checkState i s = .error (.usage e) s := by
  rw [checkState, bind_run (get_run s), h]
  rfl

theorem rowOf_run {row : Table Symbol (OrderedSet Nat)} (h : s.rows[p]? = some row) : rowOf p s = .ok row s := by
  rw [rowOf, bind_run (get_run s), h]
  rfl

theorem rowOf_run_error (h : s.rows[p]? = none) : rowOf p s = .error (.lookup (.place p)) s := by
  rw [rowOf, bind_run (get_run s), h]
  rfl

theorem addState_run (n : Nfa) : addState n.stored = .ok n.count n.addState.2.stored := by
  rw [addState, bind_run (modify_run _ _), bind_run (modify_run _ _), bind_run (get_run _)]
  show EStateM.Result.ok _ _ = _
  congr 1
  rw [Nfa.stored, Nfa.stored, Nfa.count_addState, Nfa.alphabet_addState]
  rfl

theorem addTransition_run (hp : p < n.count) (hq : q < n.count) :
    addTransition p a q n.stored = .ok () (n.link p a q).stored := by
  have hrow : n.rows[p]? = some n.rows[p] := List.getElem?_eq_getElem hp
  rw [addTransition, bind_run (checkState_run (checkState_natCast hp)), bind_run (checkState_run (checkState_natCast hq)),
    bind_run (rowOf_run hrow), bind_run (modify_run _ _)]
  have hrows : n.rows.set p (n.rows[p].alter a fun qs => (qs.getD ∅).insert q) = (n.link p a q).rows := by
    rw [Nfa.link, List.modify_eq_set_getElem?, hrow]
    rfl
  have hcount := Nfa.count_link n p a q
  have halphabet := Nfa.alphabet_link (a := a) (q := q) hp
  split
  · next ha =>
    rw [if_neg ha] at halphabet
    rw [modify_run]
    congr 1
    rw [Nfa.stored, Nfa.stored, hcount, halphabet, ← hrows]
    rfl
  · next ha =>
    rw [if_pos (not_not.mp ha)] at halphabet
    show EStateM.Result.ok _ _ = _
    congr 1
    rw [Nfa.stored, Nfa.stored, hcount, halphabet, ← hrows]
    rfl

theorem addSilent_run (hp : p < n.count) (hq : q < n.count) :
    addSilent p q n.stored = .ok () (n.link p epsilon q).stored := addTransition_run hp hq

/-- The operation looks at what is stored and does not change it, whether it fails or not. -/
def Looks {α : Type} (x : Storing α) : Prop := ∀ s, (∃ b, x s = .ok b s) ∨ ∃ e, x s = .error e s

theorem looks_checkState (i : Int) : Looks (checkState i) := by
  intro s
  cases h : FormalLang.checkState s.count i with
  | ok p => exact .inl ⟨p, checkState_run h⟩
  | error e => exact .inr ⟨_, checkState_run_error h⟩

theorem looks_rowOf (p : Nat) : Looks (rowOf p) := by
  intro s
  cases h : s.rows[p]? with
  | some row => exact .inl ⟨row, rowOf_run h⟩
  | none => exact .inr ⟨_, rowOf_run_error h⟩

/-- After a look, nothing has changed where an operation fails if this is so of the rest of it. -/
theorem Looks.eq_of_bind_error {α β : Type} {x : Storing α} {f : α → Storing β} {e : StoreError} (hx : Looks x)
    (hf : ∀ b, f b s = .error e t → t = s) (h : (x >>= f) s = .error e t) : t = s := by
  rcases hx s with ⟨b, hb⟩ | ⟨e', he⟩
  · rw [bind_run hb] at h
    exact hf b h
  · rw [bind_run_error he] at h
    exact (EStateM.Result.error.inj h).2.symm

/-- Nothing has changed where an addition fails: its looks come first, and its changes do not fail. -/
theorem eq_of_addTransition_error {e : StoreError} (h : addTransition i a j s = .error e t) : t = s := by
  refine (looks_checkState i).eq_of_bind_error (fun p h => ?_) h
  refine (looks_checkState j).eq_of_bind_error (fun q h => ?_) h
  refine (looks_rowOf p).eq_of_bind_error (fun row h => ?_) h
  rw [bind_run (modify_run _ _)] at h
  split at h <;> contradiction

/-! ## Expressions -/

theorem beginAt_run (start : Option Nat) (s : StoredNfa) : beginAt start s = .ok () { s with pending := start } := rfl

theorem claimStart_run (n : Nfa) (start : Option Nat) :
    claimStart { n.stored with pending := start } = .ok start n.stored := rfl

theorem addFragment_run (n : Nfa) (start : Option Nat) :
    addFragment start n.stored = .ok (n.addFragment start).1 (n.addFragment start).2.stored := by
  cases start with
  | some p =>
    rw [addFragment, bind_run (addState_run n)]
    rfl
  | none =>
    rw [addFragment, bind_run (addState_run n), bind_run (addState_run _)]
    rfl

theorem addSilents_run {l : List (Nat × Nat)} (h : ∀ e ∈ l, e.1 < n.count ∧ e.2 < n.count) :
    addSilents l n.stored = .ok () (l.foldl (fun n e => n.link e.1 epsilon e.2) n).stored := by
  induction l generalizing n with
  | nil => rfl
  | cons e l ih =>
    obtain ⟨⟨hp, hq⟩, h⟩ := List.forall_mem_cons.mp h
    show (addSilent e.1 e.2 >>= fun _ => addSilents l) n.stored = _
    rw [bind_run (addSilent_run hp hq)]
    exact ih (by simpa only [Nfa.count_link] using h)

/-- The construction makes the same fragment, and clears the field that told where it begins. -/
theorem addRegex_run (r : Regex) {start : Option Nat} (hs : ∀ p ∈ start, p < n.count) (ht : n.TargetsInRange) :
    addRegex r { n.stored with pending := start } =
      .ok (Nfa.addRegex r start n).1 (Nfa.addRegex r start n).2.stored := by
  induction r generalizing start n with
  | literal a =>
    have hf := Nfa.joins_addFragment hs ht
    rw [addRegex, bind_run (claimStart_run n start), bind_run (addFragment_run n start),
      bind_run (addTransition_run hf.entry_lt hf.exit_lt)]
    rfl
  | concat l r ihl ihr =>
    have hl := Nfa.joins_addRegex l start hs ht
    rw [addRegex, bind_run (claimStart_run n start), bind_run (beginAt_run start _), bind_run (ihl hs ht),
      bind_run (get_run _), Nfa.addRegex]
    by_cases hb : (Nfa.addRegex l start n).2.flags.silentConcat = true
    · have hr := Nfa.joins_addRegex r none Nfa.forall_mem_none hl.targets
      rw [if_pos (show (Nfa.addRegex l start n).2.stored.flags.silentConcat = true from hb), bind_run (beginAt_run none _),
        bind_run (ihr Nfa.forall_mem_none hl.targets), bind_run (addSilent_run (hl.grow hr).exit_lt hr.entry_lt)]
      dsimp only
      rw [if_pos hb]
      rfl
    · rw [if_neg (show ¬ (Nfa.addRegex l start n).2.stored.flags.silentConcat = true from hb), bind_run (beginAt_run _ _),
        bind_run (ihr (fun p hp => Option.some.inj hp ▸ hl.exit_lt) hl.targets)]
      dsimp only
      rw [if_neg hb]
      rfl
  | alternation l r ihl ihr =>
    have hf := Nfa.joins_addFragment hs ht
    have hl := Nfa.joins_addRegex l none Nfa.forall_mem_none hf.targets
    have hr := Nfa.joins_addRegex r none Nfa.forall_mem_none hl.targets
    have hlr := hl.grow hr
    have hfr := (hf.grow hl).grow hr
    rw [addRegex, bind_run (claimStart_run n start), bind_run (addFragment_run n start), bind_run (beginAt_run none _),
      bind_run (ihl Nfa.forall_mem_none hf.targets), bind_run (beginAt_run none _), bind_run (ihr Nfa.forall_mem_none hl.targets),
      bind_run (addSilents_run ?_)]
    · rfl
    · simp only [List.forall_mem_cons]
      exact ⟨⟨hfr.entry_lt, hlr.entry_lt⟩, ⟨hfr.entry_lt, hr.entry_lt⟩, ⟨hlr.exit_lt, hfr.exit_lt⟩, ⟨hr.exit_lt, hfr.exit_lt⟩,
        List.forall_mem_nil _⟩
  | star r ih =>
    have hf := Nfa.joins_addFragment hs ht
    have hr := Nfa.joins_addRegex r none Nfa.forall_mem_none hf.targets
    have hfr := hf.grow hr
    rw [addRegex, bind_run (claimStart_run n start), bind_run (addFragment_run n start), bind_run (beginAt_run none _),
      bind_run (ih Nfa.forall_mem_none hf.targets), bind_run (addSilents_run ?_)]
    · rfl
    · simp only [List.forall_mem_cons]
      exact ⟨⟨hfr.entry_lt, hfr.exit_lt⟩, ⟨hfr.entry_lt, hr.entry_lt⟩, ⟨hr.exit_lt, hr.entry_lt⟩, ⟨hr.exit_lt, hfr.exit_lt⟩,
        List.forall_mem_nil _⟩

theorem build_run (r : Regex) (ht : n.TargetsInRange) : build r n.stored = .ok () (n.build r).stored := by
  rw [build, bind_run (beginAt_run none _), bind_run (addRegex_run r Nfa.forall_mem_none ht),
    bind_run (modify_run _ _)]
  rfl

/-! ## Whole automata -/

/-- What succeeds has succeeded step by step. -/
theorem bind_run_eq_ok_iff {α β : Type} {x : Storing α} {f : α → Storing β} {b : β} :
    (x >>= f) s = .ok b t ↔ ∃ a k, x s = .ok a k ∧ f a k = .ok b t := by
  cases h : x s with
  | ok a k =>
    rw [bind_run h]
    constructor
    · exact fun h => ⟨a, k, rfl, h⟩
    · rintro ⟨_, _, ⟨⟩, h⟩
      exact h
  | error e k =>
    rw [bind_run_error h]
    constructor
    · exact nofun
    · rintro ⟨_, _, h, -⟩
      contradiction

theorem checkState_eq_ok_iff : checkState i s = .ok p t ↔ FormalLang.checkState s.count i = .ok p ∧ t = s := by
  cases h : FormalLang.checkState s.count i with
  | ok q =>
    rw [checkState_run h]
    simp [eq_comm]
  | error e =>
    rw [checkState_run_error h]
    simp

theorem mapM_checkState_eq_ok_iff {l : List Int} {qs : List Nat} :
    l.mapM checkState s = .ok qs t ↔ l.mapM (FormalLang.checkState s.count) = .ok qs ∧ t = s := by
  induction l generalizing qs t with
  | nil =>
    show EStateM.Result.ok [] s = _ ↔ Except.ok [] = _ ∧ _
    simp [eq_comm]
  | cons i l ih =>
    rw [List.mapM_cons, List.mapM_cons, bind_run_eq_ok_iff, bind_eq_ok_iff]
    constructor
    · rintro ⟨p, k, hi, hl⟩
      obtain ⟨hp, rfl⟩ := checkState_eq_ok_iff.mp hi
      obtain ⟨ps, k', hl, hpure⟩ := bind_run_eq_ok_iff.mp hl
      obtain ⟨hps, rfl⟩ := ih.mp hl
      obtain ⟨rfl, rfl⟩ := EStateM.Result.ok.inj hpure
      exact ⟨⟨p, hp, bind_eq_ok_iff.mpr ⟨ps, hps, rfl⟩⟩, rfl⟩
    · rintro ⟨⟨p, hp, h⟩, rfl⟩
      obtain ⟨ps, hps, h⟩ := bind_eq_ok_iff.mp h
      obtain rfl := Except.ok.inj h
      exact ⟨p, t, checkState_eq_ok_iff.mpr ⟨hp, rfl⟩, bind_run_eq_ok_iff.mpr ⟨ps, t, ih.mpr ⟨hps, rfl⟩, rfl⟩⟩

/-- A transition is added if the automaton that is stored takes it, and then that is what is stored. -/
theorem addTransition_eq_ok_iff :
    addTransition i a j n.stored = .ok () t ↔ ∃ m, n.addTransition i a j = .ok m ∧ t = m.stored := by
  constructor
  · intro hrun
    obtain ⟨p, s, hi, h⟩ := bind_run_eq_ok_iff.mp hrun
    obtain ⟨hp, rfl⟩ := checkState_eq_ok_iff.mp hi
    obtain ⟨q, s, hj, -⟩ := bind_run_eq_ok_iff.mp h
    obtain ⟨hq, rfl⟩ := checkState_eq_ok_iff.mp hj
    rw [eq_natCast_of_checkState hp, eq_natCast_of_checkState hq,
      addTransition_run (lt_of_checkState hp) (lt_of_checkState hq)] at hrun
    obtain ⟨-, rfl⟩ := EStateM.Result.ok.inj hrun
    exact ⟨n.link p a q, bind_eq_ok_iff.mpr ⟨p, hp, bind_eq_ok_iff.mpr ⟨q, hq, rfl⟩⟩, rfl⟩
  · rintro ⟨m, hm, rfl⟩
    obtain ⟨p, hp, hm⟩ := bind_eq_ok_iff.mp hm
    obtain ⟨q, hq, hm⟩ := bind_eq_ok_iff.mp hm
    obtain rfl := Except.ok.inj hm
    rw [eq_natCast_of_checkState hp, eq_natCast_of_checkState hq]
    exact addTransition_run (lt_of_checkState hp) (lt_of_checkState hq)

theorem forM_addTransition_eq_ok_iff {l : List (Int × Symbol × Int)} :
    (l.forM fun (p, a, q) => addTransition p a q) n.stored = .ok () t ↔
      ∃ m, l.foldlM (fun n (i, a, j) => n.addTransition i a j) n = .ok m ∧ t = m.stored := by
  induction l generalizing n with
  | nil =>
    show EStateM.Result.ok () n.stored = _ ↔ ∃ m, Except.ok n = _ ∧ _
    simp [eq_comm]
  | cons e l ih =>
    rw [List.foldlM_cons]
    show (addTransition e.1 e.2.1 e.2.2 >>= fun _ => l.forM _) n.stored = _ ↔ _
    rw [bind_run_eq_ok_iff]
    constructor
    · rintro ⟨_, s, hs, h⟩
      obtain ⟨k, hk, rfl⟩ := addTransition_eq_ok_iff.mp hs
      obtain ⟨m, hm, rfl⟩ := ih.mp h
      exact ⟨m, bind_eq_ok_iff.mpr ⟨k, hk, hm⟩, rfl⟩
    · rintro ⟨m, hm, rfl⟩
      obtain ⟨k, hk, hm⟩ := bind_eq_ok_iff.mp hm
      exact ⟨(), k.stored, addTransition_eq_ok_iff.mpr ⟨k, hk, rfl⟩, ih.mpr ⟨m, hm, rfl⟩⟩

theorem addState_run_unit (n : Nfa) : (do let _ ← addState) n.stored = .ok () n.addState.2.stored := by
  rw [bind_run (addState_run n)]
  rfl

theorem forM_addState_run (l : List Nat) (n : Nfa) :
    (l.forM fun _ => do let _ ← addState) n.stored =
      .ok () ({ n with rows := n.rows ++ List.replicate l.length ∅ } : Nfa).stored := by
  induction l generalizing n with
  | nil =>
    rw [List.length_nil, List.replicate_zero, List.append_nil]
    rfl
  | cons q l ih =>
    show ((do let _ ← addState) >>= fun _ => l.forM _) n.stored = _
    rw [bind_run (addState_run_unit n), ih, List.length_cons, List.replicate_succ]
    show EStateM.Result.ok () (Nfa.stored { n with rows := (n.rows ++ [∅]) ++ _ }) = _
    rw [List.append_assoc]
    rfl

/-- An automaton is filled with its parts if they make an automaton, and then that is what is stored. -/
theorem ofTables_eq_ok_iff {count start : Int} {accept : List Int} {transitions : List (Int × Symbol × Int)}
    {flags : BuildFlags} :
    ofTables count start accept transitions { flags } = .ok () t ↔
      ∃ n, Nfa.ofTables count start accept transitions flags = .ok n ∧ t = n.stored := by
  have hstates := forM_addState_run (List.range count.toNat) { flags }
  rw [List.nil_append, List.length_range] at hstates
  rw [ofTables, show ({ flags } : StoredNfa) = ({ flags } : Nfa).stored from rfl, bind_run hstates]
  constructor
  · intro h
    obtain ⟨p, s, hstart, h⟩ := bind_run_eq_ok_iff.mp h
    obtain ⟨hp, rfl⟩ := checkState_eq_ok_iff.mp hstart
    rw [bind_run (modify_run _ _)] at h
    obtain ⟨qs, s, haccept, h⟩ := bind_run_eq_ok_iff.mp h
    obtain ⟨hqs, rfl⟩ := mapM_checkState_eq_ok_iff.mp haccept
    rw [bind_run (modify_run _ _)] at h
    obtain ⟨m, hm, rfl⟩ := (forM_addTransition_eq_ok_iff
      (n := { rows := List.replicate count.toNat ∅, start := p, accept := .ofList qs, flags })).mp h
    exact ⟨m, bind_eq_ok_iff.mpr ⟨p, hp, bind_eq_ok_iff.mpr ⟨qs, hqs, hm⟩⟩, rfl⟩
  · rintro ⟨m, h, rfl⟩
    obtain ⟨p, hp, h⟩ := bind_eq_ok_iff.mp h
    obtain ⟨qs, hqs, h⟩ := bind_eq_ok_iff.mp h
    have hstart : checkState start (Nfa.stored { rows := List.replicate count.toNat ∅, flags }) = .ok p _ :=
      checkState_run hp
    have haccept : accept.mapM checkState (Nfa.stored { rows := List.replicate count.toNat ∅, start := p, flags }) =
        .ok qs _ := mapM_checkState_eq_ok_iff.mpr ⟨hqs, rfl⟩
    rw [bind_run hstart, bind_run (modify_run _ _)]
    refine (bind_run haccept).trans ?_
    exact (forM_addTransition_eq_ok_iff
      (n := { rows := List.replicate count.toNat ∅, start := p, accept := .ofList qs, flags })).mpr ⟨m, h, rfl⟩

/-- An edit leaves what the edit of the automaton leaves, whether it is refused or not. -/
theorem after_apply (ht : n.TargetsInRange) (e : NfaEdit) : after (apply e) n.stored = (n.apply e).stored := by
  have hadd : ∀ i a j, after (addTransition i a j) n.stored = ((n.addTransition i a j).toOption.getD n).stored := by
    intro i a j
    unfold after
    cases h : addTransition i a j n.stored with
    | ok u t =>
      obtain ⟨m, hm, rfl⟩ := addTransition_eq_ok_iff.mp h
      rw [hm]
      rfl
    | error e t =>
      cases hm : n.addTransition i a j with
      | ok m =>
        rw [addTransition_eq_ok_iff.mpr ⟨m, hm, rfl⟩] at h
        contradiction
      | error e' => exact eq_of_addTransition_error h
  cases e with
  | addState =>
    show after (do let _ ← addState) n.stored = _
    rw [after, addState_run_unit]
    rfl
  | addTransition i a j => exact hadd i a j
  | addSilent i j => exact hadd i epsilon j
  | build r =>
    show after (build r) n.stored = _
    rw [after, build_run r ht]
    rfl

/-- What the operations make is what is stored of the automata that can be made. -/
theorem made_iff : Made s ↔ ∃ n : Nfa, n.Constructible ∧ s = n.stored := by
  constructor
  · intro h
    induction h with
    | empty flags => exact ⟨{ flags }, .empty flags, rfl⟩
    | ofTables h =>
      obtain ⟨n, hn, rfl⟩ := ofTables_eq_ok_iff.mp h
      exact ⟨n, .ofTables hn, rfl⟩
    | load ht h =>
      obtain ⟨n, hn, rfl⟩ := ofTables_eq_ok_iff.mp h
      exact ⟨n, .load (bind_eq_ok_iff.mpr ⟨_, ht, mapError_eq_ok_iff.mpr hn⟩), rfl⟩
    | apply e _ ih =>
      obtain ⟨n, hn, rfl⟩ := ih
      exact ⟨n.apply e, .apply e hn, after_apply hn.consistent.target_lt e⟩
  · rintro ⟨n, hn, rfl⟩
    induction hn with
    | empty flags => exact .empty flags
    | ofTables h => exact .ofTables (ofTables_eq_ok_iff.mpr ⟨_, h, rfl⟩)
    | load h =>
      obtain ⟨t, ht, h⟩ := bind_eq_ok_iff.mp h
      exact .load ht (ofTables_eq_ok_iff.mpr ⟨_, mapError_eq_ok_iff.mp h, rfl⟩)
    | apply e hn ih =>
      rw [← after_apply hn.consistent.target_lt e]
      exact .apply e ih

/-! ## Well-formed tables -/

/-- A row lists the transition. -/
def HasTransition (s : StoredNfa) (p : Nat) (a : Symbol) (q : Nat) : Prop :=
  ∃ row, s.rows[p]? = some row ∧ ∃ qs, row.get? a = some qs ∧ q ∈ qs

/-- There is one row for each state, whatever is named is a state, and the alphabet holds the labels other than ε. -/
structure WellFormed (s : StoredNfa) : Prop where
  length_rows : s.rows.length = s.count
  transition_lt : ∀ p a q, s.HasTransition p a q → p < s.count ∧ q < s.count
  accept_lt : ∀ q ∈ s.accept, q < s.count
  start_lt : 0 < s.count → s.start < s.count
  mem_alphabet_iff : ∀ a, a ∈ s.alphabet ↔ a ≠ epsilon ∧ ∃ p q, s.HasTransition p a q
  pending_eq : s.pending = none

theorem hasTransition_stored : n.stored.HasTransition p a q ↔ q ∈ n.targets p a := Nfa.mem_targets_iff.symm

theorem wellFormed_stored (h : n.Consistent) : n.stored.WellFormed where
  length_rows := rfl
  transition_lt p a q hpq := by
    have hq := hasTransition_stored.mp hpq
    exact ⟨Nfa.lt_count_of_mem_targets hq, h.target_lt p a q hq⟩
  accept_lt := h.accept_lt
  start_lt := h.start_lt
  mem_alphabet_iff a := by
    simp only [hasTransition_stored]
    exact (Nfa.mem_alphabet_iff_exists_targets h.target_exists).trans and_comm
  pending_eq := rfl

/-- Whatever the operations make, failing ones included, is well formed and is what is stored of an automaton that can be made.
A further addition that fails changes nothing, and a further construction succeeds and changes no row of an older state. -/
theorem made_wellFormed (h : Made s) :
    s.WellFormed ∧ (∃ n : Nfa, n.Constructible ∧ s = n.stored) ∧
      (∀ i a j e t, addTransition i a j s = .error e t → t = s) ∧ (∀ i j e t, addSilent i j s = .error e t → t = s) ∧
      ∀ r, ∃ t, build r s = .ok () t ∧ s.rows <+: t.rows := by
  obtain ⟨n, hn, rfl⟩ := made_iff.mp h
  refine ⟨wellFormed_stored hn.consistent, ⟨n, hn, rfl⟩, fun i a j e t => eq_of_addTransition_error,
    fun i j e t => eq_of_addTransition_error, fun r => ?_⟩
  exact ⟨(n.build r).stored, build_run r hn.consistent.target_lt, Nfa.rows_isPrefix_build n r⟩

/-- A state, an addition that is refused, and a loop; then another addition that is refused, and one more expression. -/
theorem made_wellFormed_refused :
    ∃ s, Made s ∧ s.count = 5 ∧ s.alphabet.toList = ["a"] ∧ s.WellFormed ∧
      addTransition 0 "b" 5 s = .error (.usage (.invalidState 5 5)) s ∧ ∃ t, build (.literal "b") s = .ok () t ∧
        s.rows <+: t.rows ∧ t.count = 7 ∧ t.alphabet.toList = ["a", "b"] := by
  have hmade : Made (after (apply (.build (.star (.literal "a")))) (after (apply (.addTransition 0 "b" 1))
      (after (apply .addState) {}))) := .apply _ (.apply _ (.apply _ (.empty {})))
  obtain ⟨hwf, -, -, -, hbuild⟩ := made_wellFormed hmade
  obtain ⟨t, ht, hrows⟩ := hbuild (.literal "b")
  refine ⟨_, hmade, by decide, by decide, hwf, rfl, t, ht, hrows, ?_⟩
  obtain ⟨-, rfl⟩ := EStateM.Result.ok.inj ht
  decide

end StoredNfa

end FormalLang
