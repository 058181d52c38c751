import FormalLang.Diagram.Basic
import FormalLang.Symbol
import FormalLang.Text.Listing
import FormalLang.Text.Quoted

/-!
# States and misuse

The states of an automaton are numbered from zero. An automaton may be asked about any integer, which need not be
the number of a state.

* `UsageError.message`: the text of each kind of misuse.
* `stateLabel`: the text of a state in a drawing.
-/

namespace FormalLang

/-- How an automaton can be misused. -/
inductive UsageError where
  /-- A number that is not below the number of states. -/
  | invalidState (state : Int) (count : Nat)
  /-- A symbol outside the alphabet. -/
  | invalidSymbol (symbol : Symbol) (alphabet : List Symbol)
  /-- A number of transition tables other than the number of states. -/
  | tableCount (expected : Int) (given : Nat)
  deriving DecidableEq, Repr

/-- The text of a list of symbols. -/
def symbolListing (l : List Symbol) : String := Text.listing (l.map Text.quoted)

/-- The text of a set of states. -/
def stateListing (s : OrderedSet Nat) : String := Text.setListing (s.toList.map toString)

/-- The text of a kind of misuse. -/
def UsageError.message : UsageError → String
  | invalidState q n => s!"invalid state {q}: expected 0 <= state < {n}"
  | invalidSymbol a alphabet =>
    "symbol " ++ Text.quoted a ++ " is not in the alphabet " ++ symbolListing alphabet
  | tableCount n m => s!"expected {n} transition tables, got {m}"

/-- The state of the given number among `count` states. -/
def checkState (count : Nat) (q : Int) : Except UsageError Nat :=
  if 0 ≤ q ∧ q < count then .ok q.toNat else .error (.invalidState q count)

/-- The number of a state as it is drawn: marked if it is the start, or else if it accepts. -/
def stateLabel (q start : Nat) (accept : OrderedSet Nat) : String :=
  if q = start then s!"s:{q}" else if q ∈ accept then s!"e:{q}" else toString q

/-- A drawing of `count` states, without edges. -/
def stateDiagram (count : Nat) (start : Nat) (accept : OrderedSet Nat) : Diagram :=
  let marked : Diagram := { start := some start, accepting := accept.image Int.ofNat }
  (List.range count).foldl (fun d q => (d.addNode (stateLabel q start accept) (some q)).2) marked

theorem checkState_natCast {count : Nat} {q : Nat} (h : q < count) : checkState count q = .ok q := by
  simp [checkState, h]

theorem lt_of_checkState {count p : Nat} {q : Int} (h : checkState count q = .ok p) : p < count := by
  unfold checkState at h
  split at h
  · obtain rfl := Except.ok.inj h
    omega
  · contradiction

/-- A state has the number that was given for it. -/
theorem eq_natCast_of_checkState {count p : Nat} {q : Int} (h : checkState count q = .ok p) : q = p := by
  unfold checkState at h
  split at h
  · obtain rfl := Except.ok.inj h
    omega
  · contradiction

/-- A computation of two steps succeeds if both do. -/
theorem bind_eq_ok_iff {ε α β : Type} {x : Except ε α} {f : α → Except ε β} {b : β} :
    x >>= f = .ok b ↔ ∃ a, x = .ok a ∧ f a = .ok b := by
  cases x with
  | error e =>
    constructor
    · exact nofun
    · rintro ⟨a, ha, -⟩
      contradiction
  | ok a =>
    constructor
    · exact fun h => ⟨a, rfl, h⟩
    · rintro ⟨a', ha, h⟩
      obtain rfl := Except.ok.inj ha
      exact h

end FormalLang
