/-!
# Build flags

Two switches that an automaton carries: whether the steps of its constructions are recorded in detail, and how the
parts of a concatenation are joined.
-/

namespace FormalLang

/-- The switches of a construction. -/
structure BuildFlags where
  /-- Record each step. -/
  debug : Bool := false
  /-- Join the parts of a concatenation by a silent step, and not by a common state. -/
  silentConcat : Bool := false
  deriving DecidableEq, Repr, Inhabited

namespace BuildFlags

/-- The switches as the bits of a number: one for `debug`, two for `silentConcat`. -/
def ofNat (n : Nat) : BuildFlags := ⟨n.testBit 0, n.testBit 1⟩

/-- The number of which the switches are the bits. -/
def toNat (f : BuildFlags) : Nat := f.debug.toNat + 2 * f.silentConcat.toNat

@[simp] theorem ofNat_toNat (f : BuildFlags) : ofNat f.toNat = f := by
  rcases f with ⟨_ | _, _ | _⟩ <;> rfl

end BuildFlags

end FormalLang
