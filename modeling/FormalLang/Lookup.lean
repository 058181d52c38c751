import FormalLang.Symbol

/-!
# Look-ups that may fail

An operation looks states up in lists and in tables, and symbols in rows. A strict operation stops at the first look-up that
finds nothing, and tells what it looked for.

* `LookupError`: what was looked for.
* `found`: what a look-up finds, or the error.
-/

namespace FormalLang

/-- What is looked for and not there. -/
inductive LookupError where
  /-- The place of a list. -/
  | place (i : Nat)
  /-- The symbol of a row. -/
  | symbol (a : Symbol)
  /-- The key of a table on states. -/
  | state (q : Nat)
  deriving DecidableEq, Repr

/-- What a look-up finds, or the error. -/
def found {α : Type} (e : LookupError) : Option α → Except LookupError α
  | some x => .ok x
  | none => .error e

@[simp] theorem found_some {α : Type} (e : LookupError) (x : α) : found e (some x) = .ok x := rfl

@[simp] theorem found_none {α : Type} (e : LookupError) : found e (none : Option α) = .error e := rfl

end FormalLang
