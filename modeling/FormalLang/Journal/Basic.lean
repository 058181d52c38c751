/-!
# Records

What a construction reports about its steps: short texts, each on the channel of the part that reports. The
records of an operation are read off what it started from and what it made; the operation itself does not
know of them.
-/

namespace FormalLang

/-- The part that a record comes from. -/
inductive Channel where
  | automata
  | grammars
  | firstFollow
  | items
  deriving DecidableEq, Repr

/-- A report of one step. -/
structure Record where
  channel : Channel
  message : String
  deriving DecidableEq, Repr

end FormalLang
