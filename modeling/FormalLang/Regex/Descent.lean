import FormalLang.Regex.Reading

/-!
# Reading by recursive descent

The same texts can be read without a list of open scopes. A cursor tells how many characters have been consumed and how many
parentheses are open, and a scope is read by a function that calls itself for each scope inside. A parenthesis and a bar both
begin a scope. What follows a bar is closed by the parenthesis that closes the scope around it, so a scope learns that it is
over from the number of open parentheses, which has become smaller than it was.

Nothing bounds the calls. Where they never came to an end, there would be no outcome.

* `Regex.Chars.scope`, `further`, `next`: a scope, what is left of one, and its next piece.
* `Regex.descend`: the tree of a text, or the first fault.
-/

namespace FormalLang

namespace Regex

/-- How far the reading of a text has come. -/
structure Cursor where
  /-- The number of characters that have been consumed. -/
  pos : Nat := 0
  /-- The number of parentheses that are open. -/
  depth : Int := 0
  deriving DecidableEq, Repr

/-- A piece of the reading: it moves the cursor, may have a fault, and may never come to an end. -/
abbrev Descent := StateT Cursor (ExceptT ReadError Option)

/-- The characters of a text. -/
abbrev Chars := List Char

namespace Descent

/-- Move behind the character at the cursor. -/
def consume : Descent Unit := modify fun c => { c with pos := c.pos + 1 }

/-- Open a parenthesis. -/
def enter : Descent Unit := modify fun c => { c with depth := c.depth + 1 }

/-- Close a parenthesis, of which there must be one. -/
def leave : Descent Unit := do
  modify fun c => { c with depth := c.depth - 1 }
  if (← get).depth < 0 then throw .unbalanced else return ()

/-- A character must be a symbol or an operator. -/
def validate (c : Char) : Descent Unit :=
  if isAllowedChar c then return () else throw (.invalidCharacter c)

/-- The operand that has been read, if there is one. -/
def required (e : ReadError) : Option Regex → Descent Regex
  | none => throw e
  | some r => return r

/-- The tree of a run. -/
def runTree (cs : List Char) : Descent Regex :=
  match readRun cs with
  | .error e => throw e
  | .ok r => return r

end Descent

namespace Chars

open Descent

/-! ## Characters -/

/-- The character at the cursor. -/
def current? (text : Chars) : Descent (Option Char) := return text[(← get).pos]?

/-- Consume a star, if there is one at the cursor. -/
def takeStar (text : Chars) : Descent Bool := do
  if (← text.current?) = some '*' then
    consume
    return true
  else return false

/-- Consume the characters up to the next parenthesis or bar. -/
def takeRun (text : Chars) : Descent (List Char) := do
  match ← text.current? with
  | none => return []
  | some c =>
    if Lexeme.isDelimiter c then return []
    else do
      consume
      validate c
      return c :: (← text |>.takeRun)
partial_fixpoint

/-! ## Scopes -/

mutual

/-- Read a scope up to the parenthesis that closes it, or to the end. -/
def scope (text : Chars) : Descent Regex := do
  let operand ← text |>.next none
  text |>.further (← get).depth operand
partial_fixpoint

/-- Read on in a scope inside of which `depth` parentheses are open. -/
def further (text : Chars) (depth : Int) (operand : Regex) : Descent Regex := do
  if (← get).pos < text.length then
    let operand ← text |>.next (some operand)
    if (← get).depth < depth then return operand else text |>.further depth operand
  else return operand
partial_fixpoint

/-- Read the next group, run or alternative, and join it with the operand before it. -/
def next (text : Chars) (operand : Option Regex) : Descent Regex := do
  match ← text.current? with
  | none => required .emptyText operand
  | some c => do
    validate c
    if c = '(' then
      consume
      enter
      let group ← text |>.scope
      return append operand (starIf (← text.takeStar) group)
    else if c = '|' then
      consume
      let left ← required .leadingBar operand
      return alternation left (← text |>.scope)
    else if c = ')' then
      consume
      leave
      required .emptyGroup operand
    else return append operand (← runTree (← text.takeRun))
partial_fixpoint

end

/-- Read a whole text, at whose end no parenthesis may be open. -/
def whole (text : Chars) : Descent Regex := do
  let r ← text.scope
  if (← get).depth = 0 then return r else throw .unbalanced

end Chars

/-- The outcome of reading a text, if the reading comes to an end. -/
def descend (text : String) : Option (Except ReadError Regex) := ((Chars.whole text.toList).run' {}).run

end Regex

end FormalLang
