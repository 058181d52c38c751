import FormalLang.Grammar.FirstFollow

/-!
# Items

An item is a production with a dot in its body, which stands after what has been recognized, and with or without a
terminal that may come after the whole. The dot is a letter of its own. Of several dots the first one counts, and an
item may lack a dot, which is a fault wherever the dot is asked for.

* `Item.shift_body`: the dot changes places with the letter after it.
* `Production.itemize`: the ways to place the dot; a body that is ε alone counts as empty.
-/

namespace FormalLang

/-- The letter that marks a place in a body. -/
def dot : Letter := .terminal "•"

/-- A production with a place in its body, and a terminal that may follow. -/
structure Item where
  /-- The nonterminal that is recognized. -/
  head : Int
  /-- The letters of the production, the dot among them. -/
  body : List Letter
  /-- The terminal that may follow. -/
  lookahead : Option Symbol := none
  deriving DecidableEq, Repr

namespace Item

/-- The parts of an item in the order of their weight. -/
def key (i : Item) : Int × List Letter × Option Symbol := (i.head, i.body, i.lookahead)

theorem key_injective (i j : Item) (h : i.key = j.key) : i = j := by
  cases i; cases j; simp_all [key]

/-- By head, then body, then lookahead, of which none comes first. -/
instance : Ord Item := ⟨compareKey (comparePair compare (comparePair compare compare)) key⟩

instance : Std.TransOrd Item := transCmp_compareKey key

instance : Std.LawfulEqOrd Item := lawfulEqCmp_compareKey key_injective

/-- The production with the dot in it. -/
def production (i : Item) : Production := ⟨i.head, i.body⟩

/-- The item as an arrow, with its lookahead. -/
def text (i : Item) : String :=
  match i.lookahead with
  | none => i.production.text
  | some a => s!"{i.production.text} , {a}"

end Item

/-- What is wrong with an item. -/
inductive ItemFault where
  /-- There is no dot. -/
  | noDot
  /-- There is nothing after the dot. -/
  | complete (item : Item)
  /-- The first sets do not know a nonterminal. -/
  | missing (e : MissingNonterminal)
  deriving DecidableEq, Repr

/-- The text of a fault. -/
def ItemFault.message : ItemFault → String
  | noDot => "tuple.index(x): x not in tuple"
  | complete i => s!"cannot advance the complete item {i.text}"
  | missing e => e.message

namespace Item

/-! ## The dot -/

/-- The letters before the dot, or all letters if there is none. -/
def before (i : Item) : List Letter := i.body.takeWhile (· ≠ dot)

/-- The letters after the dot. -/
def after? (i : Item) : Option (List Letter) := (i.body.dropWhile (· ≠ dot)).tail?

/-- The letter after the dot. -/
def next? (i : Item) : Option Letter := i.after?.bind List.head?

/-- Is there a dot? -/
def hasDot (i : Item) : Bool := i.after?.isSome

/-- Let the dot change places with the letter after it; at the end it stays. -/
def shift (i : Item) : Item :=
  match i.after? with
  | some (l :: rest) => { i with body := i.before ++ l :: dot :: rest }
  | _ => i

theorem body_eq_of_after? {i : Item} {rest : List Letter} (h : i.after? = some rest) :
    i.body = i.before ++ dot :: rest := by
  unfold after? at h
  unfold before
  generalize i.body = b at h ⊢
  induction b with
  | nil => simp at h
  | cons l b ih =>
    by_cases hl : l = dot
    · simp_all
    · simp only [ne_eq, hl, not_false_eq_true, decide_true, List.dropWhile_cons_of_pos] at h
      simpa [hl] using ih h

theorem shift_body {i : Item} {l : Letter} {rest : List Letter} (h : i.after? = some (l :: rest)) :
    i.shift.body = i.before ++ l :: dot :: rest := by
  simp [shift, h]

/-! ## Checked use -/

/-- The number of letters before the dot. -/
def dotPosition (i : Item) : Except ItemFault Nat := if i.hasDot then .ok i.before.length else .error .noDot

/-- The letter after the dot, if there is one. -/
def nextLetter (i : Item) : Except ItemFault (Option Letter) := if i.hasDot then .ok i.next? else .error .noDot

/-- Is the dot at the end? -/
def isComplete (i : Item) : Except ItemFault Bool := do
  return (← i.nextLetter).isNone

/-- The item after one more letter has been recognized. -/
def advance (i : Item) : Except ItemFault Item := do
  if ← i.isComplete then .error (.complete i) else return i.shift

end Item

/-! ## Dotted productions -/

namespace Production

/-- The letters that are recognized one after the other; ε alone is not one of them. -/
def core (p : Production) : List Letter := if p.body = [.terminal epsilon] then [] else p.body

/-- The production with the dot after the first `k` letters. -/
def dotted (p : Production) (k : Nat) : Production := ⟨p.head, p.core.take k ++ dot :: p.core.drop k⟩

/-- The production with the dot at each place, from the first to the last. -/
def itemize (p : Production) : List Production := (List.range (p.core.length + 1)).map p.dotted

/-- The item before anything has been recognized. -/
def initialItem (p : Production) (lookahead : Option Symbol) : Item := ⟨p.head, dot :: p.core, lookahead⟩

end Production

/-- Each production with the dot at each place. -/
def Grammar.itemization (g : Grammar) : List Production := g.productions.flatMap Production.itemize

end FormalLang
