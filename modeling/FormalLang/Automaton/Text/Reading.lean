import FormalLang.Automaton.Text.Line
import FormalLang.Dfa.Basic
import FormalLang.Nfa.Basic
import FormalLang.Text.Numeral

/-!
# Reading automaton texts

The lines are read first, in order, with the numbers of their transitions; then the headers must all be there; then
their values are read and all states are compared with the number of states. A deterministic automaton has no silent transition and no two
transitions from one state on one symbol to different states; giving a transition twice does no harm.

* `AutomatonText.read`: the tables of a text, or the first fault.
* `Nfa.load`, `Dfa.load`: the automaton of a text.
* `FormatError.message`: the text of each fault.
-/

namespace FormalLang

/-- What is wrong with the text of an automaton. -/
inductive FormatError where
  | duplicateHeader (header : Header)
  | malformedLine (text : List Char)
  | missingHeader (header : Header)
  | notAState (value : List Char)
  | notAStateList (value : List Char)
  | outOfRange (state count : Nat)
  | silentTransition
  | conflictingTransitions (state : Nat) (symbol : Symbol)
  deriving DecidableEq, Repr

/-- A list of characters in quotes. -/
def quotedText (cs : List Char) : String := Text.quoted (String.ofList cs)

/-- The text of a fault, without its line. -/
def FormatError.message : FormatError → String
  | duplicateHeader h => "duplicate header " ++ Text.quoted h.name
  | malformedLine cs => "malformed line " ++ quotedText cs
  | missingHeader h => "missing header " ++ Text.quoted h.name
  | notAState cs => "expected a state index, got " ++ quotedText cs
  | notAStateList cs => "expected a list of states like [1, 2], got " ++ quotedText cs
  | outOfRange q n => s!"state {q} is out of range for {n} states"
  | silentTransition => "a DFA cannot have epsilon transitions"
  | conflictingTransitions q a => s!"state {q} has two transitions on {Text.quoted a}"

/-- Why an automaton cannot be loaded. -/
inductive LoadError where
  /-- The text is not in the format. The number of the line is given where one line is at fault. -/
  | format (error : FormatError) (line : Option Nat)
  /-- What stands in the place of a number is no numeral. -/
  | numeral (fault : Text.NumeralFault)
  /-- The tables do not fit together. -/
  | usage (error : UsageError)
  deriving DecidableEq, Repr

/-- The text of a fault. -/
def LoadError.message : LoadError → String
  | format e none => e.message
  | format e (some n) => s!"line {n}: {e.message}"
  | numeral e => e.message
  | usage e => e.message

/-- A transition with the number of its line. -/
structure TransitionLine where
  line : Nat
  source : Nat
  symbol : Symbol
  target : Nat
  deriving DecidableEq, Repr

/-- The tables that a text gives. -/
structure AutomatonText where
  /-- The number of states. -/
  count : Nat
  /-- The state to start in. -/
  start : Nat
  /-- The accepting states, in the order in which they are written. -/
  accept : List Nat
  /-- The transitions, in the order in which they are written. -/
  transitions : List TransitionLine
  deriving DecidableEq, Repr

namespace AutomatonText

/-- The headers and transitions of some lines. -/
structure Draft where
  /-- The values of the headers, with the numbers of their lines. -/
  headers : Table Header (Nat × List Char) := ∅
  /-- The transitions. -/
  transitions : List TransitionLine := []
  deriving DecidableEq

/-- The number that a text writes. -/
def readNumber (cs : List Char) : Except LoadError Nat := (Text.readNumeral cs).mapError .numeral

/-- Add what a line says. Lines are numbered from one. -/
def Draft.addLine (d : Draft) (number : Nat) (cs : List Char) : Except LoadError Draft :=
  match Line.ofChars? cs with
  | none => .error (.format (.malformedLine (Text.trim cs)) number)
  | some .blank => .ok d
  | some (.header h value) =>
    if d.headers.contains h then .error (.format (.duplicateHeader h) number)
    else .ok { d with headers := d.headers.insert h (number, value) }
  | some (.transition source a target) => do
    let p ← readNumber source
    let q ← readNumber target
    return { d with transitions := d.transitions ++ [⟨number, p, a, q⟩] }

/-- What the lines of a text say. -/
def Draft.ofLines (ls : List (List Char)) : Except LoadError Draft :=
  ls.zipIdx.foldlM (fun d (cs, i) => d.addLine (i + 1) cs) {}

/-- The value of a header, with the number of its line. -/
def Draft.header (d : Draft) (h : Header) : Except LoadError (Nat × List Char) :=
  match d.headers.get? h with
  | none => .error (.format (.missingHeader h) none)
  | some value => .ok value

/-- The number that a header gives. -/
def readState (number : Nat) (value : List Char) : Except LoadError Nat :=
  if value.isEmpty || !value.all Text.isDigitLike then .error (.format (.notAState value) number)
  else readNumber value

/-- The numbers that a header lists. -/
def readStates (number : Nat) (value : List Char) : Except LoadError (List Nat) :=
  match stateList? value with
  | none => .error (.format (.notAStateList value) number)
  | some items => items.mapM readNumber

/-- Refuse a number that is not below the number of states. -/
def checkRange (count number q : Nat) : Except LoadError Unit :=
  if q < count then .ok () else .error (.format (.outOfRange q count) number)

/-- The tables of a text. -/
def read (text : String) : Except LoadError AutomatonText := do
  let d ← Draft.ofLines (Text.lines text.toList)
  let (startLine, startValue) ← d.header .startState
  let (endLine, endValue) ← d.header .endStates
  let (countLine, countValue) ← d.header .numStates
  let count ← readState countLine countValue
  let start ← readState startLine startValue
  let accept ← readStates endLine endValue
  checkRange count startLine start
  accept.forM (checkRange count endLine)
  d.transitions.forM fun t => do
    checkRange count t.line t.source
    checkRange count t.line t.target
  return ⟨count, start, accept, d.transitions⟩

/-- Add a transition to the rows of a deterministic automaton. -/
def addDeterministic (rows : List (Table Symbol Nat)) (t : TransitionLine) :
    Except LoadError (List (Table Symbol Nat)) :=
  if t.symbol = epsilon then .error (.format .silentTransition t.line)
  else
    match (rows.getD t.source ∅).get? t.symbol with
    | none => .ok (rows.modify t.source (·.insert t.symbol t.target))
    | some q =>
      if q = t.target then .ok rows
      else .error (.format (.conflictingTransitions t.source t.symbol) t.line)

end AutomatonText

/-- The nondeterministic automaton of a text. -/
def Nfa.load (text : String) (flags : BuildFlags := {}) : Except LoadError Nfa := do
  let t ← AutomatonText.read text
  let transitions := t.transitions.map fun e => ((e.source : Int), e.symbol, (e.target : Int))
  (Nfa.ofTables t.count t.start (t.accept.map Int.ofNat) transitions flags).mapError .usage

/-- The deterministic automaton of a text. Its alphabet is the set of the symbols of its transitions. -/
def Dfa.load (text : String) (flags : BuildFlags := {}) : Except LoadError Dfa := do
  let t ← AutomatonText.read text
  let rows ← t.transitions.foldlM AutomatonText.addDeterministic (List.replicate t.count ∅)
  let tables : DfaTables := {
    count := t.count
    start := t.start
    accept := t.accept.map Int.ofNat
    rows := rows.map fun row => row.mapValues fun _ => Int.ofNat }
  (Dfa.ofTables tables flags).mapError .usage

end FormalLang
