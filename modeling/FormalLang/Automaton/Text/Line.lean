import FormalLang.Symbol
import FormalLang.Text.Blank
import FormalLang.Text.Digit

/-!
# Lines of automaton texts

A line is blank, names a header and its value, or gives a transition:

    start_state: 0
    end_states: [1, 2]
    num_states: 3
    0 -- 'a' --> 1
    0 ----> 2

Blanks may stand around every part. The symbol of a transition is one ASCII letter or digit; without a symbol the
transition is silent. `finish_states` is a second spelling of `end_states`. Numbers stay as they are written.

* `Line.ofChars?`: what a line says, if it says anything.
* `stateList?`: the items of a list of states.
-/

namespace FormalLang

/-- What a header is about. -/
inductive Header where
  | startState
  | endStates
  | numStates
  deriving DecidableEq, Repr

/-- The name of a header. -/
def Header.name : Header → String
  | startState => "start_state"
  | endStates => "end_states"
  | numStates => "num_states"

/-- The spellings of the headers. -/
def Header.spellings : List (String × Header) :=
  [("start_state", .startState), ("end_states", .endStates), ("finish_states", .endStates),
    ("num_states", .numStates)]

/-- What a line says. -/
inductive Line where
  | blank
  | header (header : Header) (value : List Char)
  | transition (source : List Char) (symbol : Symbol) (target : List Char)
  deriving DecidableEq, Repr

namespace Line

/-- What follows `start` in a text that begins with it. -/
def after? : (start text : List Char) → Option (List Char)
  | [], cs => some cs
  | _ :: _, [] => none
  | a :: start, c :: cs => if a = c then after? start cs else none

/-- The digits that a text begins with, and the text after them. -/
def digits? (cs : List Char) : Option (List Char × List Char) :=
  match cs.takeWhile Text.isDecimalDigit with
  | [] => none
  | ds => some (ds, cs.dropWhile Text.isDecimalDigit)

/-- The value of the header that a text gives under the given spelling. -/
def headerValue? (spelling : String) (cs : List Char) : Option (List Char) := do
  let rest ← after? spelling.toList cs
  let value ← after? [':'] (Text.trimLeft rest)
  return Text.trim value

/-- The header that a text gives. -/
def header? (cs : List Char) : Option Line :=
  Header.spellings.findSome? fun (spelling, h) => (headerValue? spelling cs).map (Line.header h)

/-- The symbol between the two parts of an arrow, and the text after it. Without a symbol the arrow is silent. -/
def arrowSymbol? : List Char → Option (Symbol × List Char)
  | '\'' :: c :: '\'' :: cs => if c.isAlphanum then some (String.singleton c, Text.trimLeft cs) else none
  | cs => some (epsilon, cs)

/-- The number behind the tip of an arrow, which must be the end of the text. -/
def arrowTarget? (cs : List Char) : Option (List Char) := do
  let cs ← after? ['-', '-', '>'] cs
  let (target, cs) ← digits? (Text.trimLeft cs)
  if (Text.trimLeft cs).isEmpty then some target else none

/-- The transition that a text gives. -/
def transition? (cs : List Char) : Option Line := do
  let (source, cs) ← digits? cs
  let cs ← after? ['-', '-'] (Text.trimLeft cs)
  let (symbol, cs) ← arrowSymbol? (Text.trimLeft cs)
  return .transition source symbol (← arrowTarget? cs)

/-- What a line says, if it says anything. -/
def ofChars? (cs : List Char) : Option Line :=
  match Text.trimLeft cs with
  | [] => some .blank
  | cs => header? cs <|> transition? cs

end Line

/-- The pieces of a text between the occurrences of `c`. There is at least one. -/
def piecesBetween (c : Char) : List Char → List (List Char)
  | [] => [[]]
  | x :: xs =>
    if x = c then [] :: piecesBetween c xs
    else
      match piecesBetween c xs with
      | [] => [[x]]
      | p :: ps => (x :: p) :: ps

/-- The inside of a list without the blanks at its ends, and without a comma after its last item. -/
def listInside (cs : List Char) : List Char :=
  let inside := Text.trim cs
  if inside.getLast? = some ',' then Text.trimRight inside.dropLast else inside

/-- The items between the commas of a list, with the blanks around them. A list may end with a comma, also one without
items. -/
def listItems (cs : List Char) : List (List Char) :=
  match listInside cs with
  | [] => []
  | inside => piecesBetween ',' inside

/-- Is the text digits with blanks around them? -/
def isStateItem (cs : List Char) : Bool := !(Text.trim cs).isEmpty && (Text.trim cs).all Text.isDecimalDigit

/-- The items of a list of states in square brackets, with the blanks around them. -/
def stateList? : List Char → Option (List (List Char))
  | '[' :: cs =>
    let items := listItems cs.dropLast
    if cs.getLast? = some ']' && items.all isStateItem then some items else none
  | _ => none

end FormalLang
