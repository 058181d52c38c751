import FormalLang.Regex.Basic
import FormalLang.Regex.Lexeme
import FormalLang.Text.Quoted

/-!
# Reading regular expressions

The grammar is

    expr   ::= term ('|' expr)?
    term   ::= factor+
    factor ::= atom '*'?
    atom   ::= symbol | '(' expr ')'

with ASCII letters and digits as symbols. Alternatives group to the right. A term is the concatenation of its
operands, folded to the left; an operand is a group, starred or not, or a longest run of symbols, starred or not,
which is itself folded to the left.

The reader goes through the lexemes once. It keeps the operands read since the last opening parenthesis or bar
as one tree, the alternatives before it in the open group, and the same for each group around it.

* `Regex.read`: the tree of a text, or the first fault.
* `Regex.readRun`: the tree of a run of symbols and stars.
* `ReadError.message`: the text of each fault.
-/

namespace FormalLang

/-- Why a text is not a regular expression. -/
inductive ReadError where
  /-- A character outside the alphabet and the operators. -/
  | invalidCharacter (c : Char)
  /-- A closing parenthesis without an opening one, or a group that is not closed. -/
  | unbalanced
  /-- A run without characters. -/
  | emptyRun
  /-- A run that begins with a star. -/
  | leadingStar
  /-- A star after a star. -/
  | doubledStar
  /-- A bar without an operand before it. -/
  | leadingBar
  /-- A closing parenthesis without an operand before it. -/
  | emptyGroup
  /-- No operand before the end of the text. -/
  | emptyText
  deriving DecidableEq, Repr

/-- The text of a fault. -/
def ReadError.message : ReadError → String
  | invalidCharacter c =>
    "invalid character " ++ Text.quoted (String.singleton c) ++ ": only [A-Za-z0-9()|*] is accepted"
  | unbalanced => "unbalanced parentheses"
  | emptyRun => "empty token"
  | leadingStar => "a token can't start with *"
  | doubledStar => "cannot have Kleene star without a symbol"
  | leadingBar => "cannot begin with |"
  | emptyGroup => "empty parentheses are not accepted"
  | emptyText => "empty string is not accepted"

namespace Regex

/-- Is the character one that a literal may hold: an ASCII letter or digit? -/
def isSymbolChar (c : Char) : Bool := c.isAlphanum

/-- May the character stand in a run: a literal or a star? -/
def isRunChar (c : Char) : Bool := isSymbolChar c || c = '*'

/-- Is the character a symbol or an operator? -/
def isAllowedChar (c : Char) : Bool := isRunChar c || Lexeme.isDelimiter c

/-- The literals of a run, each starred if a star follows it. -/
def runAtoms : List Char → Except ReadError (List Regex)
  | [] => .ok []
  | '*' :: _ => .error .doubledStar
  | c :: '*' :: cs => (runAtoms cs).map (star (literal (String.singleton c)) :: ·)
  | c :: cs => (runAtoms cs).map (literal (String.singleton c) :: ·)

/-- The concatenation of a tree and a further operand; the first operand stands for itself. -/
def append : Option Regex → Regex → Regex
  | none, r => r
  | some l, r => concat l r

/-- The trees of a list concatenated from left to right. -/
def concatAll (rs : List Regex) : Option Regex := rs.foldl (fun t r => some (append t r)) none

/-- The tree of a run: its literals folded to the left. The characters are taken as they are. -/
def readRun : List Char → Except ReadError Regex
  | [] => .error .emptyRun
  | '*' :: _ => .error .leadingStar
  | cs => do
    match concatAll (← runAtoms cs) with
    | none => throw .emptyRun
    | some r => return r

/-- The tree of a run of symbols: its first character that is none is a fault before all others. -/
def readSymbols (cs : List Char) : Except ReadError Regex :=
  match cs.find? (!isRunChar ·) with
  | some c => .error (.invalidCharacter c)
  | none => readRun cs

/-- What has been read of an expression between parentheses, or of the whole text. -/
structure Scope where
  /-- The alternatives that a bar has closed, the last one first. -/
  alternatives : List Regex := []
  /-- The operands since the last bar. -/
  operand : Option Regex := none
  deriving DecidableEq, Repr, Inhabited

/-- Concatenate a further operand. -/
def Scope.push (s : Scope) (r : Regex) : Scope := { s with operand := some (append s.operand r) }

/-- The alternatives grouped to the right, with `r` as the last one. -/
def Scope.close (s : Scope) (r : Regex) : Regex :=
  s.alternatives.foldl (fun right left => alternation left right) r

/-- Star a group, or leave it. -/
def starIf : Bool → Regex → Regex
  | true, r => star r
  | false, r => r

/-- Read the lexemes of the scope `s`, around which the scopes of `outer` are open, the innermost first. -/
def readScopes : List Lexeme → List Scope → Scope → Except ReadError Regex
  | [], outer, s =>
    match s.operand, outer with
    | none, _ => .error .emptyText
    | some _, _ :: _ => .error .unbalanced
    | some r, [] => .ok (s.close r)
  | .opening :: ls, outer, s => readScopes ls (s :: outer) {}
  | .bar :: ls, outer, s =>
    match s.operand with
    | none => .error .leadingBar
    | some r => readScopes ls outer ⟨r :: s.alternatives, none⟩
  | .closing starred :: ls, outer, s =>
    match outer, s.operand with
    | [], _ => .error .unbalanced
    | _ :: _, none => .error .emptyGroup
    | around :: outer, some r => readScopes ls outer (around.push (starIf starred (s.close r)))
  | .run cs :: ls, outer, s =>
    match readSymbols cs with
    | .error e => .error e
    | .ok r => readScopes ls outer (s.push r)

/-- The tree that a list of characters writes. -/
def readChars (cs : List Char) : Except ReadError Regex := readScopes (Lexeme.ofChars cs) [] {}

/-- The tree that a text writes. -/
def read (text : String) : Except ReadError Regex := readChars text.toList

end Regex

end FormalLang
