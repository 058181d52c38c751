import FormalLang.Regex.Reading

/-!
# The syntax of regular expressions

Two relations between texts and trees. The first one is the grammar

    expr   ::= term ('|' expr)?
    term   ::= factor+
    factor ::= atom '*'?
    atom   ::= symbol | '(' expr ')'

whose derivations carry a tree with the meaning of the text. The second one gives the tree its exact shape: a term is
the left fold of its operands, which are the groups and the longest runs of symbols, and a run is folded to the left
in itself.

* `Regex.Derives`: the derivations of the grammar.
* `Regex.Shape`: the texts with the trees that they are read as.
-/

namespace FormalLang

namespace Regex

/-! ## Derivations -/

/-- The left sides of the grammar. -/
inductive Category where
  | expression
  | term
  | factor
  | atom
  deriving DecidableEq, Repr

/-- A text derives from a left side of the grammar, with a tree of its meaning. -/
inductive Derives : Category → List Char → Regex → Prop where
  | term {cs r} : Derives .term cs r → Derives .expression cs r
  | alternation {cs ds l r} : Derives .term cs l → Derives .expression ds r →
      Derives .expression (cs ++ '|' :: ds) (.alternation l r)
  | factor {cs r} : Derives .factor cs r → Derives .term cs r
  | concat {cs ds l r} : Derives .factor cs l → Derives .term ds r → Derives .term (cs ++ ds) (.concat l r)
  | atom {cs r} : Derives .atom cs r → Derives .factor cs r
  | star {cs r} : Derives .atom cs r → Derives .factor (cs ++ ['*']) (.star r)
  | symbol {c} : isSymbolChar c = true → Derives .atom [c] (.literal (String.singleton c))
  | group {cs r} : Derives .expression cs r → Derives .atom ('(' :: cs ++ [')']) r

/-! ## Shapes -/

/-- The pieces of a text that have a shape. A term ends with a run or with a group. -/
inductive Piece where
  | expression
  | term (endsWithRun : Bool)
  | group
  | run
  deriving DecidableEq, Repr

/-- The star of a group or symbol, if it has one. -/
def starChars : Bool → List Char
  | true => ['*']
  | false => []

/-- A piece of text is read as a tree. A run stands only at the beginning of a term or after a group, since it would
otherwise be a part of the run before it. -/
inductive Shape : Piece → List Char → Regex → Prop where
  | symbol {c} (starred : Bool) : isSymbolChar c = true →
      Shape .run (c :: starChars starred) (starIf starred (.literal (String.singleton c)))
  | moreSymbols {cs r c} (starred : Bool) : Shape .run cs r → isSymbolChar c = true →
      Shape .run (cs ++ c :: starChars starred) (.concat r (starIf starred (.literal (String.singleton c))))
  | group {cs r} (starred : Bool) : Shape .expression cs r →
      Shape .group ('(' :: cs ++ ')' :: starChars starred) (starIf starred r)
  | firstRun {cs r} : Shape .run cs r → Shape (.term true) cs r
  | firstGroup {cs r} : Shape .group cs r → Shape (.term false) cs r
  | nextRun {cs ds l r} : Shape (.term false) cs l → Shape .run ds r →
      Shape (.term true) (cs ++ ds) (.concat l r)
  | nextGroup {cs ds l r} {b : Bool} : Shape (.term b) cs l → Shape .group ds r →
      Shape (.term false) (cs ++ ds) (.concat l r)
  | term {cs r} {b : Bool} : Shape (.term b) cs r → Shape .expression cs r
  | alternation {cs ds l r} {b : Bool} : Shape (.term b) cs l → Shape .expression ds r →
      Shape .expression (cs ++ '|' :: ds) (.alternation l r)

/-- Every literal is one ASCII letter or digit. -/
def IsAlphanumeric (r : Regex) : Prop := ∀ a ∈ r.literals, ∃ c, isSymbolChar c = true ∧ a = String.singleton c

end Regex

end FormalLang
