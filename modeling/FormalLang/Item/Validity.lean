import FormalLang.Grammar.Derivation
import FormalLang.Item.Collection

/-!
# Valid items

An item is valid for a sequence of letters if a rightmost derivation can arrive there: the letters of the sequence
have been recognized, the last of them being those before the dot, and the lookahead is what comes after the head in
the derivation.

* `Grammar.Valid`: the items that are valid for a sequence.
* `Grammar.Predicts`: one item predicts another, said by derivations and not by tables.
* `Grammar.IsClosed`: a set holds all that its items predict.
* `ItemSet.eraseLookaheads`: what is left of a set of items when nothing is known of what may follow.
-/

namespace FormalLang

/-- The first symbol of a word that is not ε, or the end marker. -/
def lookaheadOf (w : List Symbol) : Symbol := (w.find? (· ≠ epsilon)).getD endMarker

namespace Item

/-- The item without its lookahead. -/
def eraseLookahead (i : Item) : Item := { i with lookahead := none }

/-- The item is a production with the dot at some place, and any lookahead. -/
def Dots (i : Item) (p : Production) : Prop := i.production ∈ p.itemize

instance (i : Item) (p : Production) : Decidable (i.Dots p) := inferInstanceAs (Decidable (i.production ∈ p.itemize))

/-- The item has exactly one dot. -/
def HasOneDot (i : Item) : Prop := i.body.count dot = 1

end Item

/-- The items without their lookaheads. -/
def ItemSet.eraseLookaheads (s : ItemSet) : ItemSet := s.image Item.eraseLookahead

namespace Grammar

/-- An item is valid for the sequence `γ`. -/
def Valid (g : Grammar) (γ : List Letter) (i : Item) : Prop :=
  ∃ p ∈ g.productions, ∃ (δ α β : List Letter) (w : List Symbol),
    g.RightDerives [.nonterminal g.start] (δ ++ .nonterminal p.head :: w.map .terminal) ∧
      δ ++ α = γ ∧ p.core = α ++ β ∧ i = ⟨p.head, α ++ dot :: β, some (lookaheadOf w)⟩

/-- One item predicts another: the second begins a production of the nonterminal after the dot of the first, and its
lookahead is what can come after that nonterminal. -/
inductive Predicts (g : Grammar) : Item → Item → Prop where
  | plain {i n rest p} : i.after? = some (.nonterminal n :: rest) → i.lookahead = none →
      p ∈ g.productions → p.head = n → Predicts g i (p.initialItem none)
  | first {i n rest p a b v} : i.after? = some (.nonterminal n :: rest) → i.lookahead = some a →
      p ∈ g.productions → p.head = n → g.Derives rest v → (Letter.erase v).head? = some (.terminal b) →
      Predicts g i (p.initialItem (some b))
  | inherited {i n rest p a} : i.after? = some (.nonterminal n :: rest) → i.lookahead = some a →
      p ∈ g.productions → p.head = n → g.Vanishes rest → Predicts g i (p.initialItem (some a))

/-- A set of items holds all that its items predict. -/
def IsClosed (g : Grammar) (s : ItemSet) : Prop := ∀ i ∈ s, ∀ j, g.Predicts i j → j ∈ s

end Grammar

namespace Collection

/-- The state that a sequence of letters leads to from a state. -/
def run? (c : Collection) (k : Nat) (γ : List Letter) : Option Nat :=
  γ.foldlM (fun k l => (c.transitions.find? fun t => t.1 = k && t.2.1 = l).map fun t => t.2.2) k

end Collection

end FormalLang
