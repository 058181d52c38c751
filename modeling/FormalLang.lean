import FormalLang.OrderedSet
import FormalLang.Table
import FormalLang.Order
import FormalLang.Search.Reach
import FormalLang.Search.Run
import FormalLang.Rounds
import FormalLang.Text.Blank
import FormalLang.Text.Digit
import FormalLang.Text.Quoted
import FormalLang.Text.Numeral
import FormalLang.Text.Listing
import FormalLang.UnionFind.Element
import FormalLang.UnionFind.History
import FormalLang.UnionFind.Strict
import FormalLang.Diagram.Dot
import FormalLang.Symbol
import FormalLang.Lookup
import FormalLang.Regex.Language
import FormalLang.Regex.Address
import FormalLang.Regex.Spelling
import FormalLang.Regex.Syntax
import FormalLang.Regex.Descent
import FormalLang.Nfa.Thompson
import FormalLang.Nfa.Edit
import FormalLang.Nfa.Run
import FormalLang.Nfa.Path
import FormalLang.Dfa.Subset
import FormalLang.Dfa.Minimize
import FormalLang.Dfa.Isomorphism
import FormalLang.Dfa.Strict
import FormalLang.Nfa.Stored
import FormalLang.Automaton.Text.Reading
import FormalLang.Automaton.Text.Writing
import FormalLang.Grammar.Simplify
import FormalLang.Grammar.Derivation
import FormalLang.Grammar.FirstFollow
import FormalLang.Grammar.RightLinear
import FormalLang.Item.Collection
import FormalLang.Item.Validity
import FormalLang.Grammar.Memo
import FormalLang.Item.Query
import FormalLang.Grammar.History
import FormalLang.Journal.Automata
import FormalLang.Journal.Grammars
import FormalLang.Proofs.Subsets
import FormalLang.Proofs.Nfa.Simulation
import FormalLang.Proofs.Nfa.Alphabet
import FormalLang.Proofs.Nfa.Edits
import FormalLang.Proofs.Nfa.Part
import FormalLang.Proofs.Nfa.Thompson
import FormalLang.Proofs.Nfa.Slender
import FormalLang.Proofs.Nfa.ThompsonShape
import FormalLang.Proofs.Dfa.Tables
import FormalLang.Proofs.Dfa.Subset
import FormalLang.Proofs.UnionFind.Forest
import FormalLang.Proofs.UnionFind.Partition
import FormalLang.Proofs.UnionFind.Heads
import FormalLang.Proofs.UnionFind.History
import FormalLang.Proofs.UnionFind.Strict
import FormalLang.Proofs.UnionFind.Ranks
import FormalLang.Proofs.Dfa.Marking
import FormalLang.Proofs.Dfa.Diagram
import FormalLang.Proofs.Dfa.Quotient
import FormalLang.Proofs.Dfa.Distinguishing
import FormalLang.Proofs.Dfa.Canonical
import FormalLang.Proofs.Dfa.Minimal
import FormalLang.Proofs.Dfa.SubsetStates
import FormalLang.Proofs.Nfa.Closure
import FormalLang.Proofs.Dfa.Lowest
import FormalLang.Proofs.Dfa.MarkRounds
import FormalLang.Proofs.Dfa.AsNfa
import FormalLang.Proofs.Dfa.Strict
import FormalLang.Proofs.Dfa.StrictMinimize
import FormalLang.Proofs.Regex.Reading
import FormalLang.Proofs.Regex.Descent
import FormalLang.Proofs.Regex.Runs
import FormalLang.Proofs.Regex.RoundTrip
import FormalLang.Proofs.Regex.Scopes
import FormalLang.Proofs.Regex.Meaning
import FormalLang.Proofs.Regex.Literals
import FormalLang.Proofs.Regex.Faults
import FormalLang.Proofs.Regex.Shortest
import FormalLang.Proofs.Regex.Diagram
import FormalLang.Proofs.Grammar.Derivations
import FormalLang.Proofs.Grammar.Marking
import FormalLang.Proofs.Grammar.SymbolTables
import FormalLang.Proofs.Grammar.First
import FormalLang.Proofs.Grammar.Follow
import FormalLang.Proofs.Grammar.Words
import FormalLang.Proofs.Grammar.Useful
import FormalLang.Proofs.Grammar.Units
import FormalLang.Proofs.Grammar.Searches
import FormalLang.Proofs.Grammar.RightLinear
import FormalLang.Proofs.Grammar.Memo
import FormalLang.Proofs.Item.Query
import FormalLang.Proofs.Grammar.History
import FormalLang.Proofs.Grammar.Alike
import FormalLang.Proofs.Item.Closure
import FormalLang.Proofs.Item.Shift
import FormalLang.Proofs.Item.Least
import FormalLang.Proofs.Item.Collection
import FormalLang.Proofs.Item.Listing
import FormalLang.Proofs.Item.Viable
import FormalLang.Proofs.Item.Erasure
import FormalLang.Proofs.Item.Automaton
import FormalLang.Proofs.Faults
import FormalLang.Proofs.Answers
import FormalLang.Proofs.Text.Lines
import FormalLang.Proofs.Text.Numbers
import FormalLang.Proofs.Text.SameLines
import FormalLang.Proofs.Automaton.Line
import FormalLang.Proofs.Automaton.Reading
import FormalLang.Proofs.Nfa.Constructible
import FormalLang.Proofs.Nfa.Stored
import FormalLang.Proofs.Nfa.Foreign
import FormalLang.Proofs.Nfa.Alike
import FormalLang.Proofs.Nfa.Rebuilding
import FormalLang.Proofs.Automaton.Loading
import FormalLang.Proofs.Automaton.Agreement
import FormalLang.Proofs.Automaton.Writing
import FormalLang.Proofs.Nfa.RoundTrip
import FormalLang.Proofs.Dfa.RoundTrip
import FormalLang.Proofs.Dfa.LanguageQuotient
import FormalLang.Proofs.Dfa.Reduced
import FormalLang.Proofs.Dfa.Safety
import FormalLang.Proofs.Automaton.StateList
import FormalLang.Proofs.Automaton.Rearranged
import FormalLang.Proofs.Grammar.RightLinearAnalyses
