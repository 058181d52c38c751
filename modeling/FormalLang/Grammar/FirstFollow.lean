import FormalLang.Grammar.Analysis

/-!
# First and follow sets

The first set of a sequence of letters holds the terminals that its words can begin with, and ε if the sequence
derives the empty word. The follow set of a nonterminal holds the terminals that can come after it, and the end
marker if nothing need come after it.

Both tables are filled in rounds over the productions, which see what was added earlier in the same round. While
first sets are filled they are without ε, which the nullable nonterminals get at the end; follow sets are always
without ε.

* `FirstFollow.ofGrammar`: the tables of a grammar.
* `FirstFollow.firstOfSequence`: a look-up fails at the first nonterminal that it comes to and that is in no table.
-/

namespace FormalLang

/-- The symbol that stands after the end of a word. -/
def endMarker : Symbol := "$"

/-- The fault of a nonterminal that tables do not know. -/
structure MissingNonterminal where
  index : Int
  deriving DecidableEq, Repr

/-- The text of the fault. -/
def MissingNonterminal.message (e : MissingNonterminal) : String := (Letter.nonterminal e.index).description

/-- A set of symbols for each nonterminal. -/
abbrev SymbolTable := Table Int (OrderedSet Symbol)

namespace SymbolTable

/-- No symbols for each nonterminal of a set. -/
def blank (s : OrderedSet Int) : SymbolTable := Table.ofList (s.toList.map fun n => (n, ∅))

/-- Add symbols to those of a nonterminal. -/
def extend (t : SymbolTable) (n : Int) (s : OrderedSet Symbol) : SymbolTable :=
  t.alter n fun old => (old.getD ∅).union s

end SymbolTable

/-- The nullable nonterminals of a grammar, the first sets and the follow sets. -/
structure FirstFollow where
  nullable : OrderedSet Int
  first : SymbolTable
  follow : SymbolTable
  deriving DecidableEq

namespace FirstFollow

/-- The symbols other than ε. -/
def visible (s : OrderedSet Symbol) : OrderedSet Symbol := s.filter (· ≠ epsilon)

/-- The first set of a sequence: it goes on past letters that may vanish. -/
def sequenceFirst (nullable : OrderedSet Int) (first : SymbolTable) : List Letter → OrderedSet Symbol
  | [] => OrderedSet.singleton epsilon
  | .terminal a :: rest =>
    if a = epsilon then sequenceFirst nullable first rest else OrderedSet.singleton a
  | .nonterminal n :: rest =>
    let here := visible (first.getD n ∅)
    if n ∈ nullable then here.union (sequenceFirst nullable first rest) else here

/-! ## First sets -/

/-- Add to the first set of each head what its bodies begin with. -/
def firstRound (g : Grammar) (nullable : OrderedSet Int) (t : SymbolTable) : SymbolTable :=
  g.productions.foldl (fun t p => t.extend p.head (visible (sequenceFirst nullable t p.body))) t

/-- The rounds for the first sets, without ε. Each round but the last adds a terminal to the set of a
nonterminal. -/
def firstRounds (g : Grammar) : Settled SymbolTable :=
  settle (fun _ => firstRound g g.nullable) (g.nonterminals.size * g.terminals.size + 1)
    (.blank g.nonterminals)

/-- The first sets of the nonterminals. -/
def firstTable (g : Grammar) : SymbolTable :=
  (firstRounds g).state.mapValues fun n s => if n ∈ g.nullable then s.insert epsilon else s

/-! ## Follow sets -/

/-- Add to the follow set of each nonterminal of a body what the rest of the body begins with, and where the rest may
vanish, what follows the head. -/
def followBody (nullable : OrderedSet Int) (first : SymbolTable) (head : Int) :
    List Letter → SymbolTable → SymbolTable
  | [], t => t
  | .terminal _ :: rest, t => followBody nullable first head rest t
  | .nonterminal n :: rest, t =>
    let after := sequenceFirst nullable first rest
    let inherited := if epsilon ∈ after then t.getD head ∅ else ∅
    followBody nullable first head rest (t.extend n ((visible after).union inherited))

/-- Add to the follow sets what each production contributes. -/
def followRound (g : Grammar) (nullable : OrderedSet Int) (first t : SymbolTable) : SymbolTable :=
  g.productions.foldl (fun t p => followBody nullable first p.head p.body t) t

/-- The rounds for the follow sets, with the end marker after the start. Each round but the last adds a terminal or
the end marker to the set of a nonterminal. -/
def followRounds (g : Grammar) : Settled SymbolTable :=
  settle (fun _ => followRound g g.nullable (firstTable g)) (g.nonterminals.size * (g.terminals.size + 1) + 1)
    ((SymbolTable.blank g.nonterminals).extend g.start (OrderedSet.singleton endMarker))

/-- The tables of a grammar. -/
def ofGrammar (g : Grammar) : FirstFollow := ⟨g.nullable, firstTable g, (followRounds g).state⟩

/-! ## Look-ups -/

/-- The set of a nonterminal in a table. -/
def lookUp (t : SymbolTable) (n : Int) : Except MissingNonterminal (OrderedSet Symbol) :=
  match t.get? n with
  | none => .error ⟨n⟩
  | some s => .ok s

/-- The first set of a letter; a terminal begins with itself. -/
def firstOf (f : FirstFollow) : Letter → Except MissingNonterminal (OrderedSet Symbol)
  | .nonterminal n => lookUp f.first n
  | .terminal a => .ok (OrderedSet.singleton a)

/-- The follow set of a nonterminal. -/
def followOf (f : FirstFollow) (n : Int) : Except MissingNonterminal (OrderedSet Symbol) := lookUp f.follow n

/-- The nonterminals of a sequence up to the first letter that cannot vanish. -/
def leading (nullable : OrderedSet Int) : List Letter → List Int
  | [] => []
  | .terminal a :: rest => if a = epsilon then leading nullable rest else []
  | .nonterminal n :: rest => n :: if n ∈ nullable then leading nullable rest else []

/-- The first set of a sequence of letters. -/
def firstOfSequence (f : FirstFollow) (letters : List Letter) :
    Except MissingNonterminal (OrderedSet Symbol) :=
  match (leading f.nullable letters).find? fun n => !f.first.contains n with
  | some n => .error ⟨n⟩
  | none => .ok (sequenceFirst f.nullable f.first letters)

@[simp] theorem not_mem_visible (s : OrderedSet Symbol) : epsilon ∉ visible s := by simp [visible]

theorem lookUp_eq_error_iff {t : SymbolTable} {n : Int} {e : MissingNonterminal} :
    lookUp t n = .error e ↔ e = ⟨n⟩ ∧ n ∉ t.keys := by
  rw [← Table.get?_isSome_iff, lookUp]
  cases t.get? n <;> simp [eq_comm]

theorem lookUp_eq_ok {t : SymbolTable} {n : Int} (h : n ∈ t.keys) : lookUp t n = .ok (t.getD n ∅) := by
  obtain ⟨s, hs⟩ := Option.isSome_iff_exists.mp (Table.get?_isSome_iff.mpr h)
  rw [lookUp, Table.getD, hs]
  rfl

end FirstFollow

end FormalLang
