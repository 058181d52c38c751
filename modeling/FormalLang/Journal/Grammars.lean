import FormalLang.Item.Query
import FormalLang.Journal.Basic

/-!
# Records of grammar analyses

* `Journal.ofNullable`, `ofFirstFollow`: what a computation of tables found, and in how many rounds.
* `Journal.ofUseNullable`, `Journal.ofUse`: the records of a query, which computes what it uses only if that was not
  kept.
* `Journal.ofClosings`: the sizes of closures, and before the first one that looks up first sets, their computation.
-/

namespace FormalLang.Journal

/-- A record about grammars. -/
private def grammars (message : String) : Record := ⟨.grammars, message⟩

/-- A record about first and follow sets. -/
private def tables (message : String) : Record := ⟨.firstFollow, message⟩

/-- A record about items. -/
private def itemSets (message : String) : Record := ⟨.items, message⟩

/-! ## Tables -/

/-- The texts of a set of nonterminals, in the order of the texts. -/
def indexTexts (s : OrderedSet Int) : List String := (s.image toString).toList

/-- The nullable nonterminals of a grammar. -/
def ofNullable (g : Grammar) : List Record :=
  [grammars s!"nullable: {Text.listing ((indexTexts g.nullable).map Text.quoted)}"]

/-- The computation of the first and follow sets, which begins with the nullable nonterminals. -/
def ofFirstFollow (g : Grammar) : List Record :=
  ofNullable g ++ [
    tables s!"FIRST converged after {(FirstFollow.firstRounds g).rounds} rounds",
    tables s!"FOLLOW converged after {(FirstFollow.followRounds g).rounds} rounds"]

/-- The computation of all tables that a grammar keeps. -/
def ofRecompute (g : Grammar) : List Record := ofNullable g ++ ofFirstFollow g

/-- A query that used the nullable nonterminals. -/
def ofUseNullable (m : Memo) : List Record := if m.nullable.isNone then ofRecompute m.grammar else []

/-- A query that used the tables. -/
def ofUse (m : Memo) : List Record := if m.tables.isNone then ofRecompute m.grammar else []

/-! ## Simplification -/

/-- The removal of the useless productions. -/
def ofRemoveUseless (g : Grammar) : List Record :=
  let removed := g.productions.length - g.removeUseless.productions.length
  [grammars s!"{g.generators.size} generators, {g.productive.reachable.size} reachable nonterminals",
    grammars s!"removed {removed} useless productions"]

/-- The pairs of different nonterminals of which one derives the other by unit productions, in the order of their
texts. -/
def unitPairTexts (g : Grammar) : List (String × String) :=
  let pairs := g.unitPairs.filter fun (n, m) => n ≠ m
  let sources := indexTexts (OrderedSet.ofList (pairs.map Prod.fst))
  sources.flatMap fun a =>
    let targets := pairs.filterMap fun (n, m) => if toString n = a then some (toString m) else none
    (OrderedSet.ofList targets).toList.map fun b => (a, b)

/-- The removal of the unit productions. -/
def ofRemoveUnits (g : Grammar) : List Record :=
  let pairs := (unitPairTexts g).map fun (a, b) => Text.tupleListing [Text.quoted a, Text.quoted b]
  let written := g.removeUnits.productions.length
  [grammars s!"unit pairs {Text.listing pairs} expanded into {written} productions"]

/-! ## Items -/

/-- A closure, if it did not fail. -/
def ofClosing (c : Closing) : List Record :=
  match c.result with
  | .error _ => []
  | .ok s => [itemSets s!"closure: {c.seeds.size} items -> {s.size} items"]

/-- Closures made one after the other; the first one that looks up first sets computes the tables unless they are
kept already. -/
def ofClosings (g : Grammar) : (kept : Bool) → List Closing → List Record
  | _, [] => []
  | kept, c :: cs =>
    (if c.looksAhead && !kept then ofRecompute g else []) ++ ofClosing c ++
      ofClosings g (kept || c.looksAhead) cs

/-- A closure. -/
def ofClosure (m : Memo) (s : ItemSet) : List Record :=
  ofClosings m.grammar m.tables.isSome [m.grammar.close m.current s]

/-- A canonical collection. -/
def ofCollect (m : Memo) (s : ItemSet) : List Record :=
  let size := match m.grammar.collect m.current s with
    | .error _ => []
    | .ok c => [itemSets s!"canonical collection: {c.states.length} states, {c.transitions.length} transitions"]
  ofClosings m.grammar m.tables.isSome (m.grammar.allClosings m.current s) ++ size

end FormalLang.Journal
