import FormalLang.Proofs.Dfa.Marking
import Mathlib.Data.List.Nodup
import Mathlib.Data.String.Basic

/-!
# Drawings of deterministic automata

All symbols that lead from one state to another share an edge. The symbols of a state are gathered by where they lead, so that
each target has one list of them, ascending like the symbols of the state. Symbols without commas can be read off the label, and
so the drawing tells every transition.

* `Edge.symbols`, `Diagram.transitions`: what is read off the labels.
* `Dfa.symbolsBetween`: the symbols that lead from one state to another; `Dfa.entries_fans`: these are gathered.
* `Dfa.nodes_diagram`, `Dfa.edges_diagram`: the nodes and edges of a drawing.
* `Dfa.diagram_lossless`: an automaton and its drawing have the same states and transitions.
-/

namespace FormalLang

/-- The pieces of the label between commas. -/
def Edge.symbols (e : Edge) : List Symbol :=
  match e.label with
  | none => []
  | some l => (l.toList.splitOn ',').map String.ofList

namespace Diagram

/-- The transitions that the edges stand for. -/
def transitions (g : Diagram) : List (Int × Symbol × Int) :=
  g.edges.flatMap fun e => e.symbols.map fun a => (e.source, a, e.target)

theorem foldl_addEdge {β : Type} (f : β → Edge) (l : List β) (g : Diagram) :
    l.foldl (fun g b => (g.addEdge (f b).source (f b).target (f b).label).2) g = { g with edges := g.edges ++ l.map f } := by
  induction l generalizing g with
  | nil => simp
  | cons b l ih =>
    rw [List.foldl_cons, ih, List.map_cons, ← List.singleton_append, ← List.append_assoc]
    rfl

theorem foldl_append_edges {β : Type} (f : β → List Edge) (l : List β) (g : Diagram) :
    l.foldl (fun g b => { g with edges := g.edges ++ f b }) g = { g with edges := g.edges ++ l.flatMap f } := by
  induction l generalizing g with
  | nil => simp
  | cons b l ih => simp [ih]

/-- New nodes come last. -/
theorem foldl_addNode (label : Nat → String) {l : List Nat} (hl : l.Nodup) {g : Diagram}
    (h : ∀ q ∈ l, (q : Int) ∉ g.nodes.keys) :
    ∃ nodes, nodes.entries = g.nodes.entries ++ l.map (fun (q : Nat) => ((q : Int), label q)) ∧
      l.foldl (fun g (q : Nat) => (g.addNode (label q) (some q)).2) g = { g with nodes } := by
  induction l generalizing g with
  | nil => exact ⟨g.nodes, (List.append_nil _).symm, rfl⟩
  | cons q l ih =>
    obtain ⟨hq, hl⟩ := List.nodup_cons.mp hl
    obtain ⟨hnew, hrest⟩ := List.forall_mem_cons.mp h
    have hnodes : ((g.addNode (label q) (some q)).2).nodes = g.nodes.insert q (label q) := rfl
    have hfresh : ∀ r ∈ l, (r : Int) ∉ ((g.addNode (label q) (some q)).2).nodes.keys := by
      intro r hr
      rw [hnodes, Table.keys_insert, if_neg hnew, List.mem_append, List.mem_singleton, Int.natCast_inj]
      rintro (hrk | rfl)
      · exact hrest r hr hrk
      · exact hq hr
    obtain ⟨nodes, hentries, hfold⟩ := ih hl hfresh
    refine ⟨nodes, ?_, hfold⟩
    rw [hentries, hnodes, Table.entries_insert hnew, List.map_cons, List.append_assoc, List.singleton_append]

end Diagram

/-- Each state has a node, and these come in the order of the states. -/
theorem exists_stateDiagram_eq (count start : Nat) (accept : OrderedSet Nat) :
    ∃ nodes, nodes.entries = (List.range count).map (fun (q : Nat) => ((q : Int), stateLabel q start accept)) ∧
      stateDiagram count start accept = ⟨nodes, [], some start, accept.image Int.ofNat⟩ := by
  let marked : Diagram := { start := some start, accepting := accept.image Int.ofNat }
  exact Diagram.foldl_addNode (stateLabel · start accept) (List.nodup_range (n := count)) (g := marked)
    fun _ _ => List.not_mem_nil

namespace Dfa

variable {d d' : Dfa} {p q : Nat} {a : Symbol}

/-! ## The symbols from state to state -/

/-- The symbols that lead from one state to another, ascending. -/
def symbolsBetween (d : Dfa) (p q : Nat) : List Symbol := ((d.moves p).filter (·.2 = q)).map Prod.fst

theorem mem_symbolsBetween : a ∈ d.symbolsBetween p q ↔ d.target? p a = some q := by
  simp [symbolsBetween, ← mem_moves]

theorem ascending_moves (d : Dfa) (p : Nat) : (d.moves p).Pairwise fun e f => e.1 < f.1 := by
  refine List.pairwise_filterMap.mpr ((OrderedSet.ofList (d.row p).keys).ascending.imp fun {a b} hab => ?_)
  rintro e he f hf
  obtain ⟨q, -, rfl⟩ := Option.map_eq_some_iff.mp he
  obtain ⟨r, -, rfl⟩ := Option.map_eq_some_iff.mp hf
  exact compare_lt_iff_lt.mp hab

theorem ascending_symbolsBetween (d : Dfa) (p q : Nat) : (d.symbolsBetween p q).Pairwise (· < ·) :=
  List.pairwise_map.mpr ((ascending_moves d p).filter _)

theorem fans_eq_gather (d : Dfa) (p : Nat) : d.fans p = .gather Prod.snd (fun l e => l ++ [e.1]) [] ∅ (d.moves p) := rfl

/-- Each target has the symbols that lead to it. -/
theorem entries_fans (d : Dfa) (p : Nat) : (d.fans p).entries = (d.fans p).keys.map fun q => (q, d.symbolsBetween p q) := by
  rw [(d.fans p).entries_eq_map_getD []]
  refine List.map_congr_left fun q _ => congrArg (Prod.mk q) ?_
  rw [fans_eq_gather, Table.getD_gather, List.foldl_append_eq_append, ← List.flatMap_def, ← List.map_eq_flatMap]
  rfl

theorem mem_keys_fans : q ∈ (d.fans p).keys ↔ ∃ a, d.target? p a = some q := by
  rw [fans_eq_gather, Table.mem_keys_gather]
  constructor
  · rintro (h | ⟨⟨a, r⟩, ha, rfl⟩)
    · exact absurd h List.not_mem_nil
    · exact ⟨a, mem_moves.mp ha⟩
  · rintro ⟨a, ha⟩
    exact .inr ⟨(a, q), mem_moves.mpr ha, rfl⟩

/-! ## Nodes and edges -/

/-- The edges of a state, one for each target. -/
def edgesOf (d : Dfa) (p : Nat) : List Edge :=
  (d.fans p).keys.map fun (q : Nat) => ⟨p, q, some (String.intercalate "," (d.symbolsBetween p q))⟩

theorem diagram_eq (d : Dfa) :
    d.diagram = { stateDiagram d.count d.start d.accept with edges := (List.range d.count).flatMap d.edgesOf } := by
  have hedges : ∀ (g : Diagram) (p : Nat),
      (d.fans p).entries.foldl (fun g e => (g.addEdge p e.1 (String.intercalate "," e.2)).2) g =
        { g with edges := g.edges ++ d.edgesOf p } := by
    intro g p
    refine (Diagram.foldl_addEdge (fun e : Nat × List Symbol => ⟨p, e.1, some (String.intercalate "," e.2)⟩) _ g).trans ?_
    rw [entries_fans, List.map_map]
    rfl
  obtain ⟨nodes, -, hstates⟩ := exists_stateDiagram_eq d.count d.start d.accept
  calc d.diagram
      = (List.range d.count).foldl (fun g p =>
          (d.fans p).entries.foldl (fun g e => (g.addEdge p e.1 (String.intercalate "," e.2)).2) g)
          (stateDiagram d.count d.start d.accept) := rfl
    _ = _ := by
      simp only [hedges]
      rw [Diagram.foldl_append_edges, hstates]
      rfl

theorem nodes_diagram (d : Dfa) :
    d.diagram.nodes.entries = (List.range d.count).map fun (q : Nat) => ((q : Int), stateLabel q d.start d.accept) := by
  obtain ⟨nodes, hnodes, h⟩ := exists_stateDiagram_eq d.count d.start d.accept
  rw [diagram_eq, h, hnodes]

theorem edges_diagram (d : Dfa) : d.diagram.edges = (List.range d.count).flatMap d.edgesOf := by rw [diagram_eq]

theorem start_diagram (d : Dfa) : d.diagram.start = some (d.start : Int) := by
  obtain ⟨nodes, -, h⟩ := exists_stateDiagram_eq d.count d.start d.accept
  rw [diagram_eq, h]

theorem mem_accepting_diagram {i : Int} : i ∈ d.diagram.accepting ↔ ∃ q ∈ d.accept, (q : Int) = i := by
  obtain ⟨nodes, -, h⟩ := exists_stateDiagram_eq d.count d.start d.accept
  rw [diagram_eq, h, OrderedSet.mem_image]
  rfl

/-- No two edges go from the same state to the same state. -/
theorem nodup_edges (d : Dfa) : (d.diagram.edges.map fun e => (e.source, e.target)).Nodup := by
  rw [edges_diagram, List.map_flatMap]
  refine List.nodup_flatMap.mpr ⟨fun p _ => ?_, ?_⟩
  · rw [edgesOf, List.map_map]
    exact (d.fans p).nodup.map fun q r h => Int.ofNat_inj.mp (congrArg Prod.snd h)
  · refine List.nodup_range.imp fun {p r} hne => ?_
    simp only [Function.onFun, List.disjoint_left, edgesOf, List.map_map, List.mem_map]
    rintro x ⟨q, -, rfl⟩ ⟨s, -, h⟩
    exact hne (Int.ofNat_inj.mp (congrArg Prod.fst h)).symm

/-! ## What is read off the labels -/

/-- No symbol has a comma in it, as is the case if the symbols are characters other than the comma. -/
def CommaFree (d : Dfa) : Prop := ∀ a ∈ d.alphabet, ',' ∉ a.toList

theorem symbols_edge {i j : Int} {l : List Symbol} (hl : ∀ a ∈ l, ',' ∉ a.toList) (hne : l ≠ []) :
    (⟨i, j, some (String.intercalate "," l)⟩ : Edge).symbols = l := by
  have hpieces : ∀ m ∈ l.map String.toList, ',' ∉ m := by
    intro m hm
    obtain ⟨a, ha, rfl⟩ := List.mem_map.mp hm
    exact hl a ha
  show ((String.intercalate "," l).toList.splitOn ',').map String.ofList = l
  rw [String.toList_intercalate]
  show (([','].intercalate (l.map String.toList)).splitOn ',').map String.ofList = l
  rw [List.splitOn_intercalate ',' hpieces (by simpa using hne), List.map_map]
  exact (List.map_congr_left fun a _ => String.ofList_toList).trans (List.map_id l)

theorem symbols_edgesOf (h : d.CommaFree) (hq : q ∈ (d.fans p).keys) :
    (⟨p, q, some (String.intercalate "," (d.symbolsBetween p q))⟩ : Edge).symbols = d.symbolsBetween p q := by
  obtain ⟨b, hb⟩ := mem_keys_fans.mp hq
  refine symbols_edge (fun a ha => h a (mem_alphabet_of_target? (mem_symbolsBetween.mp ha))) ?_
  exact List.ne_nil_of_mem (mem_symbolsBetween.mpr hb)

theorem transitions_diagram (h : d.CommaFree) : d.diagram.transitions =
    (List.range d.count).flatMap fun (p : Nat) => (d.fans p).keys.flatMap fun (q : Nat) =>
      (d.symbolsBetween p q).map fun a => ((p : Int), a, (q : Int)) := by
  rw [Diagram.transitions, edges_diagram, List.flatMap_assoc]
  refine List.flatMap_congr fun p _ => ?_
  rw [edgesOf, List.flatMap_map]
  refine List.flatMap_congr fun q hq => ?_
  rw [symbols_edgesOf h hq]

theorem mem_transitions_diagram (h : d.CommaFree) {x : Int × Symbol × Int} :
    x ∈ d.diagram.transitions ↔ ∃ p a q, d.target? p a = some q ∧ x = ((p : Int), a, (q : Int)) := by
  simp only [transitions_diagram h, List.mem_flatMap, List.mem_map, List.mem_range, mem_keys_fans, mem_symbolsBetween]
  constructor
  · rintro ⟨p, -, q, -, a, ha, rfl⟩
    exact ⟨p, a, q, ha, rfl⟩
  · rintro ⟨p, a, q, ha, rfl⟩
    exact ⟨p, source_lt_count ha, q, ⟨a, ha⟩, a, ha, rfl⟩

theorem natCast_mem_transitions_diagram (h : d.CommaFree) :
    ((p : Int), a, (q : Int)) ∈ d.diagram.transitions ↔ d.target? p a = some q := by
  rw [mem_transitions_diagram h]
  constructor
  · rintro ⟨p', a', q', ht, hx⟩
    simp only [Prod.mk.injEq, Int.natCast_inj] at hx
    obtain ⟨rfl, rfl, rfl⟩ := hx
    exact ht
  · exact fun ht => ⟨p, a, q, ht, rfl⟩

/-- No transition is read off twice: its ends tell the edge, and an edge lists a symbol once. -/
theorem nodup_transitions_diagram (h : d.CommaFree) : d.diagram.transitions.Nodup := by
  rw [transitions_diagram h]
  refine List.nodup_flatMap.mpr ⟨fun p _ => List.nodup_flatMap.mpr ⟨fun q _ => ?_, ?_⟩, ?_⟩
  · have hnodup : (d.symbolsBetween p q).Nodup := (ascending_symbolsBetween d p q).imp fun h => h.ne
    exact hnodup.map fun a b h => congrArg (·.2.1) h
  · refine (d.fans p).nodup.imp fun {q r} hne => ?_
    simp only [Function.onFun, List.disjoint_left, List.mem_map]
    rintro x ⟨a, -, rfl⟩ ⟨b, -, h⟩
    exact hne (Int.ofNat_inj.mp (congrArg (·.2.2) h)).symm
  · refine List.nodup_range.imp fun {p r} hne => ?_
    simp only [Function.onFun, List.disjoint_left, List.mem_flatMap, List.mem_map]
    rintro x ⟨q, -, a, -, rfl⟩ ⟨s, -, b, -, h⟩
    exact hne (Int.ofNat_inj.mp (congrArg (·.1) h)).symm

/-- The symbols of an edge are ascending. -/
theorem ascending_symbols (h : d.CommaFree) : ∀ e ∈ d.diagram.edges, e.symbols.Pairwise (· < ·) := by
  intro e he
  rw [edges_diagram] at he
  obtain ⟨p, -, he⟩ := List.mem_flatMap.mp he
  obtain ⟨q, hq, rfl⟩ := List.mem_map.mp he
  rw [symbols_edgesOf h hq]
  exact ascending_symbolsBetween d p q

/-! ## Automata with the same drawing -/

/-- The states and transitions can be read off the drawing. Symbols without transitions cannot. -/
theorem eq_of_diagram_eq (hd : d.CommaFree) (hd' : d'.CommaFree) (h : d.diagram = d'.diagram) :
    d.count = d'.count ∧ d.start = d'.start ∧ d.accept = d'.accept ∧ d.target? = d'.target? := by
  refine ⟨?_, ?_, OrderedSet.ext fun q => ?_, funext fun p => funext fun a => Option.ext fun q => ?_⟩
  · have hnodes : d.diagram.nodes.entries.length = d'.diagram.nodes.entries.length := by rw [h]
    simpa only [nodes_diagram, List.length_map, List.length_range] using hnodes
  · have hstart : d.diagram.start = d'.diagram.start := by rw [h]
    simpa only [start_diagram, Option.some.injEq, Int.natCast_inj] using hstart
  · have haccepting : (q : Int) ∈ d.diagram.accepting ↔ (q : Int) ∈ d'.diagram.accepting := by rw [h]
    simpa only [mem_accepting_diagram, Int.natCast_inj, exists_eq_right] using haccepting
  · have hmem : ((p : Int), a, (q : Int)) ∈ d.diagram.transitions ↔ ((p : Int), a, (q : Int)) ∈ d'.diagram.transitions := by rw [h]
    rwa [natCast_mem_transitions_diagram hd, natCast_mem_transitions_diagram hd'] at hmem

theorem acceptsWord_eq_of_diagram_eq (hd : d.CommaFree) (hd' : d'.CommaFree) (h : d.diagram = d'.diagram) (w : List Symbol) :
    d.acceptsWord w = d'.acceptsWord w := by
  obtain ⟨-, hstart, haccept, htarget⟩ := eq_of_diagram_eq hd hd' h
  rw [acceptsWord, acceptsWord, acceptsFrom, acceptsFrom, run?, run?, hstart, haccept, htarget]

/-- The drawing has one node for each state, with the start and the accepting states marked, and at most one edge from one
state to another. Without commas in symbols the pieces of the labels are ascending and give every transition once, and so automata
with the same drawing accept the same texts. -/
theorem diagram_lossless (h : d.CommaFree) :
    (d.diagram.edges.map fun e => (e.source, e.target)).Nodup ∧
      d.diagram.transitions.Nodup ∧
      (∀ x, x ∈ d.diagram.transitions ↔ ∃ p a q, d.target? p a = some q ∧ x = ((p : Int), a, (q : Int))) ∧
      (∀ e ∈ d.diagram.edges, e.symbols.Pairwise (· < ·)) ∧
      d.diagram.nodes.entries = (List.range d.count).map (fun (q : Nat) => ((q : Int), stateLabel q d.start d.accept)) ∧
      d.diagram.start = some (d.start : Int) ∧
      (∀ i, i ∈ d.diagram.accepting ↔ ∃ q ∈ d.accept, (q : Int) = i) ∧
      ∀ d' : Dfa, d'.CommaFree → d.diagram = d'.diagram → ∀ text, d.accepts text = d'.accepts text :=
  ⟨nodup_edges d, nodup_transitions_diagram h, fun _ => mem_transitions_diagram h, ascending_symbols h, nodes_diagram d,
    start_diagram d, fun _ => mem_accepting_diagram, fun _ h' heq _ => acceptsWord_eq_of_diagram_eq h h' heq _⟩

/-- Two symbols lead from the start to the accepting state, and one leads back to the start. -/
def sharedTables : DfaTables where
  count := 2
  start := 0
  accept := [1]
  rows := [.ofList [("b", 1), ("c", 0), ("a", 1)], ∅]

/-- The two symbols share an edge, in front of the other one although they were not entered so. -/
theorem diagram_lossless_shared :
    ∃ d, ofTables sharedTables = .ok d ∧ d.CommaFree ∧ d.diagram.edges = [⟨0, 1, some "a,b"⟩, ⟨0, 0, some "c"⟩] ∧
      d.diagram.transitions = [(0, "a", 1), (0, "b", 1), (0, "c", 0)] ∧ d.diagram.transitions.Nodup ∧
      ∀ x, x ∈ d.diagram.transitions ↔ ∃ p a q, d.target? p a = some q ∧ x = ((p : Int), a, (q : Int)) := by
  obtain ⟨d, hd⟩ : ∃ d, ofTables sharedTables = .ok d := ⟨_, rfl⟩
  have hfree : d.CommaFree := by
    obtain rfl := Except.ok.inj hd
    unfold CommaFree
    decide
  obtain ⟨-, hnodup, hmem, -⟩ := diagram_lossless hfree
  refine ⟨d, hd, hfree, ?_, ?_, hnodup, hmem⟩
  · obtain rfl := Except.ok.inj hd
    decide
  · obtain rfl := Except.ok.inj hd
    decide

end Dfa

end FormalLang
