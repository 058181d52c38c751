import FormalLang.Regex.Address
import FormalLang.Regex.Syntax
import Mathlib.Data.List.Basic

/-!
# Drawings of trees

A tree is drawn from a stack of the subtrees that still have to be drawn. At any time the addresses drawn so far, followed
by those of the trees that wait, are all addresses of the tree in preorder. So the subtree drawn next gets the number of its
address, and its parent, which was drawn before, has the number of the address without its last step.

* `Regex.Shows`: what has been drawn after some of the addresses; `Shows.drawNode` adds the next one.
* `Regex.shows_drawAll`: what is drawn when the trees that wait make up the rest.
* `Regex.eq_of_labels_eq`: the labels in preorder give the tree back.
* `Regex.diagram_preorder`: the nodes and edges of the drawing of a tree.
-/

namespace FormalLang

namespace Regex

variable {r s t : Regex} {p : List Nat} {k : Nat} {d : Diagram}

/-! ## What is drawn -/

/-- The number of the parent of the subtree at an address. -/
def parent? (r : Regex) (p : List Nat) : Option Int := if p = [] then none else some (r.addresses.idxOf p.dropLast)

/-- The edge to the subtree at an address, which has the given number. -/
def edgeTo? (r : Regex) (p : List Nat) (i : Nat) : Option Edge := (r.parent? p).map fun j => ⟨j, i, none⟩

/-- The drawing shows the first `k` subtrees in preorder, numbered from zero, and the edges to them. -/
structure Shows (r : Regex) (k : Nat) (d : Diagram) : Prop where
  nodes_eq : d.nodes.entries = (r.preorder.take k).zipIdx.map fun (t, i) => ((i : Int), t.label)
  edges_eq : d.edges = (r.addresses.take k).zipIdx.filterMap fun (p, i) => r.edgeTo? p i
  start_eq : d.start = none
  accepting_eq : d.accepting = ∅

theorem shows_empty (r : Regex) : r.Shows 0 {} := ⟨rfl, rfl, rfl, rfl⟩

theorem nodup_addresses (r : Regex) : r.addresses.Nodup := by
  refine (pairwise_addresses r).imp fun {p q} h => ?_
  rintro rfl
  exact List.lt_irrefl p h

theorem idxOf_addresses (h : r.addresses[k]? = some p) : r.addresses.idxOf p = k := by
  obtain ⟨hk, rfl⟩ := List.getElem?_eq_some_iff.mp h
  exact (nodup_addresses r).idxOf_getElem k hk

theorem getElem?_preorder (h : r.addresses[k]? = some p) (ht : r.at? p = some t) : r.preorder[k]? = some t := by
  have hmap := congrArg (·[k]?) (map_at?_addresses r)
  simp only [List.getElem?_map, h, Option.map_some, ht] at hmap
  obtain ⟨t', ht', he⟩ := Option.map_eq_some_iff.mp hmap.symm
  rw [ht', Option.some.inj he]

namespace Shows

theorem size_nodes (h : r.Shows k d) (hk : k ≤ r.size) : d.nodes.size = k := by
  rw [Table.size, h.nodes_eq, List.length_map, List.length_zipIdx, List.length_take]
  exact Nat.min_eq_left hk

theorem notMem_keys (h : r.Shows k d) : (k : Int) ∉ d.nodes.keys := by
  rw [Table.keys, h.nodes_eq, List.map_map]
  intro hmem
  obtain ⟨⟨t, i⟩, hi, he⟩ := List.mem_map.mp hmem
  obtain ⟨hlt, -⟩ := List.getElem?_eq_some_iff.mp (List.mem_zipIdx_iff_getElem?.mp hi)
  rw [List.length_take] at hlt
  have : (i : Int) = k := he
  omega

/-- The next subtree gets the next number, and an edge from its parent. -/
theorem drawNode (h : r.Shows k d) (hp : r.addresses[k]? = some p) (ht : r.at? p = some t) :
    (drawNode t.label (r.parent? p) d).1 = k ∧ r.Shows (k + 1) (Regex.drawNode t.label (r.parent? p) d).2 := by
  have hlt : k < r.addresses.length := (List.getElem?_eq_some_iff.mp hp).1
  have hsize : d.nodes.size = k := h.size_nodes (Nat.le_of_lt (length_addresses r ▸ hlt))
  have hpre : r.preorder[k]? = some t := getElem?_preorder hp ht
  have hplen : (r.preorder.take k).length = k :=
    List.length_take_of_le (Nat.le_of_lt (List.getElem?_eq_some_iff.mp hpre).1)
  have halen : (r.addresses.take k).length = k := List.length_take_of_le (Nat.le_of_lt hlt)
  have hnodes : (d.nodes.insert k t.label).entries =
      (r.preorder.take (k + 1)).zipIdx.map fun (t, i) => ((i : Int), t.label) := by
    rw [Table.entries_insert h.notMem_keys, h.nodes_eq, List.take_add_one, hpre, List.zipIdx_append, List.map_append,
      hplen]
    simp
  have hedges : d.edges ++ (r.edgeTo? p k).toList =
      (r.addresses.take (k + 1)).zipIdx.filterMap fun (p, i) => r.edgeTo? p i := by
    rw [h.edges_eq, List.take_add_one, hp, List.zipIdx_append, List.filterMap_append, halen]
    cases he : r.edgeTo? p k <;> simp [he]
  unfold Regex.drawNode Diagram.addNode
  dsimp only [Option.getD_none]
  rw [hsize]
  unfold edgeTo? at hedges
  cases hparent : r.parent? p with
  | none =>
    rw [hparent] at hedges
    exact ⟨rfl, hnodes, (List.append_nil _).symm.trans hedges, h.start_eq, h.accepting_eq⟩
  | some j =>
    rw [hparent] at hedges
    exact ⟨rfl, hnodes, hedges, h.start_eq, h.accepting_eq⟩

end Shows

/-! ## The stack -/

/-- The addresses below the subtrees that wait at the given addresses, in the order in which they will be drawn. -/
def remaining (waiting : List (List Nat × Regex)) : List (List Nat) :=
  waiting.flatMap fun (p, t) => t.addresses.map (p ++ ·)

/-- The children of a subtree, with their addresses. -/
def childrenAt (p : List Nat) (t : Regex) : List (List Nat × Regex) := t.children.zipIdx.map fun (c, i) => (p ++ [i], c)

theorem remaining_cons (p : List Nat) (t : Regex) (waiting : List (List Nat × Regex)) :
    remaining ((p, t) :: waiting) = p :: remaining (childrenAt p t ++ waiting) := by
  simp [remaining, childrenAt, addresses_eq t, List.flatMap_map, List.map_flatMap, Function.comp_def]

theorem at?_childrenAt (ht : r.at? p = some t) : ∀ e ∈ childrenAt p t, r.at? e.1 = some e.2 := by
  intro e he
  obtain ⟨⟨c, i⟩, hc, rfl⟩ := List.mem_map.mp he
  rw [at?_append, ht, Option.bind_some, at?, List.mem_zipIdx_iff_getElem?.mp hc]
  rfl

theorem map_parent?_childrenAt (hp : r.addresses[k]? = some p) :
    (childrenAt p t).map (fun (q, c) => (r.parent? q, c)) = t.children.map fun c => (some (k : Int), c) := by
  rw [childrenAt, List.map_map]
  calc t.children.zipIdx.map _
      = t.children.zipIdx.map fun e => (some (k : Int), e.1) := by
        refine List.map_congr_left fun e _ => ?_
        simp [parent?, idxOf_addresses hp]
    _ = (t.children.zipIdx.map Prod.fst).map fun c => (some (k : Int), c) := by rw [List.map_map]; rfl
    _ = t.children.map fun c => (some (k : Int), c) := by rw [List.zipIdx_map_fst]

/-- If the addresses drawn so far and those of the trees that wait are all addresses, then in the end all subtrees have
been drawn. -/
theorem shows_drawAll {drawn : List (List Nat)} {waiting : List (List Nat × Regex)}
    (hat : ∀ e ∈ waiting, r.at? e.1 = some e.2) (haddresses : r.addresses = drawn ++ remaining waiting)
    (h : r.Shows drawn.length d) : r.Shows r.size (drawAll (waiting.map fun (p, t) => (r.parent? p, t)) d) := by
  generalize hstack : waiting.map (fun (p, t) => (r.parent? p, t)) = stack
  induction stack, d using drawAll.induct generalizing drawn waiting with
  | case1 d =>
    obtain rfl := List.map_eq_nil_iff.mp hstack
    rw [drawAll, ← length_addresses, haddresses]
    simpa [remaining] using h
  | case2 d parent t stack id d' hnode ih =>
    obtain ⟨⟨p, t⟩, waiting, rfl, he, rfl⟩ := List.map_eq_cons_iff.mp hstack
    obtain ⟨rfl, rfl⟩ := Prod.mk.inj he
    obtain ⟨ht, hrest⟩ := List.forall_mem_cons.mp hat
    rw [remaining_cons] at haddresses
    have hp : r.addresses[drawn.length]? = some p := by simp [haddresses]
    obtain ⟨hid, hshows⟩ := h.drawNode hp ht
    rw [hnode] at hid hshows
    rw [drawAll, hnode]
    dsimp only at hid hshows ⊢
    subst hid
    have hchildren : ∀ e ∈ childrenAt p t ++ waiting, r.at? e.1 = some e.2 :=
      List.forall_mem_append.mpr ⟨at?_childrenAt ht, hrest⟩
    have hsplit : r.addresses = (drawn ++ [p]) ++ remaining (childrenAt p t ++ waiting) := by
      rw [haddresses, List.append_assoc]
      rfl
    refine ih hchildren hsplit (by rwa [List.length_append]) ?_
    rw [List.map_append, map_parent?_childrenAt hp]

theorem shows_diagram (r : Regex) : r.Shows r.size r.diagram :=
  @shows_drawAll r _ [] [([], r)] (by simp [at?]) (by simp [remaining]) (shows_empty r)

theorem nodes_diagram (r : Regex) :
    r.diagram.nodes.entries = r.preorder.zipIdx.map fun (t, i) => ((i : Int), t.label) := by
  rw [(shows_diagram r).nodes_eq, size, List.take_length]

/-- Every subtree but the first has an edge from its parent. -/
theorem edges_diagram (r : Regex) :
    r.diagram.edges = r.addresses.zipIdx.tail.map fun (p, i) => ⟨r.addresses.idxOf p.dropLast, i, none⟩ := by
  rw [(shows_diagram r).edges_eq, ← length_addresses, List.take_length]
  obtain ⟨rest, hrest⟩ : ∃ rest, r.addresses = [] :: rest := ⟨_, addresses_eq r⟩
  have hne : [] ∉ rest := (List.nodup_cons.mp (hrest ▸ nodup_addresses r)).1
  have hedge : ∀ e ∈ rest.zipIdx 1, r.edgeTo? e.1 e.2 = some ⟨r.addresses.idxOf e.1.dropLast, e.2, none⟩ := by
    intro e he
    have hp : e.1 ≠ [] := fun hp => hne (hp ▸ List.fst_mem_of_mem_zipIdx he)
    rw [edgeTo?, parent?, if_neg hp, Option.map_some]
  have hzip : r.addresses.zipIdx = ([], 0) :: rest.zipIdx 1 := by rw [hrest]; rfl
  have hroot : r.edgeTo? [] 0 = none := by rw [edgeTo?, parent?, if_pos rfl, Option.map_none]
  rw [hzip, List.tail_cons]
  refine (List.filterMap_cons_none ?_).trans ((List.filterMap_congr hedge).trans (congrFun List.filterMap_eq_map _))
  exact hroot

/-! ## The labels -/

theorem IsAlphanumeric.of_mem_children {c : Regex} (h : r.IsAlphanumeric) (hc : c ∈ r.children) : c.IsAlphanumeric := by
  intro a ha
  refine h a ?_
  cases r <;> simp only [children, List.mem_cons, List.not_mem_nil, or_false] at hc
  · rcases hc with rfl | rfl <;> simp [literals, ha]
  · rcases hc with rfl | rfl <;> simp [literals, ha]
  · obtain rfl := hc
    exact ha

/-- No letter or digit labels a node with children. -/
theorem IsAlphanumeric.ne_operator {a b : Symbol} (h : (literal a).IsAlphanumeric) (hb : b ∈ ["·", "|", "*"]) : a ≠ b := by
  obtain ⟨c, hc, rfl⟩ := h a (List.mem_singleton.mpr rfl)
  rintro rfl
  have hchar : c ∈ ['·', '|', '*'] := by simpa [String.ext_iff] using hb
  simp only [List.mem_cons, List.not_mem_nil, or_false] at hchar
  rcases hchar with rfl | rfl | rfl <;> exact absurd hc (by decide)

/-- A label tells how many children there are, and the tree is determined by them. -/
theorem eq_of_label_eq (hr : r.IsAlphanumeric) (hs : s.IsAlphanumeric) (h : r.label = s.label) :
    r.children.length = s.children.length ∧ (r.children = s.children → r = s) := by
  cases r with
  | literal a =>
    cases s with
    | literal b => exact ⟨rfl, fun _ => congrArg literal h⟩
    | concat l' r' => exact absurd h (hr.ne_operator (by simp [label]))
    | alternation l' r' => exact absurd h (hr.ne_operator (by simp [label]))
    | star r' => exact absurd h (hr.ne_operator (by simp [label]))
  | concat l r =>
    cases s with
    | literal b => exact absurd h.symm (hs.ne_operator (by simp [label]))
    | concat l' r' => exact ⟨rfl, fun hc => by simpa [children] using hc⟩
    | alternation l' r' => exact absurd h (by simp [label])
    | star r' => exact absurd h (by simp [label])
  | alternation l r =>
    cases s with
    | literal b => exact absurd h.symm (hs.ne_operator (by simp [label]))
    | concat l' r' => exact absurd h (by simp [label])
    | alternation l' r' => exact ⟨rfl, fun hc => by simpa [children] using hc⟩
    | star r' => exact absurd h (by simp [label])
  | star r =>
    cases s with
    | literal b => exact absurd h.symm (hs.ne_operator (by simp [label]))
    | concat l' r' => exact absurd h (by simp [label])
    | alternation l' r' => exact absurd h (by simp [label])
    | star r' => exact ⟨rfl, fun hc => by simpa [children] using hc⟩

/-- The labels of trees one after the other, in preorder. -/
def labels (l : List Regex) : List String := l.flatMap fun r => r.preorder.map label

theorem labels_cons (r : Regex) (l : List Regex) : labels (r :: l) = r.label :: labels (r.children ++ l) := by
  simp [labels, preorder_eq r, List.map_flatMap]

/-- As many trees with the same labels are the same trees. -/
theorem eq_of_labels_eq {l m : List Regex} (hl : ∀ r ∈ l, r.IsAlphanumeric) (hm : ∀ r ∈ m, r.IsAlphanumeric)
    (hlen : l.length = m.length) (h : labels l = labels m) : l = m := by
  -- Taking the first tree apart leaves its children and one label less.
  generalize hn : (labels l).length = n
  induction n generalizing l m with
  | zero =>
    cases l with
    | nil => exact (List.length_eq_zero_iff.mp hlen.symm).symm
    | cons r l => simp [labels_cons] at hn
  | succ n ih =>
    cases l with
    | nil => exact (List.length_eq_zero_iff.mp hlen.symm).symm
    | cons r l =>
      cases m with
      | nil => exact absurd hlen (Nat.succ_ne_zero _)
      | cons s m =>
        obtain ⟨hr, hl⟩ := List.forall_mem_cons.mp hl
        obtain ⟨hs, hm⟩ := List.forall_mem_cons.mp hm
        rw [labels_cons] at hn
        rw [labels_cons, labels_cons] at h
        obtain ⟨hlabel, hrest⟩ := List.cons.inj h
        obtain ⟨hchildren, heq⟩ := eq_of_label_eq hr hs hlabel
        have hlen : l.length = m.length := Nat.succ.inj hlen
        have happend : r.children ++ l = s.children ++ m :=
          ih (List.forall_mem_append.mpr ⟨fun _ => hr.of_mem_children, hl⟩)
            (List.forall_mem_append.mpr ⟨fun _ => hs.of_mem_children, hm⟩)
            (by rw [List.length_append, List.length_append, hchildren, hlen]) hrest (Nat.succ.inj hn)
        obtain ⟨hc, hrest⟩ := List.append_inj happend hchildren
        rw [heq hc, hrest]

/-- Trees of letters and digits with the same drawing are equal. -/
theorem eq_of_diagram_eq (hr : r.IsAlphanumeric) (hs : s.IsAlphanumeric) (h : r.diagram = s.diagram) : r = s := by
  have hlabels (t : Regex) : t.diagram.nodes.entries.map Prod.snd = labels [t] := by
    rw [nodes_diagram, List.map_map, labels, List.flatMap_singleton]
    calc t.preorder.zipIdx.map _ = (t.preorder.zipIdx.map Prod.fst).map label := by rw [List.map_map]; rfl
      _ = t.preorder.map label := by rw [List.zipIdx_map_fst]
  have heq : labels [r] = labels [s] := by rw [← hlabels, ← hlabels, h]
  exact List.singleton_inj.mp (eq_of_labels_eq (by simpa using hr) (by simpa using hs) rfl heq)

/-- In the drawing of a tree the subtrees are numbered in preorder, by the order of their addresses, and have their labels. Every
subtree but the root has an edge without a label, from its parent, and the edges come in the order of these subtrees. Trees
of letters and digits are told apart by their drawings. -/
theorem diagram_preorder (r : Regex) :
    (r.addresses.Pairwise (· < ·) ∧ (∀ p, p ∈ r.addresses ↔ (r.at? p).isSome = true) ∧
        (∀ p ∈ r.addresses, p.dropLast ∈ r.addresses) ∧ r.addresses.map r.at? = r.preorder.map some) ∧
      r.diagram.nodes.entries = r.preorder.zipIdx.map (fun (t, i) => ((i : Int), t.label)) ∧
      r.diagram.edges = r.addresses.zipIdx.tail.map (fun (p, i) => ⟨r.addresses.idxOf p.dropLast, i, none⟩) ∧
      r.diagram.edges.length + 1 = r.size ∧ r.diagram.start = none ∧ r.diagram.accepting = ∅ ∧
      ∀ s : Regex, r.IsAlphanumeric → s.IsAlphanumeric → (r.diagram = s.diagram ↔ r = s) := by
  refine ⟨⟨pairwise_addresses r, fun p => mem_addresses, fun p => dropLast_mem_addresses, map_at?_addresses r⟩,
    nodes_diagram r, edges_diagram r, ?_, (shows_diagram r).start_eq, (shows_diagram r).accepting_eq,
    fun s hr hs => ⟨eq_of_diagram_eq hr hs, fun h => h ▸ rfl⟩⟩
  rw [edges_diagram, List.length_map, List.length_tail, List.length_zipIdx, length_addresses]
  exact Nat.sub_add_cancel (List.length_pos_iff.mpr (preorder_ne_nil r))

/-- Three symbols, grouped to the left and to the right: the drawings have the same labels in another order. -/
theorem diagram_preorder_grouped :
    let r := concat (concat (literal "a") (literal "b")) (star (literal "c"))
    let s := concat (literal "a") (concat (literal "b") (star (literal "c")))
    r.IsAlphanumeric ∧ s.IsAlphanumeric ∧ r.diagram ≠ s.diagram ∧
      r.diagram.nodes.entries = [(0, "·"), (1, "·"), (2, "a"), (3, "b"), (4, "*"), (5, "c")] ∧
      r.diagram.edges = [⟨0, 1, none⟩, ⟨1, 2, none⟩, ⟨1, 3, none⟩, ⟨0, 4, none⟩, ⟨4, 5, none⟩] := by
  intro r s
  have hliterals : ∀ a ∈ ["a", "b", "c"], ∃ c, isSymbolChar c = true ∧ a = String.singleton c := by
    simp only [List.mem_cons, List.not_mem_nil, or_false]
    rintro a (rfl | rfl | rfl)
    · exact ⟨'a', by decide, rfl⟩
    · exact ⟨'b', by decide, rfl⟩
    · exact ⟨'c', by decide, rfl⟩
  have hr : r.IsAlphanumeric := hliterals
  have hs : s.IsAlphanumeric := hliterals
  obtain ⟨-, hnodes, hedges, -, -, -, hinjective⟩ := diagram_preorder r
  exact ⟨hr, hs, fun h => absurd ((hinjective s hr hs).mp h) (by decide), hnodes.trans (by decide), hedges.trans (by decide)⟩

end Regex

end FormalLang
