import FormalLang.Proofs.Grammar.Memo
import FormalLang.Proofs.Item.Collection

/-!
# Queries for closures and collections

A closure asks for the tables anew at each item whose predictions need first sets, and a collection asks for a closure anew at each
letter of each state. Since a query does not change the tables that the next one reads, both answer what the productions and these
tables make of the items, and have the tables kept if they were needed before the first fault.

* `Memo.Makes`: what a query does on the way, stage by stage, and what it answers if no stage has a fault.
* `Memo.replies_closure`, `Memo.replies_collect`: the answers, which are those of `Grammar.close` and `Grammar.collect`.
* `Memo.Coherent.closure_eq_ok`, `Memo.Coherent.collect_eq`: if what is kept is that of the grammar, they depend on the
  productions alone.
-/

namespace FormalLang

open Search

/-! ## Lists up to a fault -/

section UpToFirst

variable {α : Type} {p : α → Bool} {l : List α}

theorem upToFirst_append_of_forall (h : ∀ a ∈ l, p a = false) (l' : List α) : upToFirst p (l ++ l') = l ++ upToFirst p l' := by
  induction l with
  | nil => rfl
  | cons a l ih =>
    obtain ⟨ha, hl⟩ := List.forall_mem_cons.mp h
    rw [List.cons_append, upToFirst, if_neg (by simp [ha]), ih hl, List.cons_append]

theorem upToFirst_append_of_exists (h : ∃ a ∈ l, p a = true) (l' : List α) : upToFirst p (l ++ l') = upToFirst p l := by
  induction l with
  | nil => simp at h
  | cons a l ih =>
    rw [List.cons_append, upToFirst, upToFirst]
    split
    · rfl
    · next ha =>
      have hl : ∃ b ∈ l, p b = true := by simpa [ha] using h
      rw [ih hl]

theorem upToFirst_eq_self (h : ∀ a ∈ l, p a = false) : upToFirst p l = l := by
  have happend := upToFirst_append_of_forall h []
  rwa [List.append_nil, upToFirst, List.append_nil] at happend

theorem upToFirst_map {β : Type} (f : β → α) (l : List β) : upToFirst p (l.map f) = (upToFirst (p ∘ f) l).map f := by
  induction l with
  | nil => rfl
  | cons b l ih =>
    rw [List.map_cons, upToFirst, upToFirst, ih]
    simp only [Function.comp_apply]
    split <;> rfl

end UpToFirst

namespace Memo

variable {α β : Type} {m : Memo} {g : Grammar} {f : FirstFollow}

/-! ## Stages -/

/-- Something that a query does on the way. -/
structure Stage where
  /-- The fault that it has, if it has one. -/
  fault? : Option ItemFault
  /-- Are the tables used? -/
  looksAhead : Bool

namespace Stage

/-- A visit to an item. -/
def ofItem (f : FirstFollow) (i : Item) : Stage := ⟨i.fault? f, i.looksAhead⟩

/-- The making of a closure. -/
def ofClosing (c : Closing) : Stage := ⟨c.fault?, c.looksAhead⟩

/-- The first fault of some stages, or what comes out if there is none. -/
def outcome (l : List Stage) (a : α) : Except ItemFault α :=
  match l.findSome? fault? with
  | some e => .error e
  | none => .ok a

/-- Are the tables used before there is a fault? -/
def used (l : List Stage) : Bool := (upToFirst (·.fault?.isSome) l).any looksAhead

variable {l : List Stage} {a : α} {b : β}

theorem outcome_of_none (h : l.findSome? fault? = none) : outcome l a = .ok a := by
  rw [outcome, h]

theorem outcome_of_some {e : ItemFault} (h : l.findSome? fault? = some e) : outcome l a = .error e := by
  rw [outcome, h]

theorem outcome_append_of_none (h : l.findSome? fault? = none) (l' : List Stage) : outcome (l ++ l') a = outcome l' a := by
  rw [outcome, List.findSome?_append, h]
  rfl

theorem outcome_append_of_some {e : ItemFault} (h : l.findSome? fault? = some e) (l' : List Stage) :
    outcome (l ++ l') a = .error e := by
  rw [outcome, List.findSome?_append, h]
  rfl

theorem used_append_of_none (h : l.findSome? fault? = none) (l' : List Stage) : used (l ++ l') = (used l || used l') := by
  have hnone : ∀ s ∈ l, s.fault?.isSome = false := fun s hs => by rw [List.findSome?_eq_none_iff.mp h s hs]; rfl
  rw [used, upToFirst_append_of_forall hnone, List.any_append, used, upToFirst_eq_self hnone, used]

theorem used_append_of_some {e : ItemFault} (h : l.findSome? fault? = some e) (l' : List Stage) : used (l ++ l') = used l := by
  have hsome : ∃ s ∈ l, s.fault?.isSome = true := by
    obtain ⟨s, hs, he⟩ := List.exists_of_findSome?_eq_some h
    exact ⟨s, hs, by rw [he]; rfl⟩
  rw [used, upToFirst_append_of_exists hsome, used]

theorem used_singleton (s : Stage) : used [s] = s.looksAhead := by
  rw [used, upToFirst, upToFirst, ite_self]
  exact Bool.or_false _

theorem outcome_map_ofItem (is : List Item) (a : α) : outcome (is.map (ofItem f)) a =
    match is.findSome? (Item.fault? f) with
    | some e => .error e
    | none => .ok a := by
  rw [outcome, List.findSome?_map]
  rfl

theorem used_map_ofItem (is : List Item) :
    used (is.map (ofItem f)) = (upToFirst (fun i => (i.fault? f).isSome) is).any Item.looksAhead := by
  rw [used, upToFirst_map, List.any_map]
  rfl

theorem outcome_map_ofClosing (cs : List Closing) (a : α) : outcome (cs.map ofClosing) a =
    match cs.findSome? Closing.fault? with
    | some e => .error e
    | none => .ok a := by
  rw [outcome, List.findSome?_map]
  rfl

theorem used_map_ofClosing (cs : List Closing) :
    used (cs.map ofClosing) = (upToFirst (·.fault?.isSome) cs).any Closing.looksAhead := by
  rw [used, upToFirst_map, List.any_map]
  rfl

end Stage

/-- The query goes through some stages up to the first fault, and answers `a` if there is none, whatever is kept, as long as the
productions are those of `g` and the tables that are read are `f`. -/
def Makes (g : Grammar) (f : FirstFollow) (q : Query α) (l : List Stage) (a : α) : Prop :=
  ∀ m : Memo, m.grammar = g → m.current = f → m.Replies q (Stage.outcome l a) (Stage.used l)

namespace Makes

variable {q : Query α} {h : α → Query β} {l l' : List Stage} {a : α} {b : β}

theorem pure (a : α) : Makes g f (Pure.pure a) [] a := fun _ _ _ => .pure a

/-- A query goes on if there was no fault. -/
theorem bind (hq : Makes g f q l a) (hh : l.findSome? Stage.fault? = none → Makes g f (h a) l' b) :
    Makes g f (q >>= h) (l ++ l') b := by
  intro m hg hf
  have hreply := hq m hg hf
  cases hfault : l.findSome? Stage.fault? with
  | some e =>
    rw [Stage.outcome_of_some hfault] at hreply
    rw [Stage.outcome_append_of_some hfault, Stage.used_append_of_some hfault]
    exact hreply.bind_error
  | none =>
    rw [Stage.outcome_of_none hfault] at hreply
    rw [Stage.outcome_append_of_none hfault, Stage.used_append_of_none hfault]
    exact hreply.bind (hh hfault _ ((m.grammar_fillIf _).trans hg) ((m.current_fillIf _).trans hf))

theorem foldlM {γ : Type} {step : β → γ → Query β} {stage : γ → Stage} {next : β → γ → β} {cs : List γ}
    (hstep : ∀ b, ∀ c ∈ cs, Makes g f (step b c) [stage c] (next b c)) (b : β) :
    Makes g f (cs.foldlM step b) (cs.map stage) (cs.foldl next b) := by
  induction cs generalizing b with
  | nil => exact pure b
  | cons c cs ih =>
    rw [List.foldlM_cons]
    exact (hstep b c (.head _)).bind fun _ => ih (fun b c hc => hstep b c (.tail _ hc)) (next b c)

end Makes

/-! ## Closures -/

theorem replies_lookaheads (m : Memo) (rest : List Letter) (a : Option Symbol) :
    m.Replies (Query.lookaheads rest a) ((m.current.lookaheads rest a).mapError .missing) a.isSome := by
  cases a with
  | none => exact .pure [none]
  | some a => exact .lookUp _

theorem replies_demands (m : Memo) (i : Item) :
    m.Replies (Query.demands i) (i.demands m.current) i.looksAhead := by
  unfold Query.demands Item.demands Item.looksAhead
  split
  · cases i.expected? with
    | none => rw [Option.isSome_none, Bool.and_false]; exact .pure []
    | some e =>
      obtain ⟨n, rest⟩ := e
      rw [Option.isSome_some, Bool.and_true]
      exact (m.replies_lookaheads rest i.lookahead).map _
  · next hdot =>
    have hnone : i.expected? = none := by rw [Item.expected?, Option.not_isSome_iff_eq_none.mp hdot]
    rw [hnone, Option.isSome_none, Bool.and_false]
    rfl

theorem makes_demands (i : Item) : Makes g f (Query.demands i) [.ofItem f i] (i.demanded f) := by
  rintro m rfl rfl
  have hreply := m.replies_demands i
  have houtcome : Stage.outcome [.ofItem m.current i] (i.demanded m.current) = i.demands m.current := by
    unfold Stage.ofItem Item.fault? Item.demanded
    cases i.demands m.current <;> rfl
  rwa [Stage.used_singleton, houtcome]

theorem makes_visitItems (n : Nat) (met : List (Int × Option Symbol)) (found waiting : List Item) :
    Makes g f (Query.visitItems g n met found waiting) ((g.visitItems f n met found waiting).visited.map (.ofItem f))
      (g.visitItems f n met found waiting).found := by
  induction n generalizing met found waiting with
  | zero => exact .pure found
  | succ n ih =>
    cases waiting with
    | nil => exact .pure found
    | cons i waiting => exact (makes_demands i).bind fun _ => ih _ _ _

/-- A closure is that of the productions and the tables that are read. -/
theorem replies_closure (m : Memo) (s : ItemSet) :
    m.Replies (Query.closure s) (m.grammar.close m.current s).result (m.grammar.close m.current s).looksAhead := by
  have hvisits := (makes_visitItems (m.grammar.itemBound m.current s) [] s.toList s.toList.reverse m rfl rfl).map
    OrderedSet.ofList
  rw [Stage.outcome_map_ofItem, Stage.used_map_ofItem] at hvisits
  simp only [Grammar.close, Closing.looksAhead]
  generalize m.grammar.visitItems m.current (m.grammar.itemBound m.current s) [] s.toList s.toList.reverse = trace at hvisits ⊢
  cases hfault : trace.visited.findSome? (Item.fault? m.current) with
  | some e =>
    rw [hfault] at hvisits
    exact .get_bind hvisits
  | none =>
    rw [hfault] at hvisits
    exact .get_bind hvisits

theorem makes_closure (s : ItemSet) :
    Makes g f (Query.closure s) [.ofClosing (g.close f s)] ((g.close f s).result.toOption.getD ∅) := by
  rintro m rfl rfl
  have hreply := m.replies_closure s
  have houtcome : Stage.outcome [.ofClosing (m.grammar.close m.current s)]
      ((m.grammar.close m.current s).result.toOption.getD ∅) = (m.grammar.close m.current s).result := by
    unfold Stage.ofClosing Closing.fault?
    cases (m.grammar.close m.current s).result <;> rfl
  rwa [Stage.used_singleton, houtcome]

/-! ## Collections -/

/-- An item of a closure has no fault, so it has a dot. -/
theorem hasDot_of_result_close {s t : ItemSet} (h : (g.close f s).result = .ok t) : ∀ i ∈ t, i.hasDot = true := by
  intro i hi
  obtain ⟨hfault, hmem⟩ := Grammar.result_close_eq_ok_iff.mp h
  obtain ⟨l, hl⟩ := Item.exists_demands_of_fault? (hfault i ((hmem i).mp hi))
  by_contra hdot
  rw [Item.demands, if_neg hdot] at hl
  cases hl

theorem hasDot_of_mem_nextStates {s t : ItemSet} (ht : t ∈ g.nextStates f s) : ∀ i ∈ t, i.hasDot = true := by
  obtain ⟨l, -, hresult⟩ := Grammar.mem_nextStates_iff.mp ht
  exact hasDot_of_result_close hresult

/-- Where a letter leads to, unless a fault is in the way. -/
def target (g : Grammar) (f : FirstFollow) (s : ItemSet) (l : Letter) : ItemSet :=
  (g.close f (s.shifted l)).result.toOption.getD ∅

theorem makes_follow {s : ItemSet} (hs : ∀ i ∈ s, i.hasDot = true) (k : Nat) (c : Collection) (l : Letter) :
    Makes g f (Query.follow k s c l) [.ofClosing (g.close f (s.shifted l))] (c.add k l (target g f s l)) := by
  unfold Query.follow
  rw [ItemSet.goto_eq_ok hs]
  exact (makes_closure (s.shifted l)).bind fun _ => .pure _

/-- What comes of the letters of a state, if they lead to `goal`. -/
theorem foldl_add (goal : Letter → ItemSet) (k : Nat) (ls : List Letter) (c : Collection) :
    ls.foldl (fun c l => c.add k l (goal l)) c =
      ⟨c.states ++ unseen c.states (ls.map goal),
        c.transitions ++ ls.map fun l => (k, l, (c.states ++ unseen c.states (ls.map goal)).idxOf (goal l))⟩ := by
  induction ls generalizing c with
  | nil => simp [unseen]
  | cons l ls ih =>
    rw [List.foldl_cons, ih, List.map_cons, List.map_cons, unseen, Collection.add]
    split
    · next hmem =>
      simp only [List.idxOf_append_of_mem hmem, List.append_assoc, List.singleton_append]
    · next hmem =>
      have hcongr : unseen (c.states ++ [goal l]) (ls.map goal) = unseen (goal l :: c.states) (ls.map goal) :=
        unseen_congr (fun t => by simp [or_comm]) _
      have hindex : (c.states ++ goal l :: unseen (goal l :: c.states) (ls.map goal)).idxOf (goal l) =
          (c.states ++ [goal l]).idxOf (goal l) := by
        rw [List.append_cons]
        exact List.idxOf_append_of_mem (List.mem_append_right _ (.head _))
      simp only [hcongr, hindex, List.append_assoc, List.singleton_append]

/-- The transitions from some states, of which the first one has the number `k`, among all states. -/
def transitionsFrom (g : Grammar) (f : FirstFollow) (states : List ItemSet) (k : Nat) (visited : List ItemSet) :
    List (Nat × Letter × Nat) :=
  (visited.zipIdx k).flatMap fun (s, k) =>
    (g.closings f s).filterMap fun (l, c) => c.result.toOption.map fun t => (k, l, states.idxOf t)

section Letters

variable {s : ItemSet} (h : ((g.closings f s).map Prod.snd).findSome? Closing.fault? = none)
include h

theorem result_eq_ok_target {l : Letter} (hl : l ∈ s.nextLetters) :
    (g.close f (s.shifted l)).result = .ok (target g f s l) := by
  have hclosing : g.close f (s.shifted l) ∈ (g.closings f s).map Prod.snd :=
    List.mem_map.mpr ⟨_, List.mem_map_of_mem hl, rfl⟩
  obtain ⟨t, ht⟩ := Closing.fault?_eq_none_iff.mp (List.findSome?_eq_none_iff.mp h _ hclosing)
  rw [target, ht]
  rfl

theorem filterMap_closings {β : Type} (r : Letter → ItemSet → β) :
    ((g.closings f s).filterMap fun (l, c) => c.result.toOption.map (r l)) =
      s.nextLetters.toList.map fun l => r l (target g f s l) := by
  rw [Grammar.closings, List.filterMap_map, ← List.filterMap_eq_map]
  refine List.filterMap_congr fun l hl => ?_
  simp only [Function.comp_apply, result_eq_ok_target h hl]
  rfl

theorem nextStates_eq_map_target : g.nextStates f s = s.nextLetters.toList.map (target g f s) := by
  rw [← filterMap_closings h fun _ t => t, Grammar.nextStates]
  refine List.filterMap_congr fun e _ => ?_
  exact Option.map_id'.symm

theorem transitionsFrom_cons (states : List ItemSet) (k : Nat) (visited : List ItemSet) :
    transitionsFrom g f states k (s :: visited) =
      (s.nextLetters.toList.map fun l => (k, l, states.idxOf (target g f s l))) ++
        transitionsFrom g f states (k + 1) visited := by
  rw [transitionsFrom, List.zipIdx_cons, List.flatMap_cons]
  exact congrArg (· ++ _) (filterMap_closings h fun l t => (k, l, states.idxOf t))

/-- The letters of a state lead to states that were known, or become known with it. -/
theorem target_mem {l : Letter} (found : List ItemSet) (hl : l ∈ s.nextLetters.toList) :
    target g f s l ∈ found ++ unseen found (g.nextStates f s) := by
  have hnext : target g f s l ∈ g.nextStates f s := by
    rw [nextStates_eq_map_target h]
    exact List.mem_map_of_mem hl
  by_cases hmem : target g f s l ∈ found
  · exact List.mem_append_left _ hmem
  · exact List.mem_append_right _ (mem_unseen.mpr ⟨hnext, hmem⟩)

/-- The number of a state stays the same while more states are found. -/
theorem numbers_eq {found later : List ItemSet} (hfurther : found ++ unseen found (g.nextStates f s) <+: later) (k : Nat) :
    (s.nextLetters.toList.map fun l => (k, l, (found ++ unseen found (g.nextStates f s)).idxOf (target g f s l))) =
      s.nextLetters.toList.map fun l => (k, l, later.idxOf (target g f s l)) := by
  obtain ⟨more, rfl⟩ := hfurther
  refine List.map_congr_left fun l hl => ?_
  rw [List.idxOf_append_of_mem (target_mem h found hl)]

end Letters

/-- The closures that are made for the letters of some states. -/
def closingsOf (g : Grammar) (f : FirstFollow) (visited : List ItemSet) : List Closing :=
  visited.flatMap fun s => (g.closings f s).map Prod.snd

theorem makes_letters {s : ItemSet} (hs : ∀ i ∈ s, i.hasDot = true) (k : Nat) (c : Collection) :
    Makes g f (do (← Query.check s.checkedLetters).toList.foldlM (Query.follow k s) c)
      (((g.closings f s).map Prod.snd).map .ofClosing)
      (s.nextLetters.toList.foldl (fun c l => c.add k l (target g f s l)) c) := by
  rw [ItemSet.checkedLetters, if_pos (List.all_eq_true.mpr hs), Grammar.closings, List.map_map, List.map_map]
  exact Makes.foldlM (fun c l _ => makes_follow hs k c l) c

/-- The states are followed in the order of the search for states, which is the order of their numbers. -/
theorem makes_followAll (n : Nat) {found : List ItemSet} (done waiting : List ItemSet) (ts : List (Nat × Letter × Nat))
    (hfound : found = done ++ waiting) (hdots : ∀ s ∈ found, ∀ i ∈ s, i.hasDot = true) :
    Makes g f (Query.followAll n done.length ⟨found, ts⟩)
      ((closingsOf g f (explore .breadthFirst (g.nextStates f) n found waiting).visited).map .ofClosing)
      ⟨(explore .breadthFirst (g.nextStates f) n found waiting).found,
        ts ++ transitionsFrom g f (explore .breadthFirst (g.nextStates f) n found waiting).found done.length
          (explore .breadthFirst (g.nextStates f) n found waiting).visited⟩ := by
  induction n generalizing found done waiting ts with
  | zero => exact (List.append_nil ts).symm ▸ .pure _
  | succ n ih =>
    rw [Query.followAll]
    cases waiting with
    | nil =>
      have hnone : found[done.length]? = none := by simp [hfound]
      simp only [hnone]
      exact (List.append_nil ts).symm ▸ .pure _
    | cons s waiting =>
      have hsome : found[done.length]? = some s := by simp [hfound]
      have hs := hdots s (by simp [hfound])
      simp only [hsome]
      have hdots' : ∀ t ∈ found ++ unseen found (g.nextStates f s), ∀ i ∈ t, i.hasDot = true :=
        List.forall_mem_append.mpr ⟨hdots, fun t ht => hasDot_of_mem_nextStates (mem_unseen.mp ht).1⟩
      have hrest := fun ts => ih (done ++ [s]) (waiting ++ unseen found (g.nextStates f s)) ts (by simp [hfound]) hdots'
      have hfurther : found ++ unseen found (g.nextStates f s) <+: (explore .breadthFirst (g.nextStates f) n
          (found ++ unseen found (g.nextStates f s)) (waiting ++ unseen found (g.nextStates f s))).found := prefix_explore n _ _
      rw [explore, Discipline.enqueue]
      generalize explore .breadthFirst (g.nextStates f) n (found ++ unseen found (g.nextStates f s))
        (waiting ++ unseen found (g.nextStates f s)) = rest at hrest hfurther ⊢
      rw [← bind_assoc, closingsOf, List.flatMap_cons, List.map_append]
      refine (makes_letters hs done.length ⟨found, ts⟩).bind fun hnone => ?_
      have hnone : ((g.closings f s).map Prod.snd).findSome? Closing.fault? = none := by
        rwa [List.findSome?_map] at hnone
      rw [foldl_add, ← nextStates_eq_map_target hnone, transitionsFrom_cons hnone, numbers_eq hnone hfurther]
      have hlength : (done ++ [s]).length = done.length + 1 := List.length_append
      rw [hlength] at hrest
      rw [← List.append_assoc]
      exact hrest _

/-- The states that are found are followed one after the other, each of them. -/
theorem makes_followAll_start {start : ItemSet} (hstart : ∀ i ∈ start, i.hasDot = true) :
    Makes g f (Query.followAll (Nat.pow 2 (g.itemBound f start)) 0 ⟨[start], []⟩)
      ((closingsOf g f (g.discover f start)).map .ofClosing) (g.collectionOf f (g.discover f start)) := by
  have hvisited := (Grammar.finishes_discover g f start).visited_eq
  have hfollow : Makes g f (Query.followAll (Nat.pow 2 (g.itemBound f start)) 0 ⟨[start], []⟩) _ _ :=
    makes_followAll _ [] [start] [] rfl fun s hs => List.mem_singleton.mp hs ▸ hstart
  have hsearch : explore .breadthFirst (g.nextStates f) (Nat.pow 2 (g.itemBound f start)) [start] [start] =
      search .breadthFirst (g.nextStates f) (Nat.pow 2 (g.itemBound f start)) [start] := rfl
  rw [hsearch, hvisited] at hfollow
  exact hfollow

section FirstClosure

variable {s start : ItemSet} (hstart : (g.close f s).result = .ok start)
include hstart

theorem allClosings_eq_cons : g.allClosings f s =
    g.close f s :: upToFirst (·.fault?.isSome) (closingsOf g f (g.discover f start)) := by
  have hnone : (g.close f s).fault? = none := Closing.fault?_eq_none_iff.mpr ⟨start, hstart⟩
  simp only [Grammar.allClosings, hstart]
  rw [upToFirst, hnone]
  rfl

theorem collect_eq_outcome : g.collect f s =
    Stage.outcome ((closingsOf g f (g.discover f start)).map .ofClosing) (g.collectionOf f (g.discover f start)) := by
  have hnone : (g.close f s).fault? = none := Closing.fault?_eq_none_iff.mpr ⟨start, hstart⟩
  rw [Grammar.collect, Grammar.closure, hstart, allClosings_eq_cons hstart, Stage.outcome_map_ofClosing]
  simp only [List.findSome?_cons, hnone, findSome?_upToFirst]
  rfl

end FirstClosure

/-- A collection is that of the productions and the tables that are read. -/
theorem replies_collect (m : Memo) (s : ItemSet) : m.Replies (Query.collect s) (m.grammar.collect m.current s)
    ((m.grammar.allClosings m.current s).any Closing.looksAhead) := by
  have hfirst := m.replies_closure s
  cases hstart : (m.grammar.close m.current s).result with
  | error e =>
    rw [hstart] at hfirst
    have hcollect : m.grammar.collect m.current s = .error e := by rw [Grammar.collect, Grammar.closure, hstart]; rfl
    have hclosings : m.grammar.allClosings m.current s = [m.grammar.close m.current s] := by
      simp [Grammar.allClosings, hstart, upToFirst]
    rw [hcollect, hclosings, List.any_cons, List.any_nil, Bool.or_false]
    exact hfirst.bind_error
  | ok start =>
    rw [hstart] at hfirst
    have hrest := makes_followAll_start (hasDot_of_result_close hstart) (m.fillIf (m.grammar.close m.current s).looksAhead)
      (m.grammar_fillIf _) (m.current_fillIf _)
    rw [← collect_eq_outcome hstart, Stage.used_map_ofClosing] at hrest
    rw [allClosings_eq_cons hstart, List.any_cons]
    refine hfirst.bind (.get_bind ?_)
    rw [grammar_fillIf, current_fillIf]
    exact hrest

/-! ## Coherence -/

theorem ask_closure (m : Memo) (s : ItemSet) : m.closure s =
    ((m.grammar.closure m.current s).mapError .fault, m.fillIf (m.grammar.close m.current s).looksAhead) :=
  m.replies_closure s

theorem ask_collect (m : Memo) (s : ItemSet) : m.collect s =
    ((m.grammar.collect m.current s).mapError .fault, m.fillIf ((m.grammar.allClosings m.current s).any Closing.looksAhead)) :=
  m.replies_collect s

theorem Coherent.closure_eq_ok (h : m.Coherent) {s : ItemSet} (hs : ∀ i ∈ s, i.Fits m.grammar) :
    (m.closure s).1 = .ok (m.grammar.closedSet s) := by
  rw [ask_closure, h.current_eq, Grammar.closure_eq_ok hs]
  rfl

theorem Coherent.collect_eq (h : m.Coherent) (s : ItemSet) :
    (m.collect s).1 = (m.grammar.collect (.ofGrammar m.grammar) s).mapError .fault := by
  rw [ask_collect, h.current_eq]

theorem Coherent.collect_eq_ok (h : m.Coherent) {s : ItemSet} {c : Collection}
    (hc : m.grammar.collect (.ofGrammar m.grammar) s = .ok c) : (m.collect s).1 = .ok c := by
  rw [h.collect_eq, hc]
  rfl

end Memo

end FormalLang
