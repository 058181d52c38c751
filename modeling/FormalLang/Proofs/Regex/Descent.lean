import FormalLang.Proofs.Regex.Reading
import FormalLang.Regex.Descent

/-!
# Recursive descent and open scopes

A reader that calls itself for each scope, and counts the open parentheses, reads what the reader with a list of open scopes
reads, and stops at the same faults. Each call of the former goes over a piece of the text that the latter goes over too. Where
it ends, the number of open parentheses tells whether the scope has been closed, and then the scope around it is the first one
of the list; a scope that is still open at the end of the text is a fault only of the whole.

A piece that is read takes a character at least, so the calls come to an end.

* `Regex.Descent.Ends`: what a call comes to.
* `Regex.Descent.Left`: how a scope is left.
* `Regex.Descent.further_ends`, `scope_ends`, `next_ends`: a scope from its pieces, and a piece from the scopes inside.
* `Regex.descend_eq`: both readers have the same outcome.
-/

namespace FormalLang

namespace Regex

open Lexeme Chars

namespace Descent

variable {text : Chars} {result : Except ReadError Regex} {c : Char} {b d : Cursor}

/-! ## Outcomes -/

section Outcomes

variable {α β : Type} {x : Descent α} {f : α → Descent β} {Q S : α → Cursor → Prop} {R : β → Cursor → Prop}

/-- From a cursor, a piece of the reading comes to an end: with the fault that is the result, or else with something of which `Q`
holds. -/
def Ends (result : Except ReadError Regex) (x : Descent α) (b : Cursor) (Q : α → Cursor → Prop) : Prop :=
  (∃ e, (x.run b).run = some (.error e) ∧ result = .error e) ∨ ∃ a d, (x.run b).run = some (.ok (a, d)) ∧ Q a d

namespace Ends

theorem returns {a : α} (h : Q a b) : Ends result (pure a) b Q := .inr ⟨a, b, rfl, h⟩

theorem throws {e : ReadError} (h : result = .error e) : Ends result (throw e : Descent α) b Q := .inl ⟨e, rfl, h⟩

theorem bind (hx : Ends result x b Q) (hf : ∀ a d, Q a d → Ends result (f a) d R) : Ends result (x >>= f) b R := by
  have hrun : ((x >>= f).run b).run = (x.run b).run.bind fun
      | .error e => some (.error e)
      | .ok (a, d) => ((f a).run d).run := by
    show Option.bind _ _ = _
    congr 1
    funext o
    cases o <;> rfl
  rcases hx with ⟨e, he, hresult⟩ | ⟨a, d, ha, hq⟩
  · exact .inl ⟨e, by rw [hrun, he]; rfl, hresult⟩
  · have hnext : ((x >>= f).run b).run = ((f a).run d).run := by rw [hrun, ha]; rfl
    rw [Ends, hnext]
    exact hf a d hq

theorem mono (hx : Ends result x b Q) (h : ∀ a d, Q a d → S a d) : Ends result x b S :=
  hx.imp_right fun ⟨a, d, ha, hq⟩ => ⟨a, d, ha, h a d hq⟩

end Ends

theorem run_current_bind (f : Option Char → Descent α) : (current? text >>= f).run b = (f text[b.pos]?).run b := rfl

theorem run_consume_bind (f : Unit → Descent α) :
    (consume >>= f).run b = (f ()).run { b with pos := b.pos + 1 } := rfl

theorem run_validate_bind (f : Unit → Descent α) : (validate c >>= f).run b =
    if isAllowedChar c then (f ()).run b else throw (.invalidCharacter c) := by
  unfold validate
  split <;> rfl

/-- The cursor behind a star, if there is one. -/
def afterStar (text : Chars) (b : Cursor) : Cursor :=
  if text[b.pos]? = some '*' then { b with pos := b.pos + 1 } else b

theorem afterStar_depth (text : Chars) (b : Cursor) : (afterStar text b).depth = b.depth := by
  unfold afterStar
  split <;> rfl

theorem le_afterStar_pos (text : Chars) (b : Cursor) : b.pos ≤ (afterStar text b).pos := by
  unfold afterStar
  split
  · exact Nat.le_succ _
  · exact Nat.le_refl _

namespace Ends

theorem get_bind {f : Cursor → Descent α} (h : Ends result (f b) b Q) : Ends result (get >>= f) b Q := h

theorem current_bind {f : Option Char → Descent α} (h : Ends result (f text[b.pos]?) b Q) :
    Ends result (current? text >>= f) b Q := h

theorem consume_bind {f : Unit → Descent α} (h : Ends result (f ()) { b with pos := b.pos + 1 } Q) :
    Ends result (consume >>= f) b Q := h

theorem enter_bind {f : Unit → Descent α} (h : Ends result (f ()) { b with depth := b.depth + 1 } Q) :
    Ends result (enter >>= f) b Q := h

theorem validate_bind {f : Unit → Descent α} (hf : isAllowedChar c = false → result = .error (.invalidCharacter c))
    (h : isAllowedChar c = true → Ends result (f ()) b Q) : Ends result (validate c >>= f) b Q := by
  unfold validate
  split
  · next hc => exact h hc
  · next hc => exact .throws (hf (by simpa using hc))

theorem leave_bind {f : Unit → Descent α} (hf : b.depth - 1 < 0 → result = .error .unbalanced)
    (h : 0 ≤ b.depth - 1 → Ends result (f ()) { b with depth := b.depth - 1 } Q) : Ends result (leave >>= f) b Q := by
  by_cases hb : b.depth - 1 < 0
  · refine .inl ⟨.unbalanced, ?_, hf hb⟩
    show ExceptT.run (StateT.run ((if b.depth - 1 < 0 then throw .unbalanced else return () : Descent Unit) >>= f) _) = _
    rw [if_pos hb]
    rfl
  · have hf := h (by omega)
    show Ends result ((if b.depth - 1 < 0 then throw .unbalanced else return () : Descent Unit) >>= f) _ Q
    rwa [if_neg hb]

theorem required_bind {e : ReadError} {operand : Option Regex} {f : Regex → Descent α}
    (hf : operand = none → result = .error e) (h : ∀ r, operand = some r → Ends result (f r) b Q) :
    Ends result (required e operand >>= f) b Q := by
  cases operand with
  | none => exact .throws (hf rfl)
  | some r => exact h r rfl

theorem takeStar_bind {f : Bool → Descent α} (h : Ends result (f (text[b.pos]? = some '*')) (afterStar text b) Q) :
    Ends result (takeStar text >>= f) b Q := by
  have hrun : (takeStar text >>= f).run b = (f (text[b.pos]? = some '*')).run (afterStar text b) := by
    rw [takeStar, afterStar, bind_assoc, run_current_bind]
    split
    · next hstar => simp only [hstar, decide_true]; rfl
    · next hstar => simp only [hstar, decide_false]; rfl
  rwa [Ends, hrun]

end Ends

end Outcomes

/-! ## Runs -/

theorem drop_pos (h : text[b.pos]? = some c) : text.drop b.pos = c :: text.drop (b.pos + 1) := by
  obtain ⟨hlt, rfl⟩ := List.getElem?_eq_some_iff.mp h
  exact List.drop_eq_getElem_cons hlt

/-- The characters up to the next parenthesis or bar. -/
def runAt (text : Chars) (b : Cursor) : List Char := (text.drop b.pos).takeWhile fun c => !isDelimiter c

theorem takeRun_run (text : Chars) (b : Cursor) : ((takeRun text).run b).run = some
    (match (runAt text b).find? (!isRunChar ·) with
      | some c => .error (.invalidCharacter c)
      | none => .ok (runAt text b, { b with pos := b.pos + (runAt text b).length })) := by
  generalize hrest : text.drop b.pos = rest
  induction rest generalizing b with
  | nil =>
    have hnone : text[b.pos]? = none := List.getElem?_eq_none (List.drop_eq_nil_iff.mp hrest)
    rw [takeRun, run_current_bind, hnone, runAt, hrest]
    rfl
  | cons c rest ih =>
    have hc : text[b.pos]? = some c := by rw [← List.head?_drop, hrest, List.head?_cons]
    have hnext : text.drop (b.pos + 1) = rest := by rw [drop_pos hc] at hrest; exact (List.cons.inj hrest).2
    rw [takeRun, run_current_bind, hc]
    by_cases hdelim : isDelimiter c = true
    · have hnil : runAt text b = [] := by simp [runAt, hrest, hdelim]
      simp only [hdelim, hnil]
      rfl
    · have hcons : runAt text b = c :: runAt text { b with pos := b.pos + 1 } := by
        simp [runAt, hrest, hnext, hdelim]
      simp only [hdelim, Bool.false_eq_true, if_false]
      rw [run_consume_bind, run_validate_bind, hcons]
      have hallowed : isAllowedChar c = isRunChar c := by simp [isAllowedChar, hdelim]
      rw [hallowed]
      cases hchar : isRunChar c with
      | false => simp only [List.find?_cons, hchar]; rfl
      | true =>
        have hrest := ih { b with pos := b.pos + 1 } hnext
        simp only [List.find?_cons, hchar, if_true, Bool.not_true]
        show Option.bind ((takeRun text).run { b with pos := b.pos + 1 }).run _ = _
        rw [hrest]
        cases (runAt text { b with pos := b.pos + 1 }).find? (!isRunChar ·) with
        | some e => rfl
        | none =>
          have hpos : b.pos + 1 + (runAt text { b with pos := b.pos + 1 }).length =
              b.pos + (c :: runAt text { b with pos := b.pos + 1 }).length := by
            rw [List.length_cons]
            omega
          rw [← hpos]
          rfl

/-- The text goes on with the run, and behind it with what ends a run. -/
theorem drop_eq_runAt_append (text : Chars) (b : Cursor) :
    ∃ rest, text.drop b.pos = runAt text b ++ rest ∧ text.drop (b.pos + (runAt text b).length) = rest ∧ EndsRun rest := by
  have hsplit : text.drop b.pos = runAt text b ++ (text.drop b.pos).dropWhile fun c => !isDelimiter c :=
    List.takeWhile_append_dropWhile.symm
  refine ⟨_, hsplit, ?_, fun c hc => ?_⟩
  · rw [← List.drop_drop]
    exact (congrArg (List.drop _) hsplit).trans List.drop_left
  · have hdelim := List.head?_dropWhile_not (fun c => !isDelimiter c) (text.drop b.pos)
    rw [Option.mem_def.mp hc] at hdelim
    simp only [Bool.not_eq_false', isDelimiter, Bool.or_eq_true, decide_eq_true_eq] at hdelim
    rwa [or_assoc] at hdelim

/-! ## Scopes -/

variable {outer : List Scope} {alts : List Regex} {operand : Option Regex} {l r : Regex}

/-- The reader with open scopes, which stands where the cursor is, has the result still before it. -/
structure Stands (text : Chars) (result : Except ReadError Regex) (outer : List Scope) (alts : List Regex)
    (operand : Option Regex) (b : Cursor) : Prop where
  depth_eq : b.depth = outer.length
  result_eq : result = readScopes (ofChars (text.drop b.pos)) outer ⟨alts, operand⟩

/-- What the reader with open scopes makes of the text behind a closed group, whose star may come first. -/
def readBehind (text : Chars) (around : Scope) (outer : List Scope) (group : Regex) (b : Cursor) :
    Except ReadError Regex :=
  if text[b.pos]? = some '*' then readScopes (ofChars (text.drop (b.pos + 1))) outer (around.push (star group))
  else readScopes (ofChars (text.drop b.pos)) outer (around.push group)

/-- The scope with the operand `r` after its alternatives has been left, with the result still before the other reader: its
parenthesis has been closed, or the text is over. -/
inductive Left (text : Chars) (result : Except ReadError Regex) (outer : List Scope) (alts : List Regex) (r : Regex)
    (b : Cursor) : Prop where
  | closed {around : Scope} {others : List Scope} : outer = around :: others → b.depth = others.length →
      result = readBehind text around others (Scope.close ⟨alts, none⟩ r) b → Left text result outer alts r b
  | ended : text.length ≤ b.pos → outer.length ≤ b.depth →
      result = (if b.depth = 0 then .ok (Scope.close ⟨alts, none⟩ r) else .error .unbalanced) →
      Left text result outer alts r b

/-- At the end of the text the scope is left. -/
theorem Stands.left (h : Stands text result outer alts (some r) b) (hpos : text.length ≤ b.pos) :
    Left text result outer alts r b := by
  refine .ended hpos (Int.le_of_eq h.depth_eq.symm) ?_
  rw [h.result_eq, h.depth_eq, List.drop_eq_nil_iff.mpr hpos]
  cases outer with
  | nil => rfl
  | cons around others => rw [if_neg (by simp; omega)]; rfl

/-- A scope behind a bar is left together with the one before it. -/
theorem Left.alternation (h : Left text result outer (l :: alts) r b) : Left text result outer alts (alternation l r) b := by
  cases h with
  | closed houter hdepth hresult => exact .closed houter hdepth hresult
  | ended hpos hdepth hresult => exact .ended hpos hdepth hresult

/-- A closing parenthesis closes the group of the scope. -/
theorem readScopes_closing (h : text[b.pos]? = some ')') (around : Scope) :
    readScopes (ofChars (text.drop b.pos)) (around :: outer) ⟨alts, some r⟩ =
      readBehind text around outer (Scope.close ⟨alts, none⟩ r) { b with pos := b.pos + 1 } := by
  rw [drop_pos h, readBehind]
  split
  · next hstar => rw [drop_pos (b := { b with pos := b.pos + 1 }) hstar]; rfl
  · next hstar =>
    have hnext : (text.drop (b.pos + 1)).head? ≠ some '*' := by rwa [List.head?_drop]
    show readScopes (ofChars (')' :: starChars false ++ text.drop (b.pos + 1))) _ _ = _
    rw [ofChars_closing_append false hnext]
    rfl

/-! ## Pieces -/

/-- A piece is read as the reader with open scopes goes over it: it takes a character at least, and leaves the scope open or is
its end. The first piece does not close it. -/
def NextEnds (text : Chars) (result : Except ReadError Regex) (b : Cursor) : Prop :=
  ∀ {outer alts operand}, b.pos < text.length → Stands text result outer alts operand b →
    Ends result (next text operand) b fun r d => b.pos < d.pos ∧ (operand = none → (outer.length : Int) ≤ d.depth) ∧
      (Stands text result outer alts (some r) d ∨ Left text result outer alts r d)

theorem further_of_ended {k : Int} (hpos : text.length ≤ b.pos) : (further text k r).run b = pure (r, b) := by
  rw [further]
  show (if b.pos < text.length then _ else _ : Descent Regex).run b = _
  rw [if_neg (by omega)]
  rfl

/-- The rest of a scope is read up to where it is left, if its pieces are. -/
theorem further_ends {b : Cursor} {r : Regex} (hnext : ∀ d, b.pos ≤ d.pos → NextEnds text result d)
    (h : Stands text result outer alts (some r) b) :
    Ends result (further text outer.length r) b fun r d => b.pos ≤ d.pos ∧ Left text result outer alts r d := by
  by_cases hpos : b.pos < text.length
  · rw [further]
    refine .get_bind ?_
    rw [if_pos hpos]
    refine .bind (hnext b (Nat.le_refl _) hpos h) ?_
    rintro r' d ⟨hlt, -, hd⟩
    refine .get_bind ?_
    rcases hd with hd | hd
    · rw [if_neg (by rw [hd.depth_eq]; exact Int.lt_irrefl _)]
      refine (further_ends (fun e he => hnext e ?_) hd).mono ?_
      · omega
      · rintro r'' e ⟨hle, he⟩
        exact ⟨by omega, he⟩
    · split
      · exact .returns ⟨Nat.le_of_lt hlt, hd⟩
      · next hdepth =>
        cases hd with
        | closed houter hclosed => subst houter; simp at hdepth; omega
        | ended hended hle hresult => exact .inr ⟨r', d, further_of_ended hended, Nat.le_of_lt hlt, .ended hended hle hresult⟩
  · exact .inr ⟨r, b, further_of_ended (by omega), Nat.le_refl _, h.left (by omega)⟩
termination_by text.length - b.pos

/-- A scope is read up to where it is left, if its pieces are. -/
theorem scope_ends (hnext : ∀ d, b.pos ≤ d.pos → NextEnds text result d) (h : Stands text result outer alts none b) :
    Ends result (scope text) b fun r d => b.pos ≤ d.pos ∧ Left text result outer alts r d := by
  rw [scope]
  by_cases hpos : b.pos < text.length
  · refine .bind (hnext b (Nat.le_refl _) hpos h) ?_
    rintro r d ⟨hlt, hopen, hd⟩
    refine .get_bind ?_
    rcases hd with hd | hd
    · rw [hd.depth_eq]
      refine (further_ends (fun e he => hnext e ?_) hd).mono ?_
      · omega
      · rintro r' e ⟨hle, he⟩
        exact ⟨by omega, he⟩
    · cases hd with
      | closed houter hclosed => subst houter; simp at hopen; omega
      | ended hended hle hresult => exact .inr ⟨r, d, further_of_ended hended, Nat.le_of_lt hlt, .ended hended hle hresult⟩
  · have hnil : text.drop b.pos = [] := List.drop_eq_nil_iff.mpr (by omega)
    have hnone : text[b.pos]? = none := List.getElem?_eq_none (by omega)
    rw [next, bind_assoc]
    refine .current_bind ?_
    rw [hnone]
    refine .throws ?_
    rw [h.result_eq, hnil]
    rfl

/-! ## The next piece -/

theorem takeRun_ends (hf : ∀ c, (runAt text b).find? (!isRunChar ·) = some c → result = .error (.invalidCharacter c)) :
    Ends result (takeRun text) b fun cs d => cs = runAt text b ∧ cs.find? (!isRunChar ·) = none ∧
      d = { b with pos := b.pos + cs.length } := by
  have hrun := takeRun_run text b
  cases hfind : (runAt text b).find? (!isRunChar ·) with
  | some c => exact .inl ⟨_, by rw [hrun, hfind], hf c hfind⟩
  | none => exact .inr ⟨_, _, by rw [hrun, hfind], rfl, hfind, rfl⟩

/-- The other reader reads the run at once. -/
theorem Stands.result_run (h : Stands text result outer alts operand b) (hc : text[b.pos]? = some c)
    (hdelim : isDelimiter c = false) : runAt text b = c :: runAt text { b with pos := b.pos + 1 } ∧
      result = match readSymbols (runAt text b) with
        | .error e => .error e
        | .ok r => readScopes (ofChars (text.drop (b.pos + (runAt text b).length))) outer ⟨alts, some (append operand r)⟩ := by
  obtain ⟨rest, hsplit, hdrop, hrest⟩ := drop_eq_runAt_append text b
  have hcons : runAt text b = c :: runAt text { b with pos := b.pos + 1 } := by
    simp [runAt, drop_pos hc, hdelim]
  have hplain : ∀ e ∈ runAt text b, isDelimiter e = false := fun e he => by
    simpa using List.all_eq_true.mp List.all_takeWhile e he
  refine ⟨hcons, ?_⟩
  rw [h.result_eq, hsplit, hdrop, ofChars_run_append (by simp [hcons]) hplain hrest, readScopes]
  rfl

/-- A run is one piece. -/
theorem run_ends (h : Stands text result outer alts operand b) (hc : text[b.pos]? = some c) (hdelim : isDelimiter c = false) :
    Ends result (do return append operand (← runTree (← takeRun text))) b fun r d =>
      b.pos < d.pos ∧ Stands text result outer alts (some r) d := by
  obtain ⟨hcons, hresult⟩ := h.result_run hc hdelim
  rw [readSymbols] at hresult
  refine .bind (takeRun_ends fun e he => ?_) ?_
  · rw [he] at hresult
    exact hresult
  · rintro cs d ⟨rfl, hfind, rfl⟩
    rw [hfind] at hresult
    unfold runTree
    cases hrun : readRun (runAt text b) with
    | error e =>
      rw [hrun] at hresult
      exact .throws hresult
    | ok r =>
      rw [hrun] at hresult
      exact .returns ⟨by simp [hcons], h.depth_eq, hresult⟩

/-- Behind a group, and its star if it has one, the scope around it goes on, unless the text is over. -/
theorem Left.group {around : Scope} (h : Left text result (around :: outer) [] r b) :
    (outer.length : Int) ≤ (afterStar text b).depth ∧
      (Stands text result outer around.alternatives
          (some (append around.operand (starIf (text[b.pos]? = some '*') r))) (afterStar text b) ∨
        Left text result outer around.alternatives
          (append around.operand (starIf (text[b.pos]? = some '*') r)) (afterStar text b)) := by
  rw [afterStar_depth]
  cases h with
  | closed houter hdepth hresult =>
    cases houter
    refine ⟨Int.le_of_eq hdepth.symm, .inl ?_⟩
    rw [readBehind] at hresult
    unfold afterStar
    split
    · next hstar =>
      rw [if_pos hstar] at hresult
      simp only [hstar, decide_true]
      exact ⟨hdepth, hresult⟩
    · next hstar =>
      rw [if_neg hstar] at hresult
      simp only [hstar, decide_false]
      exact ⟨hdepth, hresult⟩
  | ended hpos hle hresult =>
    have hnone : text[b.pos]? = none := List.getElem?_eq_none hpos
    rw [List.length_cons] at hle
    have hne : b.depth ≠ 0 := by omega
    rw [if_neg hne] at hresult
    refine ⟨by omega, .inr ?_⟩
    simp only [afterStar, hnone, reduceCtorEq, if_false, decide_false]
    exact .ended hpos (by omega) (by rw [if_neg hne, hresult])

/-- The scopes that begin behind the cursor are read up to where they are left. -/
def ScopesEnd (text : Chars) (result : Except ReadError Regex) (b : Cursor) : Prop :=
  ∀ {outer alts d}, b.pos < d.pos → Stands text result outer alts none d →
    Ends result (scope text) d fun r e => d.pos ≤ e.pos ∧ Left text result outer alts r e

/-- A group is one piece, with the star behind it. -/
theorem group_ends (hscope : ScopesEnd text result b) (h : Stands text result outer alts operand b)
    (hc : text[b.pos]? = some '(') :
    Ends result (do consume; enter; let group ← scope text; return append operand (starIf (← takeStar text) group)) b
      fun r d => b.pos < d.pos ∧ (outer.length : Int) ≤ d.depth ∧
        (Stands text result outer alts (some r) d ∨ Left text result outer alts r d) := by
  have hresult := h.result_eq
  rw [drop_pos hc] at hresult
  have hinside : Stands text result (⟨alts, operand⟩ :: outer) [] none ⟨b.pos + 1, b.depth + 1⟩ :=
    ⟨by simp [h.depth_eq], hresult⟩
  refine .consume_bind (.enter_bind (.bind (hscope (Nat.lt_succ_self _) hinside) ?_))
  rintro group d ⟨hle, hleft⟩
  refine .takeStar_bind (.returns ⟨?_, hleft.group⟩)
  exact Nat.lt_of_lt_of_le hle (le_afterStar_pos text d)

/-- What follows a bar is a scope, which is left together with the one around the bar. -/
theorem alternative_ends (hscope : ScopesEnd text result b) (h : Stands text result outer alts operand b)
    (hc : text[b.pos]? = some '|') :
    Ends result (do consume; let left ← required .leadingBar operand; return alternation left (← scope text)) b
      fun r d => b.pos < d.pos ∧ operand.isSome ∧ Left text result outer alts r d := by
  have hresult := h.result_eq
  rw [drop_pos hc] at hresult
  refine .consume_bind (.required_bind ?_ ?_)
  · rintro rfl
    exact hresult
  rintro l rfl
  have hbehind : Stands text result outer (l :: alts) none ⟨b.pos + 1, b.depth⟩ := ⟨h.depth_eq, hresult⟩
  refine .bind (hscope (Nat.lt_succ_self _) hbehind) ?_
  rintro r d ⟨hle, hleft⟩
  exact .returns ⟨hle, rfl, hleft.alternation⟩

/-- A closing parenthesis leaves the scope. -/
theorem closing_ends (h : Stands text result outer alts operand b) (hc : text[b.pos]? = some ')') :
    Ends result (do consume; leave; required .emptyGroup operand) b
      fun r d => b.pos < d.pos ∧ operand.isSome ∧ Left text result outer alts r d := by
  have hresult := h.result_eq
  rw [drop_pos hc] at hresult
  have hdepth := h.depth_eq
  obtain ⟨starred, ls, hls⟩ := exists_ofChars_closing (text.drop (b.pos + 1))
  refine .consume_bind (.leave_bind (fun hnone => ?_) fun hsome => ?_)
  · have houter : outer = [] := by
      rw [← List.length_eq_zero_iff]
      show outer.length = 0
      have : b.depth - 1 < 0 := hnone
      omega
    rw [hresult, hls, houter]
    rfl
  · have : 0 ≤ b.depth - 1 := hsome
    obtain ⟨around, others, rfl⟩ : ∃ around others, outer = around :: others := by
      refine List.exists_cons_of_length_pos ?_
      omega
    cases operand with
    | none => exact .throws (by rw [hresult, hls]; rfl)
    | some r =>
      refine .returns ⟨Nat.lt_succ_self _, rfl, .closed rfl ?_ ?_⟩
      · show b.depth - 1 = others.length
        rw [hdepth, List.length_cons]
        omega
      · rw [h.result_eq]
        exact readScopes_closing hc around

/-- A piece ends, if the scopes inside do. -/
theorem next_ends (hscope : ScopesEnd text result b) : NextEnds text result b := by
  intro outer alts operand hpos h
  have hc : text[b.pos]? = some text[b.pos] := List.getElem?_eq_getElem hpos
  generalize text[b.pos] = c at hc
  rw [next]
  refine .current_bind ?_
  rw [hc]
  refine .validate_bind (fun hforeign => ?_) fun _ => ?_
  · obtain ⟨hrun, hdelim⟩ : isRunChar c = false ∧ isDelimiter c = false := by simpa [isAllowedChar] using hforeign
    obtain ⟨hcons, hresult⟩ := h.result_run hc hdelim
    rw [readSymbols, hcons, List.find?_cons, hrun] at hresult
    exact hresult
  split
  · next hopening =>
    refine (group_ends hscope h (hopening ▸ hc)).mono ?_
    rintro r d ⟨hlt, hdepth, hd⟩
    exact ⟨hlt, fun _ => hdepth, hd⟩
  split
  · next hbar =>
    refine (alternative_ends hscope h (hbar ▸ hc)).mono ?_
    rintro r d ⟨hlt, hsome, hd⟩
    exact ⟨hlt, fun hnone => by simp [hnone] at hsome, .inr hd⟩
  split
  · next hclosing =>
    refine (closing_ends h (hclosing ▸ hc)).mono ?_
    rintro r d ⟨hlt, hsome, hd⟩
    exact ⟨hlt, fun hnone => by simp [hnone] at hsome, .inr hd⟩
  · next hopening hbar hclosing =>
    have hdelim : isDelimiter c = false := by simp [isDelimiter, hopening, hbar, hclosing]
    refine (run_ends h hc hdelim).mono ?_
    rintro r d ⟨hlt, hd⟩
    exact ⟨hlt, fun _ => Int.le_of_eq hd.depth_eq.symm, .inl hd⟩

/-- From everywhere the next piece ends, since the scopes inside begin behind its first character. -/
theorem nextEnds (text : Chars) (result : Except ReadError Regex) (b : Cursor) : NextEnds text result b := by
  by_cases hpos : b.pos < text.length
  · exact next_ends fun hlt hd => scope_ends (fun e hle => nextEnds text result e) hd
  · exact fun hlt => absurd hlt hpos
termination_by text.length - b.pos

/-- The whole text is one scope, around which there is no other one. -/
theorem whole_ends (text : Chars) : Ends (readChars text) (whole text) {} fun r _ => readChars text = .ok r := by
  have hstart : Stands text (readChars text) [] [] none {} := ⟨rfl, rfl⟩
  refine .bind (scope_ends (fun d _ => nextEnds text _ d) hstart) ?_
  rintro r d ⟨-, hleft⟩
  refine .get_bind ?_
  cases hleft with
  | closed houter => cases houter
  | ended hpos hle hresult =>
    split
    · next hdepth => exact .returns (by rw [hresult, if_pos hdepth]; rfl)
    · next hdepth => exact .throws (by rw [hresult, if_neg hdepth])

end Descent

/-- The reading by descent comes to an end, with the tree or the fault that the reader with open scopes has. -/
theorem descend_eq (text : String) : descend text = some (read text) := by
  rcases Descent.whole_ends text.toList with ⟨e, he, hread⟩ | ⟨r, d, hr, hread⟩
  · show Option.bind ((Chars.whole text.toList).run {}).run _ = some (readChars text.toList)
    rw [he, hread]
    rfl
  · show Option.bind ((Chars.whole text.toList).run {}).run _ = some (readChars text.toList)
    rw [hr, hread]
    rfl

end Regex

end FormalLang
