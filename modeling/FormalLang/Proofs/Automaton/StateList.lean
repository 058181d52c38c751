import FormalLang.Automaton.Text.Line
import FormalLang.Proofs.Text.Numbers
import FormalLang.Text.Listing

/-!
# Lists of states

The items of a written list are the digits of its numbers, all but the first one behind a space. The items of any list are parts
of its text, each of them decimal digits with blanks around them.

* `stateList?_listing`: the items of a written list.
* `exists_of_stateList?`: what is known of the items of a list.
-/

namespace FormalLang

variable {cs l : List Char} {c : Char} {items : List (List Char)}

/-! ## Items as parts of the text -/

theorem pieces_piecesBetween (c : Char) (cs : List Char) : Text.Pieces cs (piecesBetween c cs) := by
  induction cs with
  | nil =>
    refine ⟨fun l hl => Option.some.inj hl ▸ List.nil_prefix, fun l hl => ?_⟩
    exact List.mem_singleton.mp hl ▸ List.nil_infix
  | cons x cs ih =>
    rw [piecesBetween]
    split
    · exact ih.cut x
    · exact ih.extend x

theorem listInside_isInfix (cs : List Char) : listInside cs <:+: cs := by
  rw [listInside]
  split
  · exact (Text.trimRight_isPrefix _).isInfix.trans ((List.dropLast_prefix _).isInfix.trans (Text.trim_isInfix cs))
  · exact Text.trim_isInfix cs

theorem isInfix_of_mem_listItems (h : l ∈ listItems cs) : l <:+: cs := by
  unfold listItems at h
  split at h
  · contradiction
  · exact ((pieces_piecesBetween _ _).mem l h).trans (listInside_isInfix cs)

/-- The items of a list of states are parts of its text, and decimal digits apart from the blanks around them. -/
theorem exists_of_stateList? (h : stateList? cs = some items) : ∀ l ∈ items,
    l <:+: cs ∧ Text.trim l ≠ [] ∧ ∀ c ∈ Text.trim l, Text.isDecimalDigit c = true := by
  unfold stateList? at h
  split at h
  · next cs =>
    dsimp only at h
    split at h
    · next hitems =>
      obtain rfl := Option.some.inj h
      intro l hl
      have hitem := List.all_eq_true.mp (Bool.and_eq_true_iff.mp hitems).2 l hl
      rw [isStateItem, Bool.and_eq_true, Bool.not_eq_true', List.isEmpty_eq_false_iff, List.all_eq_true] at hitem
      refine ⟨?_, hitem⟩
      exact (isInfix_of_mem_listItems hl).trans
        ((List.dropLast_prefix cs).isInfix.trans (List.suffix_cons '[' cs).isInfix)
    · contradiction
  · contradiction

/-! ## Written lists -/

theorem piecesBetween_of_notMem (h : c ∉ l) : piecesBetween c l = [l] := by
  induction l with
  | nil => rfl
  | cons x l ih =>
    obtain ⟨hx, hl⟩ := not_or.mp (List.mem_cons.not.mp h)
    rw [piecesBetween, if_neg (Ne.symm hx), ih hl]

theorem piecesBetween_append (h : c ∉ l) (cs : List Char) :
    piecesBetween c (l ++ c :: cs) = l :: piecesBetween c cs := by
  induction l with
  | nil => exact if_pos rfl
  | cons x l ih =>
    obtain ⟨hx, hl⟩ := not_or.mp (List.mem_cons.not.mp h)
    rw [List.cons_append, piecesBetween, if_neg (Ne.symm hx), ih hl]

/-- The pieces between the commas of some texts with a comma and a space between neighbours. -/
theorem piecesBetween_intercalate {ls : List (List Char)} (h : ∀ m ∈ l :: ls, ',' ∉ m) :
    piecesBetween ',' ([',', ' '].intercalate (l :: ls)) = l :: ls.map (' ' :: ·) := by
  induction ls generalizing l with
  | nil =>
    rw [List.intercalate_singleton, piecesBetween_of_notMem (h l (.head _))]
    rfl
  | cons m ls ih =>
    obtain ⟨hl, hls⟩ := List.forall_mem_cons.mp h
    rw [List.intercalate_cons_cons, List.append_assoc]
    show piecesBetween ',' (l ++ ',' :: (' ' :: [',', ' '].intercalate (m :: ls))) = _
    rw [piecesBetween_append hl, piecesBetween, if_neg (by decide), ih hls]
    rfl

/-- The last character of some texts with separators between them belongs to one of the texts. -/
theorem exists_of_getLast?_intercalate {ls : List (List Char)} (hne : ∀ m ∈ ls, m ≠ [])
    (h : c ∈ ([',', ' '].intercalate ls).getLast?) : ∃ m ∈ ls, c ∈ m := by
  induction ls with
  | nil => contradiction
  | cons l ls ih =>
    cases ls with
    | nil =>
      rw [List.intercalate_singleton] at h
      exact ⟨l, .head _, List.mem_of_getLast? h⟩
    | cons m ls =>
      have hls := (List.forall_mem_cons.mp hne).2
      have hbehind : [',', ' '].intercalate (m :: ls) ≠ [] := by
        have hm := hls m (.head _)
        cases ls <;> simp [hm]
      have hsome := List.getLast?_isSome.mpr hbehind
      rw [List.intercalate_cons_cons, List.getLast?_append, Option.or_of_isSome hsome] at h
      obtain ⟨k, hk, hc⟩ := ih hls h
      exact ⟨k, .tail _ hk, hc⟩

/-- A character of some texts with separators between them belongs to a separator or to one of the texts. -/
theorem mem_intercalate {ls : List (List Char)} (h : c ∈ [',', ' '].intercalate ls) : c ∈ [',', ' '] ∨ ∃ m ∈ ls, c ∈ m := by
  induction ls with
  | nil => contradiction
  | cons l ls ih =>
    cases ls with
    | nil =>
      rw [List.intercalate_singleton] at h
      exact .inr ⟨l, .head _, h⟩
    | cons m ls =>
      rw [List.intercalate_cons_cons, List.mem_append, List.mem_append] at h
      rcases h with (h | h) | h
      · exact .inr ⟨l, .head _, h⟩
      · exact .inl h
      · exact (ih h).imp_right fun ⟨k, hk, hc⟩ => ⟨k, .tail _ hk, hc⟩

/-- The digits of some numbers with a comma and a space between neighbours have no blank at their ends and no comma at
the end. -/
theorem listInside_intercalate {ls : List (List Char)} (hne : ∀ m ∈ ls, m ≠ [])
    (hd : ∀ m ∈ ls, ∀ c ∈ m, Text.isDecimalDigit c = true) :
    listInside ([',', ' '].intercalate ls) = [',', ' '].intercalate ls := by
  have hlast : ∀ c ∈ ([',', ' '].intercalate ls).getLast?, Text.isDecimalDigit c = true := fun c hc => by
    obtain ⟨m, hm, hcm⟩ := exists_of_getLast?_intercalate hne hc
    exact hd m hm c hcm
  have hhead : ∀ c ∈ ([',', ' '].intercalate ls).head?, Text.isDecimalDigit c = true := by
    cases ls with
    | nil => exact nofun
    | cons l ls =>
      have hl := List.exists_cons_of_ne_nil (hne l (.head _))
      obtain ⟨x, l, rfl⟩ := hl
      have hx := hd _ (.head _) x (.head _)
      cases ls <;> simpa using hx
  have htrim : Text.trim ([',', ' '].intercalate ls) = [',', ' '].intercalate ls :=
    Text.trim_eq_self (fun c hc => Text.isBlank_eq_false_of_isDecimalDigit (hhead c hc))
      fun c hc => Text.isBlank_eq_false_of_isDecimalDigit (hlast c hc)
  rw [listInside, htrim]
  refine if_neg fun h => ?_
  exact absurd (hlast ',' h) (by decide)

theorem toList_listing (items : List String) :
    (Text.listing items).toList = '[' :: ([',', ' '].intercalate (items.map String.toList) ++ [']']) := by
  rw [Text.listing, Text.commaSeparated, String.toList_append, String.toList_append, String.toList_intercalate]
  rfl

/-- The items of the list of some numbers as it is written. -/
def writtenItems : List Nat → List (List Char)
  | [] => []
  | q :: qs => (toString q).toList :: qs.map fun q => ' ' :: (toString q).toList

theorem listItems_intercalate (qs : List Nat) :
    listItems ([',', ' '].intercalate (qs.map fun q => (toString q).toList)) = writtenItems qs := by
  have hne : ∀ m ∈ qs.map fun q => (toString q).toList, m ≠ [] := by
    intro m hm
    obtain ⟨q, -, rfl⟩ := List.mem_map.mp hm
    exact Text.toList_toString_ne_nil q
  have hd : ∀ m ∈ qs.map fun q => (toString q).toList, ∀ c ∈ m, Text.isDecimalDigit c = true := by
    intro m hm c hc
    obtain ⟨q, -, rfl⟩ := List.mem_map.mp hm
    exact Text.isDecimalDigit_of_mem_toString hc
  have hcomma : ∀ m ∈ qs.map fun q => (toString q).toList, ',' ∉ m :=
    fun m hm hc => absurd (hd m hm ',' hc) (by decide)
  rw [listItems, listInside_intercalate hne hd]
  split
  · next h =>
    cases qs with
    | nil => rfl
    | cons q qs =>
      cases qs <;> simp at h
  · cases qs with
    | nil => contradiction
    | cons q qs =>
      rw [List.map_cons, piecesBetween_intercalate (by rwa [List.map_cons] at hcomma), List.map_map]
      rfl

theorem isStateItem_toString (q : Nat) : isStateItem (toString q).toList = true := by
  have hd : ∀ c ∈ (toString q).toList, Text.isDecimalDigit c = true := fun c hc => Text.isDecimalDigit_of_mem_toString hc
  rw [isStateItem, Text.trim_toString, Bool.and_eq_true, Bool.not_eq_true', List.isEmpty_eq_false_iff, List.all_eq_true]
  exact ⟨Text.toList_toString_ne_nil q, hd⟩

theorem isLineEnd_of_mem_listing (qs : List Nat) :
    ∀ c ∈ (Text.listing (qs.map toString)).toList, Text.isLineEnd c = false := by
  rw [toList_listing, List.forall_mem_cons, List.forall_mem_append]
  refine ⟨by decide, fun c hc => ?_, Text.isLineEnd_eq_false_of_all (by decide)⟩
  rcases mem_intercalate hc with hc | ⟨m, hm, hc⟩
  · exact Text.isLineEnd_eq_false_of_all (by decide) c hc
  · rw [List.map_map] at hm
    obtain ⟨q, -, rfl⟩ := List.mem_map.mp hm
    exact Text.isLineEnd_eq_false_of_isDecimalDigit (Text.isDecimalDigit_of_mem_toString hc)

theorem trim_listing (qs : List Nat) :
    Text.trim (Text.listing (qs.map toString)).toList = (Text.listing (qs.map toString)).toList := by
  rw [toList_listing]
  refine Text.trim_eq_self (fun c hc => ?_) fun c hc => ?_
  · obtain rfl := Option.some.inj hc
    decide
  · rw [← List.cons_append, List.getLast?_concat] at hc
    obtain rfl := Option.some.inj hc
    decide

/-- The items of a written list of numbers. -/
theorem stateList?_listing (qs : List Nat) : stateList? (Text.listing (qs.map toString)).toList = some (writtenItems qs) := by
  have hall : (writtenItems qs).all isStateItem = true := by
    cases qs with
    | nil => rfl
    | cons q qs =>
      rw [List.all_eq_true]
      refine List.forall_mem_cons.mpr ⟨isStateItem_toString q, fun l hl => ?_⟩
      obtain ⟨p, -, rfl⟩ := List.mem_map.mp hl
      exact isStateItem_toString p
  have hitems : listItems ([',', ' '].intercalate (qs.map (String.toList ∘ toString))) = writtenItems qs :=
    listItems_intercalate qs
  rw [toList_listing, stateList?, List.dropLast_concat, List.getLast?_concat, List.map_map, hitems, hall]
  rfl

end FormalLang
