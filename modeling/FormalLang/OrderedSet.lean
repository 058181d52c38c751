/-!
# Ordered sets

A finite set is kept as the list of its elements in ascending order, each once. The set determines
the list, so two sets are equal when their lists are, and a set is written in only one way.

* `OrderedSet.ext`: sets with the same elements are equal.
* `OrderedSet.mem_insert`, `mem_ofList`, `mem_union`, `mem_filter`: the elements of each result.
* `OrderedSet.size_lt_size`: a set with further elements is larger.
-/

namespace FormalLang

/-- A finite set, listed in ascending order without repetition. -/
structure OrderedSet (α : Type) [Ord α] where
  /-- The elements in ascending order. -/
  toList : List α
  /-- Each element is below all later ones. -/
  ascending : toList.Pairwise fun a b => compare a b = .lt
  deriving DecidableEq

namespace OrderedSet

variable {α β : Type} [Ord α] [Ord β]

instance : Membership α (OrderedSet α) where
  mem s a := a ∈ s.toList

instance [DecidableEq α] (a : α) (s : OrderedSet α) : Decidable (a ∈ s) :=
  inferInstanceAs (Decidable (a ∈ s.toList))

theorem mem_def {a : α} {s : OrderedSet α} : a ∈ s ↔ a ∈ s.toList := Iff.rfl

/-- The set without elements. -/
def empty : OrderedSet α := ⟨[], .nil⟩

instance : EmptyCollection (OrderedSet α) := ⟨empty⟩

instance : Inhabited (OrderedSet α) := ⟨empty⟩

/-- The set of one element. -/
def singleton (a : α) : OrderedSet α := ⟨[a], List.pairwise_singleton _ _⟩

/-- The number of elements. -/
def size (s : OrderedSet α) : Nat := s.toList.length

/-- Does the set have no element? -/
def isEmpty (s : OrderedSet α) : Bool := s.toList.isEmpty

/-- The elements that satisfy `p`. -/
def filter (p : α → Bool) (s : OrderedSet α) : OrderedSet α := ⟨s.toList.filter p, s.ascending.filter p⟩

/-- Is every element of `s` in `t`? -/
def subset [DecidableEq α] (s t : OrderedSet α) : Bool := s.toList.all (· ∈ t)

theorem subset_iff [DecidableEq α] {s t : OrderedSet α} : s.subset t = true ↔ ∀ a, a ∈ s → a ∈ t := by
  simp only [subset, List.all_eq_true, decide_eq_true_eq, mem_def]

@[simp] theorem toList_empty : (∅ : OrderedSet α).toList = [] := rfl

@[simp] theorem not_mem_empty (a : α) : a ∉ (∅ : OrderedSet α) := List.not_mem_nil

@[simp] theorem mem_singleton {a b : α} : b ∈ singleton a ↔ b = a := List.mem_singleton

@[simp] theorem mem_filter {p : α → Bool} {s : OrderedSet α} {a : α} :
    a ∈ s.filter p ↔ a ∈ s ∧ p a = true := List.mem_filter

/-- Put `a` at its place in an ascending list, unless it is there. -/
def insertList (a : α) : List α → List α
  | [] => [a]
  | b :: bs =>
    match compare a b with
    | .lt => a :: b :: bs
    | .eq => b :: bs
    | .gt => b :: insertList a bs

theorem mem_of_mem_insertList {a x : α} {l : List α} (h : x ∈ insertList a l) : x = a ∨ x ∈ l := by
  induction l with
  | nil => simpa [insertList] using h
  | cons b bs ih =>
    rw [insertList] at h
    split at h
    · simpa using h
    · exact .inr h
    · rcases List.mem_cons.mp h with rfl | h
      · simp
      · rcases ih h with rfl | h <;> simp [*]

variable [Std.TransOrd α]

theorem ascending_insertList {a : α} {l : List α} (h : l.Pairwise fun a b => compare a b = .lt) :
    (insertList a l).Pairwise fun a b => compare a b = .lt := by
  induction l with
  | nil => simp [insertList]
  | cons b bs ih =>
    have hb := List.pairwise_cons.mp h
    rw [insertList]
    split
    · next hab =>
      refine List.pairwise_cons.mpr ⟨fun x hx => ?_, h⟩
      rcases List.mem_cons.mp hx with rfl | hx
      · exact hab
      · exact Std.TransCmp.lt_trans hab (hb.1 x hx)
    · exact h
    · next hab =>
      refine List.pairwise_cons.mpr ⟨fun x hx => ?_, ih hb.2⟩
      rcases mem_of_mem_insertList hx with rfl | hx
      · exact Std.OrientedCmp.gt_iff_lt.mp hab
      · exact hb.1 x hx

/-- Add an element. -/
def insert (a : α) (s : OrderedSet α) : OrderedSet α :=
  ⟨insertList a s.toList, ascending_insertList s.ascending⟩

/-- Add the elements of a list, which may repeat them and list them in any order. -/
def insertAll (s : OrderedSet α) (l : List α) : OrderedSet α := l.foldl (fun s a => s.insert a) s

/-- The elements of a list. -/
def ofList (l : List α) : OrderedSet α := insertAll ∅ l

/-- The elements of both sets. -/
def union (s t : OrderedSet α) : OrderedSet α := s.insertAll t.toList

/-- The images of the elements. -/
def image (f : β → α) (s : OrderedSet β) : OrderedSet α := ofList (s.toList.map f)

/-- The elements of all sets of a list. -/
def unions (l : List (OrderedSet α)) : OrderedSet α := l.foldl union ∅

section Lemmas

variable [Std.LawfulEqOrd α]

/-- Sets with the same elements are equal: an ascending list is determined by its elements. -/
theorem ext {s t : OrderedSet α} (h : ∀ a, a ∈ s ↔ a ∈ t) : s = t := by
  obtain ⟨l, hl⟩ := s
  obtain ⟨m, hm⟩ := t
  congr 1
  simp only [mem_def] at h
  induction l generalizing m with
  | nil =>
    cases m with
    | nil => rfl
    | cons b bs => exact absurd ((h b).mpr (by simp)) (by simp)
  | cons a as ih =>
    cases m with
    | nil => exact absurd ((h a).mp (by simp)) (by simp)
    | cons b bs =>
      have ha := List.pairwise_cons.mp hl
      have hb := List.pairwise_cons.mp hm
      have irrefl : ∀ x : α, compare x x ≠ .lt := by simp
      have asymm : ∀ x y : α, compare x y = .lt → compare y x ≠ .lt := fun x y h h' =>
        irrefl x (Std.TransCmp.lt_trans h h')
      have hab : a = b := by
        rcases List.mem_cons.mp ((h a).mp (by simp)) with e | h1
        · exact e
        · rcases List.mem_cons.mp ((h b).mpr (by simp)) with e | h2
          · exact e.symm
          · exact absurd (ha.1 b h2) (asymm _ _ (hb.1 a h1))
      subst hab
      congr 1
      refine ih ha.2 bs hb.2 fun x => ?_
      have hx := h x
      simp only [List.mem_cons] at hx
      constructor
      · intro h1
        rcases hx.mp (.inr h1) with rfl | h2
        · exact absurd (ha.1 x h1) (irrefl x)
        · exact h2
      · intro h1
        rcases hx.mpr (.inr h1) with rfl | h2
        · exact absurd (hb.1 x h1) (irrefl x)
        · exact h2

@[simp] theorem mem_insert {a x : α} {s : OrderedSet α} : x ∈ s.insert a ↔ x = a ∨ x ∈ s := by
  refine ⟨mem_of_mem_insertList, ?_⟩
  simp only [mem_def, insert]
  generalize s.toList = l
  induction l with
  | nil => simp [insertList]
  | cons b bs ih =>
    rw [insertList]
    split
    · simp
    · next hab =>
      obtain rfl := Std.LawfulEqOrd.eq_of_compare hab
      rintro (rfl | h) <;> simp_all
    · intro h
      simp only [List.mem_cons] at h ⊢
      rcases h with h | h | h
      · exact .inr (ih (.inl h))
      · exact .inl h
      · exact .inr (ih (.inr h))

@[simp] theorem mem_insertAll {l : List α} {x : α} {s : OrderedSet α} :
    x ∈ s.insertAll l ↔ x ∈ s ∨ x ∈ l := by
  induction l generalizing s with
  | nil => simp [insertAll]
  | cons a l ih =>
    rw [insertAll, List.foldl_cons, ← insertAll, ih]
    simp only [mem_insert, List.mem_cons]
    constructor
    · rintro ((h | h) | h) <;> simp [h]
    · rintro (h | h | h) <;> simp [h]

@[simp] theorem mem_ofList {l : List α} {x : α} : x ∈ ofList l ↔ x ∈ l := by
  simp [ofList]

theorem ofList_toList (s : OrderedSet α) : ofList s.toList = s := ext fun _ => mem_ofList

@[simp] theorem mem_union {x : α} {s t : OrderedSet α} : x ∈ s.union t ↔ x ∈ s ∨ x ∈ t :=
  mem_insertAll

@[simp] theorem mem_image {f : β → α} {s : OrderedSet β} {x : α} :
    x ∈ s.image f ↔ ∃ y, y ∈ s ∧ f y = x := by
  rw [image, mem_ofList]
  exact List.mem_map

theorem mem_unions {l : List (OrderedSet α)} {x : α} : x ∈ unions l ↔ ∃ s, s ∈ l ∧ x ∈ s := by
  suffices ∀ t, x ∈ l.foldl union t ↔ x ∈ t ∨ ∃ s, s ∈ l ∧ x ∈ s by simpa [unions] using this ∅
  induction l with
  | nil => simp
  | cons s l ih => intro t; simp [ih, or_assoc]

omit [Std.TransOrd α] in
theorem nodup_toList (s : OrderedSet α) : s.toList.Nodup :=
  s.ascending.imp fun h e => by simp [e] at h

omit [Std.TransOrd α] in
theorem size_le_length {s : OrderedSet α} {l : List α} (h : ∀ a ∈ s, a ∈ l) : s.size ≤ l.length :=
  s.nodup_toList.length_le_of_subset h

/-- A set with further elements is larger. -/
theorem size_lt_size {s t : OrderedSet α} (h : ∀ a ∈ s, a ∈ t) (hne : s ≠ t) : s.size < t.size := by
  obtain ⟨a, hat, has⟩ : ∃ a ∈ t, a ∉ s := by
    refine Classical.byContradiction fun hn => hne (ext fun a => ⟨h a, fun ha => ?_⟩)
    exact Classical.byContradiction fun has => hn ⟨a, ha, has⟩
  have hnodup : (a :: s.toList).Nodup := List.nodup_cons.mpr ⟨has, s.nodup_toList⟩
  refine hnodup.length_le_of_subset fun b hb => ?_
  rcases List.mem_cons.mp hb with rfl | hb
  · exact hat
  · exact h b hb

end Lemmas

end OrderedSet

end FormalLang
