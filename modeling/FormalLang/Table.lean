/-!
# Tables

A finite map that lists its keys in the order in which they were first entered. Entering a known key
again replaces its value and leaves the key where it is.

* `Table.get?_insert`: a look-up after an entry.
* `Table.keys_insert`, `Table.entries_insert`, `Table.values_insert`: where an entry, its key and its value stand.
* `Table.getD_gather`: what is gathered for a key.
* `Table.get?_ofList_map`: the table of a function on some keys.
* `Table.ext_getD`: tables with the same keys and values are equal.
* `Table.ofList_entries`: the entries of a table give the table.
* `Table.mapValues_insert`: an entry in a table with replaced values.
-/

namespace FormalLang

/-- A finite map with its keys in the order of first entry. -/
structure Table (κ ν : Type) where
  /-- Keys with their values. -/
  entries : List (κ × ν)
  /-- No key occurs twice. -/
  nodup : (entries.map Prod.fst).Nodup
  deriving DecidableEq

namespace Table

variable {κ ν μ : Type}

/-- The table without entries. -/
def empty : Table κ ν := ⟨[], .nil⟩

instance : EmptyCollection (Table κ ν) := ⟨empty⟩

instance : Inhabited (Table κ ν) := ⟨empty⟩

/-- The keys, in the order of first entry. -/
def keys (t : Table κ ν) : List κ := t.entries.map Prod.fst

/-- The values, in the order of their keys. -/
def values (t : Table κ ν) : List ν := t.entries.map Prod.snd

/-- The number of keys. -/
def size (t : Table κ ν) : Nat := t.entries.length

/-- Replace each value. -/
def mapValues (f : κ → ν → μ) (t : Table κ ν) : Table κ μ where
  entries := t.entries.map fun e => (e.1, f e.1 e.2)
  nodup := by
    have h : (fun e : κ × ν => e.1) = Prod.fst := rfl
    simpa [Function.comp_def, h] using t.nodup

@[simp] theorem keys_mapValues (f : κ → ν → μ) (t : Table κ ν) : (t.mapValues f).keys = t.keys := by
  rw [keys, keys, mapValues, List.map_map]
  rfl

variable [DecidableEq κ]

/-- The value of the first entry for `k`. -/
def lookupList (k : κ) : List (κ × ν) → Option ν
  | [] => none
  | e :: es => if e.1 = k then some e.2 else lookupList k es

/-- The value of a key. -/
def get? (t : Table κ ν) (k : κ) : Option ν := lookupList k t.entries

/-- The value of a key, or a default. -/
def getD (t : Table κ ν) (k : κ) (v : ν) : ν := (t.get? k).getD v

/-- Is the key in the table? -/
def contains (t : Table κ ν) (k : κ) : Bool := (t.get? k).isSome

/-- Replace the value of `k` where it stands, or append the entry. -/
def insertList (k : κ) (v : ν) : List (κ × ν) → List (κ × ν)
  | [] => [(k, v)]
  | e :: es => if e.1 = k then (k, v) :: es else e :: insertList k v es

theorem map_fst_insertList (k : κ) (v : ν) (es : List (κ × ν)) :
    (insertList k v es).map Prod.fst =
      if k ∈ es.map Prod.fst then es.map Prod.fst else es.map Prod.fst ++ [k] := by
  induction es with
  | nil => simp [insertList]
  | cons e es ih =>
    by_cases h : e.1 = k
    · simp [insertList, h]
    · have h' : ¬ k = e.1 := fun e => h e.symm
      simp only [insertList, h, if_false, List.map_cons, ih, List.mem_cons, h', false_or]
      split <;> rfl

theorem nodup_insertList {k : κ} {v : ν} {es : List (κ × ν)} (h : (es.map Prod.fst).Nodup) :
    ((insertList k v es).map Prod.fst).Nodup := by
  rw [map_fst_insertList]
  split
  · exact h
  · next hk => exact List.nodup_append.mpr ⟨h, by simp, fun a ha b hb => by
      rintro rfl; exact hk (List.mem_singleton.mp hb ▸ ha)⟩

/-- Enter `v` at `k`. -/
def insert (t : Table κ ν) (k : κ) (v : ν) : Table κ ν :=
  ⟨insertList k v t.entries, nodup_insertList t.nodup⟩

/-- Enter `v` at `k` unless `k` has a value. -/
def insertNew (t : Table κ ν) (k : κ) (v : ν) : Table κ ν := if t.contains k then t else t.insert k v

/-- Enter at `k` what `f` makes of its present value. -/
def alter (t : Table κ ν) (k : κ) (f : Option ν → ν) : Table κ ν := t.insert k (f (t.get? k))

/-- The entries of a list, entered one after the other. -/
def ofList (l : List (κ × ν)) : Table κ ν := l.foldl (fun t e => t.insert e.1 e.2) ∅

@[simp] theorem get?_empty (k : κ) : (∅ : Table κ ν).get? k = none := rfl

theorem get?_insert (t : Table κ ν) (k : κ) (v : ν) (x : κ) :
    (t.insert k v).get? x = if x = k then some v else t.get? x := by
  simp only [insert, get?]
  generalize t.entries = es
  induction es with
  | nil => simp only [insertList, lookupList, eq_comm]
  | cons e es ih =>
    by_cases h : e.1 = k
    · subst h
      by_cases hx : e.1 = x
      · simp [insertList, lookupList, hx]
      · simp [insertList, lookupList, hx, Ne.symm hx]
    · by_cases hx : e.1 = x
      · subst hx
        simp [insertList, lookupList, h]
      · simp [insertList, lookupList, h, hx, ih]

@[simp] theorem keys_insert (t : Table κ ν) (k : κ) (v : ν) :
    (t.insert k v).keys = if k ∈ t.keys then t.keys else t.keys ++ [k] :=
  map_fst_insertList k v t.entries

theorem mem_keys_alter {t : Table κ ν} {k x : κ} {f : Option ν → ν} : x ∈ (t.alter k f).keys ↔ x ∈ t.keys ∨ x = k := by
  rw [alter, keys_insert]
  split
  · next h => exact ⟨.inl, fun hx => hx.elim id fun hx => hx ▸ h⟩
  · rw [List.mem_append, List.mem_singleton]

/-- The entry for a new key comes last. -/
theorem entries_insert {t : Table κ ν} {k : κ} (h : k ∉ t.keys) (v : ν) : (t.insert k v).entries = t.entries ++ [(k, v)] := by
  suffices ∀ es : List (κ × ν), k ∉ es.map Prod.fst → insertList k v es = es ++ [(k, v)] from this t.entries h
  intro es hes
  induction es with
  | nil => rfl
  | cons e es ih =>
    rw [List.map_cons, List.mem_cons, not_or] at hes
    rw [insertList, if_neg (Ne.symm hes.1), ih hes.2, List.cons_append]

/-- The value of a new key comes last. -/
theorem values_insert {t : Table κ ν} {k : κ} (h : k ∉ t.keys) (v : ν) : (t.insert k v).values = t.values ++ [v] := by
  rw [values, entries_insert h, List.map_append]
  rfl

theorem get?_isSome_iff {t : Table κ ν} {k : κ} : (t.get? k).isSome = true ↔ k ∈ t.keys := by
  simp only [get?, keys]
  generalize t.entries = es
  induction es with
  | nil => simp [lookupList]
  | cons e es ih =>
    by_cases h : e.1 = k
    · simp [lookupList, h]
    · simp only [lookupList, h, if_false, ih, List.map_cons, List.mem_cons, Ne.symm h, false_or]

theorem get?_eq_none_iff {t : Table κ ν} {k : κ} : t.get? k = none ↔ k ∉ t.keys := by
  rw [← get?_isSome_iff, Bool.not_eq_true, Option.isSome_eq_false_iff, Option.isNone_iff_eq_none]

theorem mem_entries_iff {t : Table κ ν} {k : κ} {v : ν} : (k, v) ∈ t.entries ↔ t.get? k = some v := by
  obtain ⟨es, hes⟩ := t
  simp only [get?]
  induction es with
  | nil => simp [lookupList]
  | cons e es ih =>
    have hn := List.nodup_cons.mp hes
    have ih := ih hn.2
    by_cases h : e.1 = k
    · subst h
      have : (e.1, v) ∉ es := fun hm => hn.1 (List.mem_map.mpr ⟨_, hm, rfl⟩)
      simp only [List.mem_cons, this, or_false, lookupList, if_true, Option.some.injEq]
      exact ⟨fun h => by rw [← h], fun h => by rw [← h]⟩
    · have : ¬ (k, v) = e := fun he => h (by rw [← he])
      simp [this, ih, lookupList, h]

theorem values_eq_map_getD (t : Table κ ν) (v₀ : ν) : t.values = t.keys.map fun k => t.getD k v₀ := by
  rw [values, keys, List.map_map]
  refine List.map_congr_left fun e he => ?_
  have h : t.get? e.1 = some e.2 := mem_entries_iff.mp he
  simp [getD, h]

theorem entries_eq_map_getD (t : Table κ ν) (v₀ : ν) : t.entries = t.keys.map fun k => (k, t.getD k v₀) := by
  rw [keys, List.map_map]
  refine t.entries.map_id.symm.trans (List.map_congr_left fun e he => ?_)
  have h : t.get? e.1 = some e.2 := mem_entries_iff.mp he
  simp [getD, h]

/-- Tables with the same keys and the same values are equal. -/
theorem ext_getD {t t' : Table κ ν} (v₀ : ν) (hk : t.keys = t'.keys) (h : ∀ k, t.getD k v₀ = t'.getD k v₀) :
    t = t' := by
  have he : t.entries = t'.entries := by
    rw [t.entries_eq_map_getD v₀, t'.entries_eq_map_getD v₀, hk]
    exact List.map_congr_left fun k _ => by rw [h k]
  obtain ⟨es, hes⟩ := t
  obtain ⟨es', hes'⟩ := t'
  obtain rfl : es = es' := he
  rfl

theorem get?_mapValues (f : κ → ν → μ) (t : Table κ ν) (k : κ) : (t.mapValues f).get? k = (t.get? k).map (f k) := by
  simp only [get?, mapValues]
  generalize t.entries = es
  induction es with
  | nil => rfl
  | cons e es ih =>
    by_cases h : e.1 = k
    · simp [lookupList, h]
    · simp [lookupList, h, ih]

/-- Of several entries for a key that are made only if it is new, the first one counts. -/
theorem get?_foldl_insertNew {ε : Type} (f : ε → κ) (g : ε → ν) (l : List ε) (t : Table κ ν) (k : κ) :
    (l.foldl (fun t e => t.insertNew (f e) (g e)) t).get? k = (t.get? k).or ((l.find? (f · = k)).map g) := by
  induction l generalizing t with
  | nil => simp
  | cons e l ih =>
    rw [List.foldl_cons, ih, insertNew, contains]
    by_cases hk : f e = k
    · subst hk
      cases ht : t.get? (f e) <;> simp [ht, get?_insert]
    · split
      · simp [hk]
      · simp [get?_insert, hk, Ne.symm hk]

section Gather

variable {β : Type} (f : β → κ) (g : ν → β → ν) (v₀ : ν)

/-- The elements of a list, gathered by their keys. -/
def gather (t : Table κ ν) (l : List β) : Table κ ν := l.foldl (fun t b => t.alter (f b) fun v => g (v.getD v₀) b) t

theorem mem_keys_gather {t : Table κ ν} {l : List β} {k : κ} :
    k ∈ (t.gather f g v₀ l).keys ↔ k ∈ t.keys ∨ ∃ b ∈ l, f b = k := by
  induction l generalizing t with
  | nil => simp [gather]
  | cons b l ih =>
    rw [gather, List.foldl_cons, ← gather, ih, mem_keys_alter, or_assoc, eq_comm]
    simp

/-- A key has what its elements make of its value. -/
theorem getD_gather {t : Table κ ν} {l : List β} {k : κ} :
    (t.gather f g v₀ l).getD k v₀ = (l.filter (f · = k)).foldl g (t.getD k v₀) := by
  induction l generalizing t with
  | nil => rfl
  | cons b l ih =>
    rw [gather, List.foldl_cons, ← gather, ih, getD, alter, get?_insert, List.filter_cons]
    by_cases hk : f b = k
    · simp [hk, getD]
    · simp [hk, Ne.symm hk, getD]

end Gather

/-- A look-up in the table of a function on some keys. -/
theorem get?_ofList_map (l : List κ) (f : κ → ν) (k : κ) :
    (ofList (l.map fun a => (a, f a))).get? k = if k ∈ l then some (f k) else none := by
  suffices ∀ t : Table κ ν, ((l.map fun a => (a, f a)).foldl (fun t e => t.insert e.1 e.2) t).get? k =
      if k ∈ l then some (f k) else t.get? k from this ∅
  induction l with
  | nil => intro t; simp
  | cons a l ih =>
    intro t
    rw [List.map_cons, List.foldl_cons, ih, get?_insert]
    by_cases hl : k ∈ l
    · simp [hl]
    · by_cases ha : k = a
      · subst ha
        simp
      · simp [hl, ha]

/-- Keys that are listed once stand in the order of the list. -/
theorem keys_ofList_map {l : List κ} (hl : l.Nodup) (f : κ → ν) : (ofList (l.map fun a => (a, f a))).keys = l := by
  suffices ∀ t : Table κ ν, (∀ a ∈ l, a ∉ t.keys) →
      ((l.map fun a => (a, f a)).foldl (fun t e => t.insert e.1 e.2) t).keys = t.keys ++ l from
    this ∅ fun _ _ => List.not_mem_nil
  induction l with
  | nil => intro t _; simp
  | cons a l ih =>
    intro t ht
    obtain ⟨hal, hl⟩ := List.nodup_cons.mp hl
    have hkeys : (t.insert a (f a)).keys = t.keys ++ [a] := by rw [keys_insert, if_neg (ht a (.head _))]
    rw [List.map_cons, List.foldl_cons, ih hl, hkeys, List.append_assoc, List.singleton_append]
    intro b hb hbk
    rw [hkeys] at hbk
    rcases List.mem_append.mp hbk with hbk | hba
    · exact ht b (.tail _ hb) hbk
    · exact hal (List.mem_singleton.mp hba ▸ hb)

/-- Of two values entered at a key the later one counts. -/
theorem insert_insert (t : Table κ ν) (k : κ) (v w : ν) : (t.insert k v).insert k w = t.insert k w := by
  have hkey : k ∈ (t.insert k v).keys := by
    rw [← get?_isSome_iff, get?_insert, if_pos rfl]
    rfl
  refine ext_getD w ?_ fun x => ?_
  · rw [keys_insert, if_pos hkey, keys_insert, keys_insert]
  · rw [getD, getD, get?_insert, get?_insert, get?_insert]
    split <;> rfl

/-- A value that the key has already changes nothing. -/
theorem insert_eq_self {t : Table κ ν} {k : κ} {v : ν} (h : t.get? k = some v) : t.insert k v = t := by
  have hkey : k ∈ t.keys := get?_isSome_iff.mp (h ▸ rfl)
  refine ext_getD v ((keys_insert t k v).trans (if_pos hkey)) fun x => ?_
  rw [getD, getD, get?_insert]
  split
  · next hx => rw [hx, h]
  · rfl

theorem mapValues_insert (f : κ → ν → μ) (t : Table κ ν) (k : κ) (v : ν) :
    (t.insert k v).mapValues f = (t.mapValues f).insert k (f k v) := by
  refine ext_getD (f k v) ?_ fun x => ?_
  · simp only [keys_mapValues, keys_insert]
  · rw [getD, getD, get?_mapValues, get?_insert, get?_insert, get?_mapValues]
    split
    · next hx => rw [hx, Option.map_some]
    · rfl

/-- The entries of a table, entered one after the other, give the table. -/
theorem ofList_entries (t : Table κ ν) : ofList t.entries = t := by
  cases hentries : t.entries with
  | nil =>
    obtain ⟨es, hes⟩ := t
    obtain rfl : es = [] := hentries
    rfl
  | cons e es =>
    rw [← hentries, t.entries_eq_map_getD e.2]
    refine ext_getD e.2 (keys_ofList_map t.nodup _) fun k => ?_
    rw [getD, get?_ofList_map]
    split
    · rfl
    · next hk =>
      rw [getD, get?_eq_none_iff.mpr hk]

end Table

end FormalLang
