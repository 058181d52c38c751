/-!
# Rounds to a fixed point

A round transforms a state. Rounds are repeated until one of them changes nothing. A round knows its number,
counted from one, so that it can date what it adds.

* `settle_induction`: what each round keeps holds at the end.
* `Settles`: the end of rounds without a limit on their number.
* `settles_settle`, `settle_fixed`: if each round that changes something adds to a measure with a bound, then rounds enough
  for that come to this end, in a state that the last one leaves as it is.
* `Settles.induction`: what each round keeps, with its number, holds before the last round.
* `Settles.rounds_le`: how many rounds there are, if each one but the last adds to a measure.
* `settleM_eq_ok`: rounds that might fail but do not.
* `exists_foldl_step`: a round that takes elements one after the other comes to each of them.
-/

namespace FormalLang

/-- The end of a sequence of rounds. -/
structure Settled (σ : Type) where
  /-- The number of rounds made, the last one included. -/
  rounds : Nat
  /-- The state that the last round left as it was. -/
  state : σ
  deriving DecidableEq

/-- Make rounds after the first `made` of them, at most `limit` more, until one changes nothing. -/
def settleFrom {σ : Type} [DecidableEq σ] (round : Nat → σ → σ) (made : Nat) : Nat → σ → Settled σ
  | 0, s => ⟨made, s⟩
  | limit + 1, s =>
    let t := round (made + 1) s
    if t = s then ⟨made + 1, s⟩ else settleFrom round (made + 1) limit t

/-- Make rounds that may fail after the first `made` of them, at most `limit` more, until one changes nothing. -/
def settleFromM {σ ε : Type} [DecidableEq σ] (round : Nat → σ → Except ε σ) (made : Nat) : Nat → σ → Except ε (Settled σ)
  | 0, s => .ok ⟨made, s⟩
  | limit + 1, s =>
    round (made + 1) s >>= fun t => if t = s then .ok ⟨made + 1, s⟩ else settleFromM round (made + 1) limit t

/-- Make rounds that may fail until one changes nothing, at most `limit` of them. -/
def settleM {σ ε : Type} [DecidableEq σ] (round : Nat → σ → Except ε σ) (limit : Nat) (s : σ) : Except ε (Settled σ) :=
  settleFromM round 0 limit s

/-- Make rounds until one changes nothing, at most `limit` of them. -/
def settle {σ : Type} [DecidableEq σ] (round : Nat → σ → σ) (limit : Nat) (s : σ) : Settled σ :=
  settleFrom round 0 limit s

section Lemmas

variable {σ : Type} {round : Nat → σ → σ} {P : σ → Prop}

/-! ## Rounds without a limit -/

/-- Rounds after the first `made` of them, without a limit on their number, come to this end: the first round that changes
nothing is the last one. -/
inductive Settles (round : Nat → σ → σ) : Nat → σ → Settled σ → Prop where
  | stop {made : Nat} {s : σ} : round (made + 1) s = s → Settles round made s ⟨made + 1, s⟩
  | next {made : Nat} {s : σ} {t : Settled σ} :
      round (made + 1) s ≠ s → Settles round (made + 1) (round (made + 1) s) t → Settles round made s t

/-- The last round changes nothing. -/
theorem Settles.fixed {made : Nat} {s : σ} {t : Settled σ} (h : Settles round made s t) :
    round t.rounds t.state = t.state := by
  induction h with
  | stop h => exact h
  | next _ _ ih => exact ih

/-- What holds after `made` rounds, and is kept by each round, holds after all rounds but the last one. -/
theorem Settles.induction {Q : Nat → σ → Prop} (hQ : ∀ k s, Q k s → Q (k + 1) (round (k + 1) s)) {made : Nat} {s : σ}
    {t : Settled σ} (h : Settles round made s t) (hs : Q made s) : ∃ k, t.rounds = k + 1 ∧ Q k t.state := by
  induction h with
  | stop => exact ⟨_, rfl, hs⟩
  | next _ _ ih => exact ih (hQ _ _ hs)

/-- If every round that changes something adds to a measure, there is a round for each addition, at most, and the last
one. -/
theorem Settles.rounds_le {size : σ → Nat} (hr : ∀ k s, round k s ≠ s → size s < size (round k s)) {made : Nat} {s : σ}
    {t : Settled σ} (h : Settles round made s t) : t.rounds + size s ≤ made + 1 + size t.state := by
  induction h with
  | stop => exact Nat.le_refl _
  | next hne _ ih =>
    have := hr _ _ hne
    omega

/-! ## Rounds with a limit -/

variable [DecidableEq σ]

private theorem settleFrom_induction (hP : ∀ k s, P s → P (round k s)) (limit made : Nat) {s : σ} (hs : P s) :
    P (settleFrom round made limit s).state := by
  induction limit generalizing made s with
  | zero => exact hs
  | succ n ih =>
    rw [settleFrom]
    split
    · exact hs
    · exact ih _ (hP _ _ hs)

/-- What holds at the start and is kept by each round holds at the end. -/
theorem settle_induction (hP : ∀ k s, P s → P (round k s)) (limit : Nat) {s : σ} (hs : P s) :
    P (settle round limit s).state := settleFrom_induction hP limit 0 hs

private theorem settles_settleFrom {m : Nat} {size : σ → Nat} (hP : ∀ k s, P s → P (round k s))
    (hm : ∀ s, P s → size s ≤ m) (hr : ∀ k s, P s → round k s ≠ s → size s < size (round k s))
    (limit made : Nat) {s : σ} (hs : P s) (hl : m < limit + size s) :
    Settles round made s (settleFrom round made limit s) := by
  induction limit generalizing made s with
  | zero =>
    have := hm s hs
    omega
  | succ n ih =>
    rw [settleFrom]
    split
    · next h => exact .stop h
    · next h =>
      have hlt := hr (made + 1) s hs h
      exact .next h (ih (made + 1) (hP (made + 1) s hs) (by omega))

/-- If every round that changes something adds to a measure of at most `m`, more rounds than are missing from `m` come to
the end that rounds without a limit come to. -/
theorem settles_settle {m : Nat} {size : σ → Nat} (hP : ∀ k s, P s → P (round k s))
    (hm : ∀ s, P s → size s ≤ m) (hr : ∀ k s, P s → round k s ≠ s → size s < size (round k s))
    {limit : Nat} {s : σ} (hs : P s) (hl : m < limit + size s) : Settles round 0 s (settle round limit s) :=
  settles_settleFrom hP hm hr limit 0 hs hl

/-- The last of rounds enough leaves the state as it is. -/
theorem settle_fixed {m : Nat} {size : σ → Nat} (hP : ∀ k s, P s → P (round k s))
    (hm : ∀ s, P s → size s ≤ m) (hr : ∀ k s, P s → round k s ≠ s → size s < size (round k s))
    {limit : Nat} {s : σ} (hs : P s) (hl : m < limit + size s) :
    round (settle round limit s).rounds (settle round limit s).state = (settle round limit s).state :=
  (settles_settle hP hm hr hs hl).fixed

/-- Rounds of which none fails come to the end that they come to without failure. -/
theorem settleM_eq_ok {ε : Type} {roundM : Nat → σ → Except ε σ} (h : ∀ k s, roundM k s = .ok (round k s)) (limit : Nat)
    (s : σ) : settleM roundM limit s = .ok (settle round limit s) := by
  suffices ∀ made s, settleFromM roundM made limit s = .ok (settleFrom round made limit s) from this 0 s
  induction limit with
  | zero => exact fun _ _ => rfl
  | succ n ih =>
    intro made s
    rw [settleFromM, h, settleFrom]
    show (if round (made + 1) s = s then _ else _) = _
    split
    · rfl
    · exact ih _ _

end Lemmas

/-- A pass over a list that only adds to a state comes to each element of the list, with a state above the first one,
and ends above what the element makes of that state. -/
theorem exists_foldl_step {σ ε : Type} {f : σ → ε → σ} {r : σ → σ → Prop} (hrefl : ∀ s, r s s)
    (htrans : ∀ {s t u}, r s t → r t u → r s u) (hstep : ∀ s e, r s (f s e)) (s : σ) {l : List ε} {e : ε}
    (he : e ∈ l) : ∃ t, r s t ∧ r (f t e) (l.foldl f s) := by
  have hgrow (l : List ε) (s : σ) : r s (l.foldl f s) :=
    List.foldlRecOn (motive := r s) l f (hrefl s) fun t ht e _ => htrans ht (hstep t e)
  obtain ⟨before, after, rfl⟩ := List.append_of_mem he
  refine ⟨before.foldl f s, hgrow before s, ?_⟩
  rw [List.foldl_append, List.foldl_cons]
  exact hgrow after _

end FormalLang
