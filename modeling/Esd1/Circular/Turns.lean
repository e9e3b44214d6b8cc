import Mathlib.Algebra.Group.Nat.Defs
import Mathlib.Data.Nat.Count
import Esd1.Words.Bits

/-!
# Taking turns

`n` parties stand in a circle.  The turn goes to the first one, from some place on, that
wants it, and the next search begins behind that one.  Whoever waits is passed over at most
once by each of the others.

The search can be done by an adder: in `~x + 2 ^ k` the carry runs from place `k` to the
first bit set in `x`.
-/

namespace Esd1.Circular

/-! ## Places in a circle -/

def ahead (n k i : Nat) : Nat := (i + n - k) % n

section Ahead

variable {n k i : Nat}

theorem ahead_lt (hn : 0 < n) (k i : Nat) : ahead n k i < n := Nat.mod_lt _ hn

theorem add_ahead (hk : k < n) (hi : i < n) : (k + ahead n k i) % n = i := by
  have hle : k ≤ i + n := by omega
  rw [ahead, Nat.add_mod_mod, Nat.add_sub_cancel' hle, Nat.add_mod_right, Nat.mod_eq_of_lt hi]

theorem ahead_add (hk : k < n) {d : Nat} (hd : d < n) : ahead n k ((k + d) % n) = d := by
  unfold ahead
  by_cases hwrap : k + d < n
  · rw [Nat.mod_eq_of_lt hwrap, show k + d + n - k = d + n by omega, Nat.add_mod_right,
      Nat.mod_eq_of_lt hd]
  · have hmod : (k + d) % n = k + d - n := by
      rw [Nat.mod_eq_sub_mod (by omega), Nat.mod_eq_of_lt (by omega)]
    rw [hmod, show k + d - n + n - k = d by omega, Nat.mod_eq_of_lt hd]

/-- From a place that is `d` further on, what is ahead of it is nearer by `d`. -/
theorem ahead_of_add (hk : k < n) (hi : i < n) {d : Nat} (hd : d ≤ ahead n k i) :
    ahead n ((k + d) % n) i = ahead n k i - d := by
  have hn : 0 < n := by omega
  have hlt := ahead_lt hn k i
  have hplace : ((k + d) % n + (ahead n k i - d)) % n = i := by
    rw [Nat.mod_add_mod, show k + d + (ahead n k i - d) = k + ahead n k i by omega,
      add_ahead hk hi]
  rw [← hplace, ahead_add (Nat.mod_lt _ hn) (by omega), hplace]

end Ahead

/-- Of those who want a turn, `i` is the first from `k` on. -/
structure IsNext (n : Nat) (wants : Nat → Prop) (k i : Nat) : Prop where
  lt : i < n
  want : wants i
  first : ∀ j < n, wants j → ahead n k i ≤ ahead n k j

namespace IsNext

variable {n k i j : Nat} {wants : Nat → Prop}

theorem eq_of_wants (h : IsNext n wants k i) (hk : k < n) (hwants : wants k) : i = k := by
  have hself : ahead n k k = 0 := by
    rw [ahead, Nat.add_sub_cancel_left, Nat.mod_self]
  have hle := h.first k hk hwants
  rw [hself, Nat.le_zero] at hle
  rw [← add_ahead hk h.lt, hle, Nat.add_zero, Nat.mod_eq_of_lt hk]

/-- Whoever is passed over is nearer to the next search, ... -/
theorem nearer (h : IsNext n wants k i) (hk : k < n) (hj : j < n) (hwants : wants j)
    (hne : j ≠ i) : ahead n ((i + 1) % n) j < ahead n k j := by
  have hle := h.first j hj hwants
  have hplace := add_ahead hk h.lt
  have hlt : ahead n k i < ahead n k j := by
    apply Nat.lt_of_le_of_ne hle
    intro heq
    apply hne
    rw [← add_ahead hk hj, ← heq, hplace]
  have hnext : (i + 1) % n = (k + (ahead n k i + 1)) % n := by
    rw [← Nat.add_assoc, ← Nat.mod_add_mod (k + ahead n k i), hplace]
  rw [hnext, ahead_of_add hk hj hlt]
  omega

/-- ... and is not further from one that begins at the same party. -/
theorem not_further (h : IsNext n wants k i) (hk : k < n) (hj : j < n) (hwants : wants j) :
    ahead n i j ≤ ahead n k j := by
  have hle := h.first j hj hwants
  have hnear := ahead_of_add hk hj hle
  rw [add_ahead hk h.lt] at hnear
  rw [hnear]
  exact Nat.sub_le _ _

/-- If anyone wants a turn there is a next one. -/
theorem exists_of_wants [DecidablePred wants] (hk : k < n) (hj : j < n) (hwants : wants j) :
    ∃ i, IsNext n wants k i := by
  have hsome : ∃ d, wants ((k + d) % n) := ⟨ahead n k j, by rwa [add_ahead hk hj]⟩
  have hmin (j' : Nat) (hj' : j' < n) (h : wants j') : Nat.find hsome ≤ ahead n k j' :=
    Nat.find_min' hsome (by rwa [add_ahead hk hj'])
  have hlt : Nat.find hsome < n := (hmin j hj hwants).trans_lt (ahead_lt (by omega) k j)
  refine ⟨(k + Nat.find hsome) % n, Nat.mod_lt _ (by omega), Nat.find_spec hsome, ?_⟩
  intro j' hj' h
  rw [ahead_add hk hlt]
  exact hmin j' hj' h

end IsNext

/-! ## Waiting -/

/-- One who wants a turn all the time, and does not get it, has less and less before it: at
every turn `place` comes nearer, and in between it does not go back. -/
theorem waits {n i : Nat} {place : Nat → Nat} {turn : Nat → Prop} [DecidablePred turn] (e : Nat)
    (hturn : ∀ t < e, turn t → ahead n (place (t + 1)) i < ahead n (place t) i)
    (hother : ∀ t < e, ¬turn t → ahead n (place (t + 1)) i ≤ ahead n (place t) i) :
    Nat.count turn e + ahead n (place e) i ≤ ahead n (place 0) i := by
  induction e with
  | zero =>
      rw [Nat.count_zero, Nat.zero_add]
  | succ e ih =>
      have hlast := ih (fun t ht => hturn t (Nat.lt_succ_of_lt ht))
        fun t ht => hother t (Nat.lt_succ_of_lt ht)
      rw [Nat.count_succ]
      split
      · next ht =>
          have := hturn e (Nat.lt_succ_self e) ht
          omega
      · next ht =>
          have := hother e (Nat.lt_succ_self e) ht
          omega

/-! ## The search -/

section Search

open Words

variable {w : Nat} {x : BitVec w} {k i : Nat}

/-- In the vector written twice the search finds the next one, ... -/
theorem getLsbD_search (h : IsNext w (fun j => x.getLsbD j = true) k i) (hk : k < w) {m : Nat}
    (hm : m < w + w) :
    ((x ++ x) &&& (~~~(x ++ x) + BitVec.twoPow (w + w) k)).getLsbD m = true ↔
      m = k + ahead w k i := by
  have hplace := add_ahead hk h.lt
  have hlt := ahead_lt (by omega) k i (n := w)
  have hnone (e : Nat) (he : e < ahead w k i) : x.getLsbD ((k + e) % w) = false := by
    rw [← Bool.not_eq_true]
    intro hbit
    have hle := h.first _ (Nat.mod_lt _ (by omega)) hbit
    rw [ahead_add hk (by omega)] at hle
    omega
  rw [getLsbD_and_not_add _ hm, getLsbD_append_self x hm]
  constructor
  · rintro ⟨hbit, hkm, hbefore⟩
    rcases Nat.lt_trichotomy m (k + ahead w k i) with hlow | heq | hhigh
    · rw [show m = k + (m - k) by omega, hnone (m - k) (by omega)] at hbit
      exact absurd hbit Bool.false_ne_true
    · exact heq
    · have hfound := hbefore (k + ahead w k i) hhigh (Nat.le_add_right k _)
      rw [getLsbD_append_self x (by omega), hplace] at hfound
      exact absurd (hfound.symm.trans h.want) Bool.false_ne_true
  · rintro rfl
    rw [hplace]
    refine ⟨h.want, Nat.le_add_right k _, fun m' hm' hkm' => ?_⟩
    rw [getLsbD_append_self x (by omega), show m' = k + (m' - k) by omega]
    exact hnone (m' - k) (by omega)

/-- ... and the two halves put together are its bit. -/
theorem search_eq_twoPow (h : IsNext w (fun j => x.getLsbD j = true) k i) (hk : k < w)
    {found : BitVec (w + w)}
    (hfound : found = (x ++ x) &&& (~~~(x ++ x) + BitVec.twoPow (w + w) k)) :
    found.extractLsb' 0 w ||| found.extractLsb' w w = BitVec.twoPow w i := by
  have hplace := add_ahead hk h.lt
  have hlt := ahead_lt (by omega) k i (n := w)
  apply BitVec.eq_of_getLsbD_eq
  intro j hj
  rw [BitVec.getLsbD_or, BitVec.getLsbD_extractLsb', BitVec.getLsbD_extractLsb',
    getLsbD_twoPow_of_lt hj, decide_eq_true hj, Bool.true_and, Bool.true_and, Nat.zero_add,
    Bool.eq_iff_iff, Bool.or_eq_true, decide_eq_true_iff, hfound,
    getLsbD_search h hk (by omega), getLsbD_search h hk (by omega)]
  by_cases hwrap : k + ahead w k i < w
  · rw [Nat.mod_eq_of_lt hwrap] at hplace
    omega
  · rw [Nat.mod_eq_sub_mod (by omega), Nat.mod_eq_of_lt (by omega)] at hplace
    omega

end Search

end Esd1.Circular
