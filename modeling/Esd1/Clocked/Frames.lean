import Mathlib.Data.Nat.Count
import Mathlib.Order.Interval.Finset.Nat

/-!
# Frames and levels

A counter that runs through `0, 1, ..., P` and wraps cuts time into frames of
`P + 1` edges.  This module fixes where the frames lie, carries values that only
move at a wrap through a frame, and measures the pulse that a comparator against
the counter produces.  The last section counts the rises and falls of a level.
-/

namespace Esd1.Clocked

/-- `c` counts `0, 1, ..., P` over and over. -/
structure Wraps (P : Nat) (c : Nat → Nat) : Prop where
  zero : c 0 = 0
  succ : ∀ t, c (t + 1) = if c t = P then 0 else c t + 1

/-- The edges `s, ..., e` form a frame: `s` meets the counter at `0`, and `e` is
the next edge that meets it at `P`. -/
structure IsFrame (P : Nat) (c : Nat → Nat) (s e : Nat) : Prop where
  le : s ≤ e
  first : c s = 0
  last : c e = P
  inside : ∀ t, s ≤ t → t < e → c t ≠ P

/-! ## Where the frames lie -/

theorem succ_mod (P t : Nat) :
    (t + 1) % (P + 1) = if t % (P + 1) = P then 0 else t % (P + 1) + 1 := by
  split
  · next hlast => exact Nat.succ_mod_succ_eq_zero_iff.mpr hlast
  · next hlast =>
      have hlt : t % (P + 1) < P + 1 := Nat.mod_lt t (Nat.succ_pos P)
      rw [← Nat.mod_add_mod, Nat.mod_eq_of_lt (show t % (P + 1) + 1 < P + 1 by omega)]

/-- The count of whole frames goes up by one at the last edge of a frame. -/
theorem succ_div (P t : Nat) :
    (t + 1) / (P + 1) = t / (P + 1) + if t % (P + 1) = P then 1 else 0 := by
  have hiff : P + 1 ∣ t + 1 ↔ t % (P + 1) = P := by
    rw [Nat.dvd_iff_mod_eq_zero]
    exact Nat.succ_mod_succ_eq_zero_iff
  rw [Nat.succ_div]
  simp only [hiff]

namespace Wraps

variable {P : Nat} {c : Nat → Nat}

theorem eq_mod (h : Wraps P c) (t : Nat) : c t = t % (P + 1) := by
  induction t with
  | zero => simpa using h.zero
  | succ t ih => rw [h.succ, ih, succ_mod]

theorem le (h : Wraps P c) (t : Nat) : c t ≤ P := by
  rw [h.eq_mod]
  exact Nat.le_of_lt_succ (Nat.mod_lt t (Nat.succ_pos P))

theorem at_offset (h : Wraps P c) (k p : Nat) (hp : p ≤ P) : c (k * (P + 1) + p) = p := by
  rw [h.eq_mod, Nat.mul_add_mod', Nat.mod_eq_of_lt (by omega)]

theorem isFrame (h : Wraps P c) (k : Nat) :
    IsFrame P c (k * (P + 1)) (k * (P + 1) + P) where
  le := by omega
  first := h.at_offset k 0 (by omega)
  last := h.at_offset k P le_rfl
  inside t hs he := by
    obtain ⟨p, rfl⟩ := Nat.exists_eq_add_of_le hs
    rw [h.at_offset k p (by omega)]
    omega

theorem isFrame_iff (h : Wraps P c) {s e : Nat} :
    IsFrame P c s e ↔ ∃ k, s = k * (P + 1) ∧ e = s + P := by
  constructor
  · intro hf
    have hs : s = s / (P + 1) * (P + 1) := by
      have hdvd : s % (P + 1) = 0 := by rw [← h.eq_mod, hf.first]
      exact (Nat.div_mul_cancel (Nat.dvd_of_mod_eq_zero hdvd)).symm
    refine ⟨s / (P + 1), hs, ?_⟩
    obtain ⟨j, rfl⟩ := Nat.exists_eq_add_of_le hf.le
    rcases Nat.lt_trichotomy j P with hj | hj | hj
    · have hc := hf.last
      rw [hs, h.at_offset _ j hj.le] at hc
      omega
    · rw [hj]
    · have hc := hf.inside (s + P) (by omega) (by omega)
      rw [hs, h.at_offset _ P le_rfl] at hc
      exact absurd rfl hc
  · rintro ⟨k, rfl, rfl⟩
    exact h.isFrame k

theorem exists_isFrame (h : Wraps P c) (t : Nat) :
    ∃ s e, IsFrame P c s e ∧ s ≤ t ∧ t ≤ e := by
  have hdiv := Nat.div_add_mod' t (P + 1)
  have hlt : t % (P + 1) < P + 1 := Nat.mod_lt t (Nat.succ_pos P)
  exact ⟨_, _, h.isFrame (t / (P + 1)), by omega, by omega⟩

end Wraps

namespace IsFrame

variable {P : Nat} {c : Nat → Nat} {s e : Nat}

theorem counter_eq (hf : IsFrame P c s e) (h : Wraps P c) {t : Nat} (hs : s ≤ t) (he : t ≤ e) :
    c t = t - s := by
  obtain ⟨k, hk, rfl⟩ := h.isFrame_iff.mp hf
  obtain ⟨p, rfl⟩ := Nat.exists_eq_add_of_le hs
  rw [hk, h.at_offset k p (by omega)]
  omega

theorem last_eq (hf : IsFrame P c s e) (h : Wraps P c) : e = s + P := by
  obtain ⟨k, -, he⟩ := h.isFrame_iff.mp hf
  exact he

/-- A value that moves only at a wrap is constant over a frame. -/
theorem held {α : Type*} (f : Nat → α) (hf : IsFrame P c s e)
    (hheld : ∀ t, c t ≠ P → f (t + 1) = f t) {t : Nat} (hs : s ≤ t) (he : t ≤ e) :
    f t = f s := by
  induction t, hs using Nat.le_induction with
  | base => rfl
  | succ t hst ih => rw [hheld t (hf.inside t hst (by omega)), ih (by omega)]

end IsFrame

/-! ## The pulse of a comparator -/

/-- The number of offsets `0, ..., P` that a comparator `offset ≤ a` accepts. -/
def pulseLength (P a : Nat) : Nat := min a P + 1

theorem pulseLength_pos (P a : Nat) : 0 < pulseLength P a := Nat.succ_pos _

theorem pulseLength_strictMono {P a b : Nat} (hab : a < b) (ha : a < P) :
    pulseLength P a < pulseLength P b := by
  unfold pulseLength
  omega

theorem card_pulse (P a s : Nat) :
    ((Finset.Icc s (s + P)).filter (fun t => t - s ≤ a)).card = pulseLength P a := by
  have hset : (Finset.Icc s (s + P)).filter (fun t => t - s ≤ a) =
      Finset.Icc s (s + min a P) := by
    ext t
    simp only [Finset.mem_filter, Finset.mem_Icc]
    omega
  rw [hset, Nat.card_Icc]
  unfold pulseLength
  omega

/-! ## Rises and falls of a level -/

def rises (l : Nat → Bool) (n : Nat) : Nat :=
  Nat.count (fun t => l t = false ∧ l (t + 1) = true) n

def falls (l : Nat → Bool) (n : Nat) : Nat :=
  Nat.count (fun t => l t = true ∧ l (t + 1) = false) n

theorem rises_succ (l : Nat → Bool) (n : Nat) : rises l (n + 1) =
    rises l n + if l n = false ∧ l (n + 1) = true then 1 else 0 :=
  Nat.count_succ _ n

theorem falls_succ (l : Nat → Bool) (n : Nat) : falls l (n + 1) =
    falls l n + if l n = true ∧ l (n + 1) = false then 1 else 0 :=
  Nat.count_succ _ n

/-- A level that starts low has risen once more than it has fallen exactly while
it is high. -/
theorem rises_eq_falls_add (l : Nat → Bool) (h0 : l 0 = false) (n : Nat) :
    rises l n = falls l n + (l n).toNat := by
  induction n with
  | zero => simp [rises, falls, h0]
  | succ n ih =>
      rw [rises_succ, falls_succ, ih]
      cases l n <;> cases l (n + 1) <;> simp

end Esd1.Clocked
