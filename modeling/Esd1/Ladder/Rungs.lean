import Mathlib.Data.Nat.ModEq

/-!
# Ladders

A counter below `size` that starts at `base` and moves up and down by `step` meets
one residue class only.  Its members are the rungs; a step off a rung leaves the range
of the counter exactly at the two ends.
-/

namespace Esd1

structure Ladder where
  size : Nat
  base : Nat
  step : Nat
  base_lt : base < size
  step_pos : 0 < step

namespace Ladder

variable (L : Ladder) {x : Nat}

def IsRung (x : Nat) : Prop := x < L.size ∧ x ≡ L.base [MOD L.step]

def bottom : Nat := L.base % L.step

def top : Nat := L.size - 1 - (L.size - 1 - L.base) % L.step

theorem isRung_base : L.IsRung L.base := ⟨L.base_lt, rfl⟩

theorem bottom_lt_step : L.bottom < L.step := Nat.mod_lt _ L.step_pos

theorem bottom_le_base : L.bottom ≤ L.base := Nat.mod_le _ _

theorem top_lt : L.top < L.size := by
  have hbase := L.base_lt
  unfold top
  omega

theorem size_le_top_add : L.size ≤ L.top + L.step := by
  have hmod := Nat.mod_lt (L.size - 1 - L.base) L.step_pos
  unfold top
  omega

theorem top_modEq : L.top ≡ L.base [MOD L.step] := by
  have hbase := L.base_lt
  have hdiv := Nat.mod_add_div (L.size - 1 - L.base) L.step
  have htop : L.top = L.base + L.step * ((L.size - 1 - L.base) / L.step) := by
    unfold top
    omega
  rw [htop]
  exact Nat.add_mul_mod_self_left _ _ _

theorem isRung_top : L.IsRung L.top := ⟨L.top_lt, L.top_modEq⟩

theorem isRung_bottom : L.IsRung L.bottom :=
  ⟨lt_of_le_of_lt L.bottom_le_base L.base_lt, Nat.mod_mod _ _⟩

namespace IsRung

variable {L}

theorem bottom_le (h : L.IsRung x) : L.bottom ≤ x := by
  rw [bottom, ← show x % L.step = L.base % L.step from h.2]
  exact Nat.mod_le _ _

theorem le_top (h : L.IsRung x) : x ≤ L.top := by
  by_contra hlt
  have hdvd : L.step ∣ x - L.top :=
    (Nat.modEq_iff_dvd' (by omega)).mp (L.top_modEq.trans h.2.symm)
  have hle := Nat.le_of_dvd (by omega) hdvd
  have hsize := L.size_le_top_add
  have hx := h.1
  omega

theorem exists_up (h : L.IsRung x) : ∃ k, x + k * L.step = L.top := by
  have hle := h.le_top
  obtain ⟨k, hk⟩ : L.step ∣ L.top - x :=
    (Nat.modEq_iff_dvd' hle).mp (h.2.trans L.top_modEq.symm)
  refine ⟨k, ?_⟩
  rw [Nat.mul_comm, ← hk]
  omega

theorem exists_down (h : L.IsRung x) : ∃ k, x = L.bottom + k * L.step := by
  refine ⟨x / L.step, ?_⟩
  rw [bottom, ← show x % L.step = L.base % L.step from h.2, Nat.mul_comm]
  exact (Nat.mod_add_div x L.step).symm

theorem add_step (h : L.IsRung x) (hne : x ≠ L.top) : L.IsRung (x + L.step) := by
  obtain ⟨k, hk⟩ := h.exists_up
  have hpos : 1 * L.step ≤ k * L.step := by
    apply Nat.mul_le_mul_right
    rw [Nat.one_le_iff_ne_zero]
    rintro rfl
    omega
  have htop := L.top_lt
  refine ⟨by omega, ?_⟩
  exact (Nat.add_mod_right x L.step).trans h.2

theorem step_le (h : L.IsRung x) (hne : x ≠ L.bottom) : L.step ≤ x := by
  by_contra hlt
  apply hne
  rw [bottom, ← show x % L.step = L.base % L.step from h.2]
  exact (Nat.mod_eq_of_lt (by omega)).symm

theorem sub_step (h : L.IsRung x) (hne : x ≠ L.bottom) : L.IsRung (x - L.step) := by
  have hle := h.step_le hne
  have hx := h.1
  refine ⟨by omega, ?_⟩
  have hmod : x - L.step ≡ x [MOD L.step] := by
    rw [Nat.ModEq, ← Nat.add_mod_right, Nat.sub_add_cancel hle]
  exact hmod.trans h.2

theorem add_mul_step {k : Nat} (h : L.IsRung x) (hlt : x + k * L.step < L.size) :
    L.IsRung (x + k * L.step) :=
  ⟨hlt, (Nat.add_mul_mod_self_right x k L.step).trans h.2⟩

end IsRung

end Ladder

end Esd1
