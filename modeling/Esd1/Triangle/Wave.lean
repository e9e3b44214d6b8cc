import Mathlib.Algebra.Order.Floor.Div
import Mathlib.Dynamics.PeriodicPts.Defs

/-!
# Triangle waves

A point moves along the natural numbers by `i` a tick.  It turns down on the tick
after it has reached `hi`, and up on the tick after it has reached `lo`, so it
overshoots both by less than a step.  Started on the way up, it climbs to a top,
and from there repeats one wave between that top and a bottom for ever.
-/

namespace Esd1.Triangle

@[ext] structure Point where
  rising : Bool
  pos : Nat
  deriving DecidableEq, Repr

def tick (lo hi i : Nat) (x : Point) : Point :=
  match x.rising with
  | true => if x.pos < hi then ⟨true, x.pos + i⟩ else ⟨false, x.pos - i⟩
  | false => if lo < x.pos then ⟨false, x.pos - i⟩ else ⟨true, x.pos + i⟩

section Tick

variable {lo hi i a : Nat}

theorem tick_climb (h : a < hi) : tick lo hi i ⟨true, a⟩ = ⟨true, a + i⟩ :=
  if_pos h

theorem tick_top (h : hi ≤ a) : tick lo hi i ⟨true, a⟩ = ⟨false, a - i⟩ :=
  if_neg (Nat.not_lt.mpr h)

theorem tick_fall (h : lo < a) : tick lo hi i ⟨false, a⟩ = ⟨false, a - i⟩ :=
  if_pos h

theorem tick_bottom (h : a ≤ lo) : tick lo hi i ⟨false, a⟩ = ⟨true, a + i⟩ :=
  if_neg (Nat.not_lt.mpr h)

theorem iterate_climb (n : Nat) (h : ∀ k < n, a + k * i < hi) :
    (tick lo hi i)^[n] ⟨true, a⟩ = ⟨true, a + n * i⟩ := by
  induction n with
  | zero => simp
  | succ n ih =>
      calc
        (tick lo hi i)^[n + 1] ⟨true, a⟩ = tick lo hi i ((tick lo hi i)^[n] ⟨true, a⟩) :=
          Function.iterate_succ_apply' _ n _
        _ = tick lo hi i ⟨true, a + n * i⟩ := by rw [ih (fun k hk => h k (by omega))]
        _ = ⟨true, a + n * i + i⟩ := tick_climb (h n (by omega))
        _ = ⟨true, a + (n + 1) * i⟩ := by rw [Nat.add_mul, Nat.one_mul, Nat.add_assoc]

theorem iterate_fall (n : Nat) (h : ∀ k < n, lo + k * i < a) :
    (tick lo hi i)^[n] ⟨false, a⟩ = ⟨false, a - n * i⟩ := by
  induction n with
  | zero => simp
  | succ n ih =>
      have hn := h n (by omega)
      calc
        (tick lo hi i)^[n + 1] ⟨false, a⟩ = tick lo hi i ((tick lo hi i)^[n] ⟨false, a⟩) :=
          Function.iterate_succ_apply' _ n _
        _ = tick lo hi i ⟨false, a - n * i⟩ := by rw [ih (fun k hk => h k (by omega))]
        _ = ⟨false, a - n * i - i⟩ := tick_fall (by omega)
        _ = ⟨false, a - (n + 1) * i⟩ := by rw [Nat.add_mul, Nat.one_mul, Nat.sub_sub]

end Tick

/-! ## The wave -/

theorem mul_eq_sub_mul_add {D k : Nat} (i : Nat) (hk : k ≤ D) :
    D * i = (D - k) * i + k * i := by
  rw [← Nat.add_mul, Nat.sub_add_cancel hk]

/-- `D` steps lead from the bottom `B` to the top `B + D * i` and back. -/
structure IsWave (lo hi i B D : Nat) : Prop where
  bottom_le : B ≤ lo
  lt_bottom : lo < B + i
  le_top : hi ≤ B + D * i
  top_lt : B + D * i < hi + i
  lo_lt_hi : lo < hi

namespace IsWave

variable {lo hi i B D : Nat} (h : IsWave lo hi i B D)

include h

theorem step_pos : 0 < i := by
  have h1 := h.bottom_le
  have h2 := h.lt_bottom
  omega

theorem length_pos : 0 < D := by
  have h1 := h.bottom_le
  have h2 := h.le_top
  have h3 := h.lo_lt_hi
  rcases Nat.eq_zero_or_pos D with rfl | hD
  · omega
  · exact hD

theorem below_top {k : Nat} (hk : k < D) : B + k * i < hi := by
  have h1 := h.top_lt
  have h2 : (k + 1) * i ≤ D * i := Nat.mul_le_mul_right i hk
  rw [Nat.add_mul, Nat.one_mul] at h2
  omega

theorem above_bottom {k : Nat} (hk : 0 < k) : lo < B + k * i := by
  have h1 := h.lt_bottom
  have h2 : 1 * i ≤ k * i := Nat.mul_le_mul_right i hk
  omega

theorem iterate_down {j : Nat} (hj : 0 < j) (hjD : j ≤ D) :
    (tick lo hi i)^[j] ⟨true, B + D * i⟩ = ⟨false, B + (D - j) * i⟩ := by
  obtain ⟨n, rfl⟩ : ∃ n, j = n + 1 := ⟨j - 1, by omega⟩
  have h1 := mul_eq_sub_mul_add i (show 1 ≤ D by omega)
  rw [Nat.one_mul] at h1
  rw [Function.iterate_succ_apply, tick_top h.le_top, iterate_fall]
  · have h2 := mul_eq_sub_mul_add i hjD
    rw [Nat.add_mul, Nat.one_mul] at h2
    rw [Point.mk.injEq]
    exact ⟨rfl, by omega⟩
  · intro k hk
    have h2 := mul_eq_sub_mul_add i (show k + 1 ≤ D by omega)
    have h3 := h.above_bottom (k := D - (k + 1)) (by omega)
    rw [Nat.add_mul, Nat.one_mul] at h2
    omega

theorem iterate_leg : (tick lo hi i)^[D] ⟨true, B + D * i⟩ = ⟨false, B⟩ := by
  rw [h.iterate_down h.length_pos le_rfl, Nat.sub_self, Nat.zero_mul, Nat.add_zero]

theorem iterate_up {j : Nat} (hj : 0 < j) (hjD : j ≤ D) :
    (tick lo hi i)^[j] ⟨false, B⟩ = ⟨true, B + j * i⟩ := by
  obtain ⟨n, rfl⟩ : ∃ n, j = n + 1 := ⟨j - 1, by omega⟩
  rw [Function.iterate_succ_apply, tick_bottom h.bottom_le, iterate_climb]
  · rw [Nat.add_mul, Nat.one_mul, Point.mk.injEq]
    exact ⟨rfl, by omega⟩
  · intro k hk
    have h1 := h.below_top (k := k + 1) (by omega)
    rw [Nat.add_mul, Nat.one_mul] at h1
    omega

theorem isPeriodicPt :
    Function.IsPeriodicPt (tick lo hi i) (2 * D) ⟨true, B + D * i⟩ := by
  have hD := h.length_pos
  calc
    (tick lo hi i)^[2 * D] ⟨true, B + D * i⟩ =
        (tick lo hi i)^[D] ((tick lo hi i)^[D] ⟨true, B + D * i⟩) := by
      rw [Nat.two_mul, Function.iterate_add_apply]
    _ = (tick lo hi i)^[D] ⟨false, B⟩ := by rw [h.iterate_leg]
    _ = ⟨true, B + D * i⟩ := h.iterate_up hD le_rfl

theorem iterate_add_wave (q n : Nat) :
    (tick lo hi i)^[q * (2 * D) + n] ⟨true, B + D * i⟩ =
      (tick lo hi i)^[n] ⟨true, B + D * i⟩ := by
  rw [Nat.add_comm, Function.iterate_add_apply]
  exact congrArg _ (h.isPeriodicPt.const_mul q)

theorem pos_down (q : Nat) {j : Nat} (hj : j ≤ D) :
    ((tick lo hi i)^[q * (2 * D) + j] ⟨true, B + D * i⟩).pos = B + (D - j) * i := by
  rw [h.iterate_add_wave]
  rcases Nat.eq_zero_or_pos j with rfl | hpos
  · rfl
  · rw [h.iterate_down hpos hj]

theorem pos_up (q : Nat) {j : Nat} (hj : j ≤ D) :
    ((tick lo hi i)^[q * (2 * D) + D + j] ⟨true, B + D * i⟩).pos = B + j * i := by
  rw [Nat.add_assoc, h.iterate_add_wave, Nat.add_comm, Function.iterate_add_apply,
    h.iterate_leg]
  rcases Nat.eq_zero_or_pos j with rfl | hpos
  · simp
  · rw [h.iterate_up hpos hj]

/-- Every tick is on a way down or inside a way up. -/
theorem exists_phase (n : Nat) : ∃ q j, j ≤ D ∧ (n = q * (2 * D) + j ∨
    (0 < j ∧ j < D ∧ n = q * (2 * D) + D + j)) := by
  have hD := h.length_pos
  have hdiv := Nat.div_add_mod' n (2 * D)
  have hmod := Nat.mod_lt n (show 0 < 2 * D by omega)
  by_cases hle : n % (2 * D) ≤ D
  · exact ⟨n / (2 * D), n % (2 * D), hle, Or.inl hdiv.symm⟩
  · exact ⟨n / (2 * D), n % (2 * D) - D, by omega, Or.inr ⟨by omega, by omega, by omega⟩⟩

/-- The top is met at the multiples of `2 * D` and nowhere else. -/
theorem pos_eq_top_iff (n : Nat) :
    ((tick lo hi i)^[n] ⟨true, B + D * i⟩).pos = B + D * i ↔ 2 * D ∣ n := by
  have hD := h.length_pos
  have hi := h.step_pos
  obtain ⟨q, j, hj, rfl | ⟨hpos, hlt, rfl⟩⟩ := h.exists_phase n
  · have hdvd : 2 * D ∣ q * (2 * D) + j ↔ 2 * D ∣ j :=
      Nat.dvd_add_right (Nat.dvd_mul_left (2 * D) q)
    rw [h.pos_down q hj, hdvd]
    constructor
    · intro heq
      have hmul : (D - j) * i = D * i := Nat.add_left_cancel heq
      have hback : D - j = D := Nat.eq_of_mul_eq_mul_right hi hmul
      have hzero : j = 0 := by omega
      exact hzero ▸ Nat.dvd_zero _
    · intro hdvd
      have hzero : j = 0 := Nat.eq_zero_of_dvd_of_lt hdvd (by omega)
      rw [hzero, Nat.sub_zero]
  · have hdvd : 2 * D ∣ q * (2 * D) + (D + j) ↔ 2 * D ∣ D + j :=
      Nat.dvd_add_right (Nat.dvd_mul_left (2 * D) q)
    rw [h.pos_up q hj, Nat.add_assoc, hdvd]
    constructor
    · intro heq
      have hmul : j * i = D * i := Nat.add_left_cancel heq
      exact absurd (Nat.eq_of_mul_eq_mul_right hi hmul) (Nat.ne_of_lt hlt)
    · intro hdvd
      exact absurd (Nat.le_of_dvd (by omega) hdvd) (by omega)

/-- All positions of the wave lie between its ends. -/
theorem pos_mem (n : Nat) :
    B ≤ ((tick lo hi i)^[n] ⟨true, B + D * i⟩).pos ∧
      ((tick lo hi i)^[n] ⟨true, B + D * i⟩).pos ≤ B + D * i := by
  obtain ⟨q, j, hj, rfl | ⟨-, -, rfl⟩⟩ := h.exists_phase n
  · rw [h.pos_down q hj]
    have hmul : (D - j) * i ≤ D * i := Nat.mul_le_mul_right i (Nat.sub_le D j)
    exact ⟨Nat.le_add_right _ _, Nat.add_le_add_left hmul B⟩
  · rw [h.pos_up q hj]
    have hmul : j * i ≤ D * i := Nat.mul_le_mul_right i hj
    exact ⟨Nat.le_add_right _ _, Nat.add_le_add_left hmul B⟩

end IsWave

/-! ## The ends of the wave -/

/-- The first of the positions `a, a + i, a + 2 * i, ...` at or above `hi`. -/
def top (a hi i : Nat) : Nat := a + ((hi - a) ⌈/⌉ i) * i

/-- The number of steps from the top `T` down to `lo` or below. -/
def depth (T lo i : Nat) : Nat := (T - lo) ⌈/⌉ i

theorem le_ceilDiv_mul (n : Nat) {i : Nat} (hi : 0 < i) : n ≤ (n ⌈/⌉ i) * i := by
  have h := le_smul_ceilDiv (b := n) hi
  rwa [smul_eq_mul, Nat.mul_comm] at h

theorem ceilDiv_mul_lt (n : Nat) {i : Nat} (hi : 0 < i) : (n ⌈/⌉ i) * i < n + i := by
  have h := Nat.div_mul_le_self (n + i - 1) i
  rw [← Nat.ceilDiv_eq_add_pred_div] at h
  omega

theorem isLeast_top {a hi i : Nat} (hpos : 0 < i) (hle : a ≤ hi) :
    IsLeast {x | ∃ m, x = a + m * i ∧ hi ≤ x} (top a hi i) := by
  have hge := le_ceilDiv_mul (hi - a) hpos
  refine ⟨⟨(hi - a) ⌈/⌉ i, rfl, by unfold top; omega⟩, ?_⟩
  rintro x ⟨m, rfl, hm⟩
  have hle' : (hi - a) ⌈/⌉ i ≤ m := by
    rw [ceilDiv_le_iff_le_smul hpos, smul_eq_mul, Nat.mul_comm]
    omega
  exact Nat.add_le_add_left (Nat.mul_le_mul_right i hle') a

section Ends

variable {a lo hi i : Nat} (hpos : 0 < i) (ha : a ≤ hi)

include hpos

theorem iterate_to_top {n : Nat} (hn : n ≤ (hi - a) ⌈/⌉ i) :
    (tick lo hi i)^[n] ⟨true, a⟩ = ⟨true, a + n * i⟩ := by
  apply iterate_climb
  intro k hk
  by_contra hge
  have hle : (hi - a) ⌈/⌉ i ≤ k := by
    rw [ceilDiv_le_iff_le_smul hpos, smul_eq_mul, Nat.mul_comm]
    omega
  omega

include ha

theorem bottom_add (hi' : i ≤ lo) (hlohi : lo < hi) :
    top a hi i - depth (top a hi i) lo i * i + depth (top a hi i) lo i * i = top a hi i := by
  have htop := le_ceilDiv_mul (hi - a) hpos
  have hT : top a hi i = a + ((hi - a) ⌈/⌉ i) * i := rfl
  have hdepth : depth (top a hi i) lo i * i < top a hi i - lo + i :=
    ceilDiv_mul_lt (top a hi i - lo) hpos
  omega

theorem isWave (hi' : i ≤ lo) (hlohi : lo < hi) :
    IsWave lo hi i (top a hi i - depth (top a hi i) lo i * i) (depth (top a hi i) lo i) := by
  have hT : top a hi i = a + ((hi - a) ⌈/⌉ i) * i := rfl
  have htop := le_ceilDiv_mul (hi - a) hpos
  have htop' := ceilDiv_mul_lt (hi - a) hpos
  have hdepth : top a hi i - lo ≤ depth (top a hi i) lo i * i :=
    le_ceilDiv_mul (top a hi i - lo) hpos
  have hdepth' : depth (top a hi i) lo i * i < top a hi i - lo + i :=
    ceilDiv_mul_lt (top a hi i - lo) hpos
  constructor <;> omega

end Ends

end Esd1.Triangle
