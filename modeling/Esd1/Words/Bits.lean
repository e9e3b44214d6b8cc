import Mathlib.Logic.Basic

/-!
# The bits of a word

Masks of one bit, words that are extended and cut, and what an addition does to the bits
above the one it starts at.
-/

namespace Esd1.Words

variable {w : Nat}

/-! ## Masks -/

theorem getLsbD_twoPow_of_lt {k j : Nat} (hj : j < w) :
    (BitVec.twoPow w k).getLsbD j = decide (k = j) := by
  rw [BitVec.getLsbD_twoPow, Bool.eq_iff_iff, Bool.and_eq_true, decide_eq_true_iff,
    decide_eq_true_iff]
  exact and_iff_right_of_imp fun heq => heq ▸ hj

theorem twoPow_ne_zero {k : Nat} (hk : k < w) : BitVec.twoPow w k ≠ 0#w := by
  intro hzero
  have hbit := congrArg (BitVec.getLsbD · k) hzero
  simp only [getLsbD_twoPow_of_lt hk, BitVec.getLsbD_zero, decide_true, reduceCtorEq] at hbit

theorem twoPow_inj {j k : Nat} (hj : j < w) (h : BitVec.twoPow w j = BitVec.twoPow w k) :
    j = k := by
  have hbit := congrArg (BitVec.getLsbD · j) h
  simp only [getLsbD_twoPow_of_lt hj, decide_eq_decide, true_iff] at hbit
  exact hbit.symm

theorem and_twoPow_eq_zero_iff {x : BitVec w} {k : Nat} (hk : k < w) :
    x &&& BitVec.twoPow w k = 0#w ↔ x.getLsbD k = false := by
  rw [BitVec.and_twoPow]
  cases x.getLsbD k with
  | true => simpa using twoPow_ne_zero hk
  | false => simp

/-! ## Words in words of another length -/

theorem setWidth_twoPow {v k : Nat} (hw : k < w) (hv : k < v) :
    (BitVec.twoPow w k).setWidth v = BitVec.twoPow v k := by
  apply BitVec.eq_of_getLsbD_eq
  intro j hj
  rw [BitVec.getLsbD_setWidth, BitVec.getLsbD_twoPow, BitVec.getLsbD_twoPow, decide_eq_true hj,
    decide_eq_true hw, decide_eq_true hv, Bool.true_and]

theorem setWidth_signExtend {v : Nat} (x : BitVec w) (h : w ≤ v) :
    (x.signExtend v).setWidth w = x := by
  apply BitVec.eq_of_getLsbD_eq
  intro i hi
  have hv : i < v := Nat.lt_of_lt_of_le hi h
  rw [BitVec.getLsbD_setWidth, decide_eq_true hi, Bool.true_and, BitVec.getLsbD_signExtend,
    if_pos hi, decide_eq_true hv, Bool.true_and]

theorem zero_append_twoPow (hk : k < w) :
    0#w ++ BitVec.twoPow w k = BitVec.twoPow (w + w) k := by
  apply BitVec.eq_of_getLsbD_eq
  intro j hj
  rw [BitVec.getLsbD_append, getLsbD_twoPow_of_lt hj]
  split
  · next hlt => exact getLsbD_twoPow_of_lt hlt
  · next hge =>
      rw [BitVec.getLsbD_zero, decide_eq_false]
      omega

theorem getLsbD_append_self (x : BitVec w) {m : Nat} (hm : m < w + w) :
    (x ++ x).getLsbD m = x.getLsbD (m % w) := by
  rw [BitVec.getLsbD_append]
  split
  · next hlt => rw [Nat.mod_eq_of_lt hlt]
  · next hge => rw [Nat.mod_eq_sub_mod (by omega), Nat.mod_eq_of_lt (by omega)]

/-! ## Rotation and addition -/

theorem rotateLeft_twoPow {k : Nat} (hw : 1 < w) (hk : k < w) :
    (BitVec.twoPow w k).rotateLeft 1 = BitVec.twoPow w ((k + 1) % w) := by
  apply BitVec.eq_of_getLsbD_eq
  intro j hj
  have hmod : (k + 1) % w = if k + 1 = w then 0 else k + 1 := by
    split
    · next heq => rw [heq, Nat.mod_self]
    · next hne => exact Nat.mod_eq_of_lt (by omega)
  rw [BitVec.getLsbD_rotateLeft, getLsbD_twoPow_of_lt hj, Nat.mod_eq_of_lt hw, hmod,
    decide_eq_true hj, Bool.true_and]
  cases j with
  | zero =>
      rw [decide_eq_true Nat.one_pos, cond_true, getLsbD_twoPow_of_lt (by omega),
        decide_eq_decide]
      split <;> omega
  | succ j =>
      rw [decide_eq_false (by omega), cond_false, Nat.add_sub_cancel,
        getLsbD_twoPow_of_lt (by omega), decide_eq_decide]
      split <;> omega

/-- The carry of `~x + 2 ^ k` is under way from `k` to the first bit set in `x`. -/
theorem carry_not_twoPow (x : BitVec w) {k : Nat} (j : Nat) (hj : j ≤ w) :
    BitVec.carry j (~~~x) (BitVec.twoPow w k) false =
      decide (k < j ∧ ∀ m < j, k ≤ m → x.getLsbD m = false) := by
  induction j with
  | zero => rw [BitVec.carry_zero, decide_eq_false fun h => Nat.not_lt_zero k h.1]
  | succ j ih =>
      have hjw : j < w := hj
      rw [BitVec.carry_succ, ih (Nat.le_of_lt hjw), BitVec.getLsbD_not,
        getLsbD_twoPow_of_lt hjw, decide_eq_true hjw, Bool.true_and]
      have hnot (hkj : ¬k < j) :
          decide (k < j ∧ ∀ m < j, k ≤ m → x.getLsbD m = false) = false :=
        decide_eq_false fun h => hkj h.1
      rw [Bool.eq_iff_iff, decide_eq_true_iff]
      rcases Nat.lt_trichotomy k j with hlt | rfl | hgt
      · rw [decide_eq_false (Nat.ne_of_lt hlt), Bool.atLeastTwo_false_mid, Bool.and_eq_true,
          Bool.not_eq_true', decide_eq_true_iff]
        constructor
        · rintro ⟨hbit, -, hnone⟩
          refine ⟨Nat.lt_succ_of_lt hlt, fun m hm hkm => ?_⟩
          cases Nat.lt_succ_iff_lt_or_eq.mp hm with
          | inl hmj => exact hnone m hmj hkm
          | inr heq => rw [heq, hbit]
        · rintro ⟨-, hnone⟩
          exact ⟨hnone j (Nat.lt_succ_self j) (Nat.le_of_lt hlt), hlt,
            fun m hm => hnone m (Nat.lt_succ_of_lt hm)⟩
      · rw [decide_eq_true rfl, hnot (Nat.lt_irrefl k), Bool.atLeastTwo_false_right,
          Bool.and_true, Bool.not_eq_true']
        constructor
        · intro hbit
          refine ⟨Nat.lt_succ_self k, fun m hm hkm => ?_⟩
          rw [Nat.le_antisymm (Nat.le_of_lt_succ hm) hkm, hbit]
        · rintro ⟨-, hnone⟩
          exact hnone k (Nat.lt_succ_self k) (Nat.le_refl k)
      · rw [decide_eq_false (Nat.ne_of_gt hgt), hnot (Nat.lt_asymm hgt),
          Bool.atLeastTwo_false_right, Bool.and_false]
        apply iff_of_false Bool.false_ne_true
        exact fun h => Nat.not_lt.mpr (Nat.succ_le_of_lt hgt) h.1

/-- `x & (~x + 2 ^ k)` leaves of `x` the first bit from `k` on. -/
theorem getLsbD_and_not_add (x : BitVec w) {k j : Nat} (hj : j < w) :
    (x &&& (~~~x + BitVec.twoPow w k)).getLsbD j = true ↔
      x.getLsbD j = true ∧ k ≤ j ∧ ∀ m < j, k ≤ m → x.getLsbD m = false := by
  rw [BitVec.getLsbD_and, BitVec.getLsbD_add hj, carry_not_twoPow x j (Nat.le_of_lt hj),
    BitVec.getLsbD_not, getLsbD_twoPow_of_lt hj, decide_eq_true hj, Bool.true_and,
    Bool.and_eq_true]
  apply and_congr_right
  intro hbit
  rw [hbit, Bool.not_true, Bool.false_xor]
  rcases Nat.lt_trichotomy k j with hlt | rfl | hgt
  · rw [decide_eq_false (Nat.ne_of_lt hlt), Bool.false_xor, decide_eq_true_iff]
    exact and_congr_left' (iff_of_true hlt (Nat.le_of_lt hlt))
  · have hcarry : ¬(k < k ∧ ∀ m < k, k ≤ m → x.getLsbD m = false) :=
      fun h => Nat.lt_irrefl k h.1
    rw [decide_eq_false hcarry, decide_eq_true rfl]
    exact iff_of_true rfl ⟨Nat.le_refl k, fun m hm hkm => (Nat.not_lt.mpr hkm hm).elim⟩
  · have hcarry : ¬(k < j ∧ ∀ m < j, k ≤ m → x.getLsbD m = false) :=
      fun h => Nat.lt_asymm hgt h.1
    rw [decide_eq_false hcarry, decide_eq_false (Nat.ne_of_gt hgt)]
    exact iff_of_false Bool.false_ne_true fun h => Nat.not_lt.mpr h.1 hgt

end Esd1.Words
