import Esd1.Clocked.Frames
import Esd1.Lab4.ServoController

/-!
# The frame counter and the angle

The frame counter reads no port and no other register, so the frames of a run
lie at fixed places.  The angle moves only on the edge that closes a frame.
-/

namespace Esd1.Lab4

open Clocked

def IsFrame (r : Nat → Registers) (s e : Nat) : Prop :=
  Clocked.IsFrame period.toNat (fun t => (r t).periodCnt.toNat) s e

def frameStart (k : Nat) : Nat := k * (period.toNat + 1)

theorem period_toNat : period.toNat = 1000000 := rfl

theorem eq_period_iff {c : BitVec 32} : c = period ↔ c.toNat = period.toNat :=
  BitVec.toNat_inj.symm

theorem zero_ne_period : 0#32 ≠ period := by decide

/-! ## The counter -/

theorem counter_period : counter period = 0#32 := by
  simp [counter]

theorem counter_toNat {c : BitVec 32} (hc : c ≤ period) :
    (counter c).toNat = if c.toNat = period.toNat then 0 else c.toNat + 1 := by
  have hle : c.toNat ≤ 1000000 := by simpa [BitVec.le_def, period_toNat] using hc
  unfold counter
  by_cases h : c = period
  · rw [if_pos h, if_pos (eq_period_iff.mp h)]
    rfl
  · rw [if_neg h, if_neg (fun hn => h (eq_period_iff.mpr hn)),
      BitVec.toNat_add_of_lt (by simp only [BitVec.toNat_ofNat]; omega)]
    rfl

theorem counter_le {c : BitVec 32} (hc : c ≤ period) : counter c ≤ period := by
  have hle : c.toNat ≤ period.toNat := BitVec.le_def.mp hc
  rw [BitVec.le_def, counter_toNat hc]
  split <;> omega

section Run

variable (iterator : BitVec 32) (u : Nat → Ports)

theorem periodCnt_le (t : Nat) : (run iterator u t).periodCnt ≤ period := by
  refine Machine.run_invariant (servoController iterator) (fun r => r.periodCnt ≤ period)
    (fun _ _ => True) ?_ ?_ u t (fun _ _ => trivial)
  · change 0#32 ≤ period
    decide
  · intro r p hr _
    exact counter_le hr

theorem wraps : Wraps period.toNat (fun t => (run iterator u t).periodCnt.toNat) where
  zero := rfl
  succ t := counter_toNat (periodCnt_le iterator u t)

theorem isFrame_iff {s e : Nat} : IsFrame (run iterator u) s e ↔
    ∃ k, s = frameStart k ∧ e = s + period.toNat :=
  (wraps iterator u).isFrame_iff

theorem isFrame (k : Nat) :
    IsFrame (run iterator u) (frameStart k) (frameStart k + period.toNat) :=
  (wraps iterator u).isFrame k

theorem periodCnt_at (k p : Nat) (hp : p ≤ period.toNat) :
    (run iterator u (frameStart k + p)).periodCnt.toNat = p :=
  (wraps iterator u).at_offset k p hp

theorem periodCnt_first (k : Nat) : (run iterator u (frameStart k)).periodCnt = 0#32 := by
  have h := periodCnt_at iterator u k 0 (Nat.zero_le _)
  rw [Nat.add_zero] at h
  exact BitVec.eq_of_toNat_eq h

theorem frameStart_succ (k : Nat) :
    frameStart (k + 1) = frameStart k + period.toNat + 1 := by
  unfold frameStart
  rw [Nat.add_mul]
  omega

/-! ## The angle -/

theorem angleC_of_ne (s : StateType) {c : BitVec 32} (hc : c ≠ period) (a : BitVec 32) :
    angleC iterator s c a = a := by
  cases s <;> simp [angleC, hc]

theorem angleC_cases (s : StateType) (c a : BitVec 32) :
    angleC iterator s c a = a ∨ angleC iterator s c a = a + iterator ∨
      angleC iterator s c a = a - iterator := by
  by_cases hc : c = period
  · cases s <;> simp [angleC, hc]
  · exact Or.inl (angleC_of_ne iterator s hc a)

theorem angleCnt_succ_of_ne {t : Nat}
    (ht : (run iterator u t).periodCnt.toNat ≠ period.toNat) :
    (run iterator u (t + 1)).angleCnt = (run iterator u t).angleCnt :=
  angleC_of_ne iterator _ (fun h => ht (eq_period_iff.mp h)) _

theorem angleCnt_frame {s e t : Nat} (hf : IsFrame (run iterator u) s e)
    (hs : s ≤ t) (he : t ≤ e) :
    (run iterator u t).angleCnt = (run iterator u s).angleCnt :=
  Clocked.IsFrame.held (fun t => (run iterator u t).angleCnt) hf
    (fun _ ht => angleCnt_succ_of_ne iterator u ht) hs he

end Run

end Esd1.Lab4
