import Esd1.Lab4.Proofs.Frames

/-!
# The PWM output over a frame

`outwave` is registered: the edge `t` decides its value before edge `t + 1`, so
the values that belong to a frame `s, ..., e` are those at `s + 1, ..., e + 1`.
The comparator's operands change together at a frame boundary and never inside
a frame, which leaves one pulse a frame whose width is a function of the angle.
-/

namespace Esd1.Lab4

open Clocked

def highEdges (r : Nat → Registers) (s e : Nat) : Nat :=
  ((Finset.Icc s e).filter (fun t => (r (t + 1)).outwave = true)).card

def pulseWidth (angle : BitVec 32) : Nat :=
  pulseLength period.toNat angle.toNat

/-- The edges `s, ..., e` drive `outwave` high `n` times, starting with the
first of them, and then low to the end. -/
structure PulseBlock (r : Nat → Registers) (s e n : Nat) : Prop where
  pos : 0 < n
  high : ∀ t, s ≤ t → t ≤ e → t < s + n → (r (t + 1)).outwave = true
  low : ∀ t, s ≤ t → t ≤ e → s + n ≤ t → (r (t + 1)).outwave = false

def RisesAt (r : Nat → Registers) (t : Nat) : Prop :=
  (r t).outwave = false ∧ (r (t + 1)).outwave = true

/-- The timing that the constants suggest for the frame `s, ..., e` and the
frame `e + 1, ..., e'` after it: `period` cycles from pulse to pulse, and a pulse
of `angle_cnt` cycles. -/
def PwmTiming (r : Nat → Registers) (s e e' : Nat) : Prop :=
  (∀ t t', s ≤ t → t ≤ e → RisesAt r t → e < t' → t' ≤ e' → RisesAt r t' →
    t' = t + period.toNat) ∧
  highEdges r s e = (r s).angleCnt.toNat

theorem pulseWidth_strictMono {a b : BitVec 32} (hab : a < b) (ha : a < period) :
    pulseWidth a < pulseWidth b :=
  pulseLength_strictMono (BitVec.lt_def.mp hab) (BitVec.lt_def.mp ha)

theorem pulseWidth_of_lt {a : BitVec 32} (ha : a < period) :
    pulseWidth a = a.toNat + 1 := by
  have hlt : a.toNat < period.toNat := BitVec.lt_def.mp ha
  unfold pulseWidth pulseLength
  omega

section Run

variable (iterator : BitVec 32) (u : Nat → Ports) {s e : Nat}

theorem angleCnt_next_frame (hf : IsFrame (run iterator u) s e) :
    (run iterator u (e + 1)).angleCnt = (run iterator u s).angleCnt ∨
      (run iterator u (e + 1)).angleCnt = (run iterator u s).angleCnt + iterator ∨
      (run iterator u (e + 1)).angleCnt = (run iterator u s).angleCnt - iterator := by
  rw [← angleCnt_frame iterator u hf hf.le le_rfl]
  exact angleC_cases iterator _ _ _

theorem outwave_frame (hf : IsFrame (run iterator u) s e) {t : Nat} (hs : s ≤ t)
    (he : t ≤ e) : (run iterator u (t + 1)).outwave =
      decide (t - s ≤ (run iterator u s).angleCnt.toNat) := by
  have hcnt : (run iterator u t).periodCnt.toNat = t - s :=
    hf.counter_eq (wraps iterator u) hs he
  rw [run_succ, edge_outwave, pwm, angleCnt_frame iterator u hf hs he, decide_eq_decide,
    BitVec.le_def, hcnt]

theorem pulseBlock (hf : IsFrame (run iterator u) s e) :
    PulseBlock (run iterator u) s e (pulseWidth (run iterator u s).angleCnt) where
  pos := pulseLength_pos _ _
  high t hs he ht := by
    rw [outwave_frame iterator u hf hs he, decide_eq_true_eq]
    simp only [pulseWidth, pulseLength] at ht
    omega
  low t hs he ht := by
    have hlast := hf.last_eq (wraps iterator u)
    rw [outwave_frame iterator u hf hs he, decide_eq_false_iff_not]
    simp only [pulseWidth, pulseLength] at ht
    omega

theorem highEdges_eq (hf : IsFrame (run iterator u) s e) :
    highEdges (run iterator u) s e = pulseWidth (run iterator u s).angleCnt := by
  have hlast : e = s + period.toNat := hf.last_eq (wraps iterator u)
  have hfilter : (Finset.Icc s e).filter
        (fun t => (run iterator u (t + 1)).outwave = true) =
      (Finset.Icc s e).filter
        (fun t => t - s ≤ (run iterator u s).angleCnt.toNat) := by
    apply Finset.filter_congr
    intro t ht
    rw [Finset.mem_Icc] at ht
    rw [outwave_frame iterator u hf ht.1 ht.2, decide_eq_true_eq]
  calc
    highEdges (run iterator u) s e =
        ((Finset.Icc s e).filter
          (fun t => t - s ≤ (run iterator u s).angleCnt.toNat)).card := by
      rw [highEdges, hfilter]
    _ = pulseWidth (run iterator u s).angleCnt := by
      rw [hlast]
      exact card_pulse _ _ _

/-- The output is glitch-free: for all inputs the frames are the same, the angle
is constant over each and moves by at most one step between two of them, and a
frame carries one pulse from its first edge on, whose width depends on the angle
of the frame alone. -/
theorem pwm_glitch_free :
    (∀ t, (run iterator u t).periodCnt ≤ period) ∧
    (∀ (iterator' : BitVec 32) (v : Nat → Ports) (s e : Nat),
      IsFrame (run iterator u) s e ↔ IsFrame (run iterator' v) s e) ∧
    (∀ t, ∃ s e, IsFrame (run iterator u) s e ∧ s ≤ t ∧ t ≤ e) ∧
    (∀ s e, IsFrame (run iterator u) s e →
      (∀ t, s ≤ t → t ≤ e →
        (run iterator u t).angleCnt = (run iterator u s).angleCnt) ∧
      ((run iterator u (e + 1)).angleCnt = (run iterator u s).angleCnt ∨
        (run iterator u (e + 1)).angleCnt = (run iterator u s).angleCnt + iterator ∨
        (run iterator u (e + 1)).angleCnt = (run iterator u s).angleCnt - iterator) ∧
      PulseBlock (run iterator u) s e (pulseWidth (run iterator u s).angleCnt) ∧
      highEdges (run iterator u) s e = pulseWidth (run iterator u s).angleCnt) ∧
    (∀ a b : BitVec 32, a < b → a < period → pulseWidth a < pulseWidth b) := by
  refine ⟨periodCnt_le iterator u, ?_, ?_, ?_, ?_⟩
  · intro iterator' v s e
    rw [isFrame_iff, isFrame_iff]
  · intro t
    exact (wraps iterator u).exists_isFrame t
  · intro s e hf
    exact ⟨fun t hs he => angleCnt_frame iterator u hf hs he,
      angleCnt_next_frame iterator u hf, pulseBlock iterator u hf,
      highEdges_eq iterator u hf⟩
  · intro a b hab ha
    exact pulseWidth_strictMono hab ha

/-! ## The timing of two consecutive pulses -/

theorem risesAt_frame (hf : IsFrame (run iterator u) s e) {t : Nat} (hs : s ≤ t)
    (he : t ≤ e) (hrise : RisesAt (run iterator u) t) : t = s := by
  by_contra hne
  obtain ⟨j, rfl⟩ : ∃ j, t = j + 1 := ⟨t - 1, by omega⟩
  have hlow := hrise.1
  have hhigh := hrise.2
  rw [outwave_frame iterator u hf (by omega) (by omega), decide_eq_false_iff_not] at hlow
  rw [outwave_frame iterator u hf hs he, decide_eq_true_eq] at hhigh
  omega

theorem risesAt_first (hf : IsFrame (run iterator u) s e)
    (hlow : (run iterator u s).outwave = false) : RisesAt (run iterator u) s := by
  refine ⟨hlow, ?_⟩
  rw [outwave_frame iterator u hf le_rfl hf.le]
  simp

theorem outwave_after_frame (hf : IsFrame (run iterator u) s e)
    (ha : (run iterator u s).angleCnt < period) :
    (run iterator u (e + 1)).outwave = false := by
  have hlast := hf.last_eq (wraps iterator u)
  have hlt : (run iterator u s).angleCnt.toNat < period.toNat := BitVec.lt_def.mp ha
  rw [outwave_frame iterator u hf hf.le le_rfl, decide_eq_false_iff_not]
  omega

theorem not_pwmTiming (hf : IsFrame (run iterator u) s e) (e' : Nat)
    (ha : (run iterator u s).angleCnt < period) :
    ¬ PwmTiming (run iterator u) s e e' := by
  rintro ⟨-, hwidth⟩
  rw [highEdges_eq iterator u hf, pulseWidth_of_lt ha] at hwidth
  omega

/-- Both durations are one cycle longer than the constants say, in every frame
whose pulse ends before it does: the counter passes `period + 1` values and the
comparator accepts the angle itself. -/
theorem pwm_timing_off_by_one {e' : Nat} (hf : IsFrame (run iterator u) s e)
    (hf' : IsFrame (run iterator u) (e + 1) e')
    (ha : (run iterator u s).angleCnt < period) :
    ((run iterator u s).outwave = false → RisesAt (run iterator u) s) ∧
    RisesAt (run iterator u) (e + 1) ∧
    (∀ t t', s ≤ t → t ≤ e → RisesAt (run iterator u) t →
      e < t' → t' ≤ e' → RisesAt (run iterator u) t' →
      t' = t + period.toNat + 1) ∧
    highEdges (run iterator u) s e = (run iterator u s).angleCnt.toNat + 1 ∧
    ¬ PwmTiming (run iterator u) s e e' := by
  refine ⟨risesAt_first iterator u hf,
    risesAt_first iterator u hf' (outwave_after_frame iterator u hf ha), ?_, ?_,
    not_pwmTiming iterator u hf e' ha⟩
  · intro t t' hs he hrise hs' he' hrise'
    have ht := risesAt_frame iterator u hf hs he hrise
    have ht' := risesAt_frame iterator u hf' hs' he' hrise'
    have hlast : e = s + period.toNat := hf.last_eq (wraps iterator u)
    omega
  · rw [highEdges_eq iterator u hf, pulseWidth_of_lt ha]

end Run

/-! ### The shipped step size, with no write at all -/

theorem angleCnt_second_frame :
    0#32 < (run (resize iteratorDefault) (fun _ => idle) (1000000 + 1)).angleCnt ∧
      (run (resize iteratorDefault) (fun _ => idle) (1000000 + 1)).angleCnt < period := by
  have hf : IsFrame (run (resize iteratorDefault) (fun _ => idle)) 0 1000000 := isFrame _ _ 0
  rcases angleCnt_next_frame _ _ hf with h | h | h <;> rw [h] <;> decide

theorem pwm_timing_off_by_one_idle :
    highEdges (run (resize iteratorDefault) (fun _ => idle)) 0 1000000 = 50001 := by
  have hf : IsFrame (run (resize iteratorDefault) (fun _ => idle)) 0 1000000 := isFrame _ _ 0
  have hf' : IsFrame (run (resize iteratorDefault) (fun _ => idle)) (1000000 + 1) 2000001 :=
    isFrame _ _ 1
  exact (pwm_timing_off_by_one _ _ hf hf' (by decide)).2.2.2.1

theorem not_pwmTiming_idle :
    ¬ (∀ (iterator : BitVec 32) (u : Nat → Ports) (s e e' : Nat),
      IsFrame (run iterator u) s e → IsFrame (run iterator u) (e + 1) e' →
      0#32 < (run iterator u s).angleCnt → (run iterator u s).angleCnt < period →
      0#32 < (run iterator u (e + 1)).angleCnt →
      (run iterator u (e + 1)).angleCnt < period →
      PwmTiming (run iterator u) s e e') := by
  intro hclaim
  have hf : IsFrame (run (resize iteratorDefault) (fun _ => idle)) 0 1000000 := isFrame _ _ 0
  exact not_pwmTiming _ _ hf 2000001 (by decide)
    (hclaim (resize iteratorDefault) (fun _ => idle) 0 1000000 2000001 hf (isFrame _ _ 1)
      (by decide) (by decide) angleCnt_second_frame.1 angleCnt_second_frame.2)

end Esd1.Lab4
