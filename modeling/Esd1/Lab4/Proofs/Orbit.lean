import Esd1.Lab4.Proofs.Interrupt
import Esd1.Triangle.Wave

/-!
# The closed loop of `Lab4.vhd`

The top level writes one constant to `min_angle` on every edge, so every
interrupt is acknowledged on the edge after it was raised.  Seen once a frame,
the controller is a point that bounces between its limits: `frame_tick` shows
that a frame of the hardware is one tick of the triangle wave, and the orbit of
the angle follows from that of the wave.
-/

namespace Esd1.Lab4

open Clocked Triangle

/-! ## Turning round -/

/-- The first two edges of a frame that finds the sweep at its limit: the
interrupt, and the acknowledgement that starts the opposite sweep. -/
theorem sweep_turn (iterator : BitVec 32) {r : Registers} {d : Dir} {u : Nat → Ports}
    (hs : r.currentState = d.sweep) (hlim : d.Reached (d.limit r) r.angleCnt)
    (hc : r.periodCnt = 0#32) (hw : (u 1).we = true) :
    ((servoController iterator).runFrom r u 2).currentState = d.flip.sweep ∧
    ((servoController iterator).runFrom r u 2).angleCnt = r.angleCnt ∧
    ((servoController iterator).runFrom r u 2).periodCnt = 2#32 := by
  have hs1 : (edge iterator r (u 0)).currentState = d.int := by
    rw [sweep_currentState (u 0) hs, if_pos hlim]
  have ha1 : (edge iterator r (u 0)).angleCnt = r.angleCnt := by
    rw [sweep_angleCnt (u 0) hs, hc, if_neg zero_ne_period]
  have hc1 : (edge iterator r (u 0)).periodCnt = 1#32 := by
    rw [edge_periodCnt, hc]
    rfl
  rw [runFrom_succ, runFrom_succ, Machine.runFrom_zero]
  refine ⟨?_, ?_, ?_⟩
  · rw [int_currentState (u 1) hs1, hw, if_pos rfl]
  · rw [int_angleCnt (u 1) hs1, ha1]
  · rw [edge_periodCnt, hc1]
    rfl

section Wired

variable (iterator w : BitVec 32)

theorem maxAngle_wired (t : Nat) : (wired iterator w t).maxAngle = 0x000186A0#32 := by
  induction t with
  | zero => rfl
  | succ t ih =>
      rw [wired, run_succ, edge_maxAngle, ← ih]
      rfl

theorem minAngle_wired {t : Nat} (ht : 0 < t) : (wired iterator w t).minAngle = w := by
  obtain ⟨n, rfl⟩ : ∃ n, t = n + 1 := ⟨t - 1, by omega⟩
  rw [wired, run_succ, edge_minAngle]
  rfl

variable {iterator w}

theorem wired_add (m n : Nat) : wired iterator w (m + n) =
    (servoController iterator).runFrom (wired iterator w m) (fun _ => lab4Ports w) n :=
  (servoController iterator).run_add _ m n

/-- The controller on the first edge of a frame, as a point of the wave. -/
structure FrameRel (r : Registers) (x : Point) : Prop where
  state : r.currentState = if x.rising then Dir.right.sweep else Dir.left.sweep
  angle : r.angleCnt.toNat = x.pos

theorem frameRel_reset : FrameRel (wired iterator w (frameStart 0)) ⟨true, 0xC350⟩ where
  state := rfl
  angle := rfl

theorem frame_sweep {d : Dir} {k : Nat}
    (hs : (wired iterator w (frameStart k)).currentState = d.sweep)
    (hlim : ¬ d.Reached (d.limit (wired iterator w (frameStart k)))
      (wired iterator w (frameStart k)).angleCnt)
    (hw : d.Writes (lab4Ports w) → w = d.limit (wired iterator w (frameStart k))) :
    (wired iterator w (frameStart (k + 1))).currentState = d.sweep ∧
    (wired iterator w (frameStart (k + 1))).angleCnt =
      d.move iterator (wired iterator w (frameStart k)).angleCnt := by
  have hc : (wired iterator w (frameStart k)).periodCnt = 0#32 :=
    periodCnt_first iterator _ k
  rw [frameStart_succ, Nat.add_assoc, wired_add (frameStart k) (period.toNat + 1)]
  have hframe := sweep_frame iterator (u := fun _ => lab4Ports w) period.toNat hs hlim
    (by rw [hc]; exact Nat.zero_add _) (fun _ _ => hw)
  exact ⟨hframe.1, hframe.2.1⟩

theorem frame_turn {d : Dir} {k : Nat}
    (hs : (wired iterator w (frameStart k)).currentState = d.sweep)
    (hlim : d.Reached (d.limit (wired iterator w (frameStart k)))
      (wired iterator w (frameStart k)).angleCnt)
    (hlim' : ¬ d.flip.Reached (d.flip.limit (wired iterator w (frameStart k + 2)))
      (wired iterator w (frameStart k)).angleCnt)
    (hw : d.flip.Writes (lab4Ports w) →
      w = d.flip.limit (wired iterator w (frameStart k + 2))) :
    (wired iterator w (frameStart (k + 1))).currentState = d.flip.sweep ∧
    (wired iterator w (frameStart (k + 1))).angleCnt =
      d.flip.move iterator (wired iterator w (frameStart k)).angleCnt := by
  have hc : (wired iterator w (frameStart k)).periodCnt = 0#32 :=
    periodCnt_first iterator _ k
  obtain ⟨hs2, ha2, hc2⟩ := sweep_turn iterator (u := fun _ => lab4Ports w) hs hlim hc rfl
  rw [← wired_add (frameStart k) 2] at hs2 ha2 hc2
  have hsplit : frameStart (k + 1) = frameStart k + 2 + (period.toNat - 2 + 1) := by
    have hperiod := period_toNat
    rw [frameStart_succ]
    omega
  rw [hsplit, wired_add (frameStart k + 2) (period.toNat - 2 + 1)]
  have hoffset : (wired iterator w (frameStart k + 2)).periodCnt.toNat + (period.toNat - 2) =
      period.toNat := by
    rw [hc2]
    rfl
  rw [← ha2] at hlim' ⊢
  have hframe := sweep_frame iterator (u := fun _ => lab4Ports w) (period.toNat - 2) hs2
    hlim' hoffset (fun _ _ => hw)
  exact ⟨hframe.1, hframe.2.1⟩

/-- One frame of the wired controller is one tick of the wave. -/
theorem frame_tick (hi : iterator.toNat ≤ w.toNat) (hi' : iterator.toNat ≤ 0xC350)
    (hw : w.toNat < 0x186A0) {k : Nat} {x : Point}
    (h : FrameRel (wired iterator w (frameStart k)) x)
    (hmin : x.rising = false → (wired iterator w (frameStart k)).minAngle = w) :
    FrameRel (wired iterator w (frameStart (k + 1)))
      (tick w.toNat 0x186A0 iterator.toNat x) := by
  obtain ⟨rising, pos⟩ := x
  obtain ⟨hs, ha⟩ := h
  simp only at hs ha hmin
  have hmax := maxAngle_wired iterator w (frameStart k)
  have hadd : (wired iterator w (frameStart k)).angleCnt.toNat < 0x186A0 →
      (Dir.right.move iterator (wired iterator w (frameStart k)).angleCnt).toNat =
        pos + iterator.toNat := by
    intro hlt
    rw [Dir.move, BitVec.toNat_add_of_lt (by omega), ha]
  have hsub : w.toNat < (wired iterator w (frameStart k)).angleCnt.toNat →
      (Dir.left.move iterator (wired iterator w (frameStart k)).angleCnt).toNat =
        pos - iterator.toNat := by
    intro hlt
    rw [Dir.move, BitVec.toNat_sub_of_le (BitVec.le_def.mpr (by omega)), ha]
  cases rising with
  | true =>
      rw [if_pos rfl] at hs
      by_cases hlt : pos < 0x186A0
      · -- still on the way up
        rw [tick_climb hlt]
        have hframe := frame_sweep (d := .right) hs
          (by rw [Dir.limit_right, hmax, Dir.reached_right, BitVec.toNat_ofNat]; omega)
          (fun hwrites => absurd hwrites.2 Bool.false_ne_true)
        exact ⟨hframe.1, by rw [hframe.2]; exact hadd (by omega)⟩
      · -- at the top
        rw [tick_top (Nat.not_lt.mp hlt)]
        have hmin2 := minAngle_wired iterator w (show 0 < frameStart k + 2 by omega)
        have hframe := frame_turn (d := .right) hs
          (by rw [Dir.limit_right, hmax, Dir.reached_right, BitVec.toNat_ofNat]; omega)
          (by rw [Dir.flip_right, Dir.limit_left, hmin2, Dir.reached_left]; omega)
          (fun _ => by rw [Dir.flip_right, Dir.limit_left, hmin2])
        exact ⟨hframe.1, by rw [hframe.2]; exact hsub (by omega)⟩
  | false =>
      rw [if_neg (by decide)] at hs
      have hlimit := hmin rfl
      by_cases hlt : w.toNat < pos
      · -- still on the way down
        rw [tick_fall hlt]
        have hframe := frame_sweep (d := .left) hs
          (by rw [Dir.limit_left, hlimit, Dir.reached_left]; omega)
          (fun _ => by rw [Dir.limit_left, hlimit])
        exact ⟨hframe.1, by rw [hframe.2]; exact hsub (by omega)⟩
      · -- at the bottom
        rw [tick_bottom (Nat.not_lt.mp hlt)]
        have hmax2 := maxAngle_wired iterator w (frameStart k + 2)
        have hframe := frame_turn (d := .left) hs
          (by rw [Dir.limit_left, hlimit, Dir.reached_left]; omega)
          (by rw [Dir.flip_left, Dir.limit_right, hmax2, Dir.reached_right, BitVec.toNat_ofNat]
              omega)
          (fun hwrites => absurd hwrites.2 Bool.false_ne_true)
        exact ⟨hframe.1, by rw [hframe.2]; exact hadd (by omega)⟩

/-- The controller follows the wave frame by frame. -/
theorem frame_iterate (hi : iterator.toNat ≤ w.toNat) (hi' : iterator.toNat ≤ 0xC350)
    (hw : w.toNat < 0x186A0) (n : Nat) :
    FrameRel (wired iterator w (frameStart n))
      ((tick w.toNat 0x186A0 iterator.toNat)^[n] ⟨true, 0xC350⟩) := by
  induction n with
  | zero => exact frameRel_reset
  | succ n ih =>
      rw [Function.iterate_succ_apply']
      apply frame_tick hi hi' hw ih
      intro hfall
      cases n with
      | zero => exact absurd hfall (fun h => Bool.noConfusion h)
      | succ n =>
          rw [frameStart_succ]
          exact minAngle_wired iterator w (by omega)

end Wired

/-! ## The orbit of the angle -/

def FrameAngle (r : Nat → Registers) (n a : Nat) : Prop :=
  ∀ p ≤ period.toNat, (r (frameStart n + p)).angleCnt.toNat = a

/-- The least value `50000 + m * i` that is at least `100000`. -/
def crest (i : Nat) : Nat := top 0xC350 0x186A0 i

def legFrames (i w : Nat) : Nat := (crest i - w) ⌈/⌉ i

def trough (i w : Nat) : Nat := crest i - legFrames i w * i

def firstCrest (i : Nat) : Nat := (crest i - 0xC350) / i

theorem FrameAngle.unique {r : Nat → Registers} {n a b : Nat} (ha : FrameAngle r n a)
    (hb : FrameAngle r n b) : a = b :=
  (ha 0 (Nat.zero_le _)).symm.trans (hb 0 (Nat.zero_le _))

theorem firstCrest_eq {i : Nat} (h1 : 0 < i) : firstCrest i = (0x186A0 - 0xC350) ⌈/⌉ i := by
  rw [firstCrest, crest, top, Nat.add_sub_cancel_left, Nat.mul_div_cancel _ h1]

section Orbit

variable {iterator w : BitVec 32} (h1 : 1 ≤ iterator.toNat) (h2 : iterator.toNat ≤ 0xC350)
  (h3 : iterator.toNat ≤ w.toNat) (h4 : w.toNat < 0x186A0)

include h2 h3 h4

theorem frameAngle_wired (n : Nat) : FrameAngle (wired iterator w) n
    ((tick w.toNat 0x186A0 iterator.toNat)^[n] ⟨true, 0xC350⟩).pos := by
  intro p hp
  rw [← (frame_iterate h3 h2 h4 n).angle]
  exact congrArg BitVec.toNat (angleCnt_frame iterator _ (isFrame iterator _ n)
    (Nat.le_add_right _ p) (Nat.add_le_add_left hp _))

theorem frameAngle_iff {n a : Nat} : FrameAngle (wired iterator w) n a ↔
    ((tick w.toNat 0x186A0 iterator.toNat)^[n] ⟨true, 0xC350⟩).pos = a := by
  have hn := frameAngle_wired h2 h3 h4 n
  constructor
  · exact hn.unique
  · rintro rfl
    exact hn

include h1

omit h2 in
theorem isWave_wired : IsWave w.toNat 0x186A0 iterator.toNat
    (trough iterator.toNat w.toNat) (legFrames iterator.toNat w.toNat) :=
  isWave h1 (by decide) h3 h4

omit h2 in
theorem trough_add : trough iterator.toNat w.toNat +
    legFrames iterator.toNat w.toNat * iterator.toNat = crest iterator.toNat :=
  bottom_add h1 (by decide) h3 h4

omit h2 in
theorem iterate_firstCrest (n : Nat) :
    (tick w.toNat 0x186A0 iterator.toNat)^[firstCrest iterator.toNat + n] ⟨true, 0xC350⟩ =
      (tick w.toNat 0x186A0 iterator.toNat)^[n] ⟨true, trough iterator.toNat w.toNat +
        legFrames iterator.toNat w.toNat * iterator.toNat⟩ := by
  rw [Nat.add_comm, Function.iterate_add_apply, trough_add h1 h3 h4, firstCrest_eq h1,
    iterate_to_top h1 le_rfl]
  rfl

theorem frameAngle_climb {n : Nat} (hn : 0xC350 + n * iterator.toNat ≤ crest iterator.toNat) :
    FrameAngle (wired iterator w) n (0xC350 + n * iterator.toNat) := by
  have hle : n ≤ (0x186A0 - 0xC350) ⌈/⌉ iterator.toNat :=
    Nat.le_of_mul_le_mul_right (Nat.le_of_add_le_add_left hn) h1
  rw [frameAngle_iff h2 h3 h4, iterate_to_top h1 hle]

theorem frameAngle_down (q : Nat) {j : Nat} (hj : j ≤ legFrames iterator.toNat w.toNat) :
    FrameAngle (wired iterator w)
      (firstCrest iterator.toNat + q * (2 * legFrames iterator.toNat w.toNat) + j)
      (crest iterator.toNat - j * iterator.toNat) := by
  have hsplit := mul_eq_sub_mul_add iterator.toNat hj
  have hcrest := trough_add h1 h3 h4
  rw [frameAngle_iff h2 h3 h4, Nat.add_assoc, iterate_firstCrest h1 h3 h4,
    (isWave_wired h1 h3 h4).pos_down q hj]
  omega

theorem frameAngle_up (q : Nat) {j : Nat} (hj : j ≤ legFrames iterator.toNat w.toNat) :
    FrameAngle (wired iterator w)
      (firstCrest iterator.toNat + q * (2 * legFrames iterator.toNat w.toNat) +
        legFrames iterator.toNat w.toNat + j)
      (trough iterator.toNat w.toNat + j * iterator.toNat) := by
  rw [frameAngle_iff h2 h3 h4, Nat.add_assoc, Nat.add_assoc, iterate_firstCrest h1 h3 h4,
    ← Nat.add_assoc, (isWave_wired h1 h3 h4).pos_up q hj]

theorem frameAngle_period_iff (p : Nat) :
    (∀ n a, firstCrest iterator.toNat ≤ n → FrameAngle (wired iterator w) n a →
      FrameAngle (wired iterator w) (n + p) a) ↔
      2 * legFrames iterator.toNat w.toNat ∣ p := by
  have hwave := isWave_wired h1 h3 h4
  constructor
  · intro hperiod
    have hcrest := frameAngle_down h1 h2 h3 h4 0 (Nat.zero_le _)
    rw [Nat.zero_mul, Nat.zero_mul, Nat.add_zero, Nat.sub_zero] at hcrest
    have hnext := hperiod _ _ le_rfl hcrest
    rw [frameAngle_iff h2 h3 h4, iterate_firstCrest h1 h3 h4] at hnext
    rw [← trough_add h1 h3 h4] at hnext
    exact (hwave.pos_eq_top_iff p).mp hnext
  · rintro ⟨q, rfl⟩ n a hn ha
    obtain ⟨m, rfl⟩ := Nat.exists_eq_add_of_le hn
    rw [frameAngle_iff h2 h3 h4] at ha ⊢
    rw [Nat.add_assoc, iterate_firstCrest h1 h3 h4, Nat.add_comm m, Nat.mul_comm,
      hwave.iterate_add_wave, ← iterate_firstCrest h1 h3 h4, ha]

theorem angleCnt_wired_mem (t : Nat) :
    min (trough iterator.toNat w.toNat) 0xC350 ≤ (wired iterator w t).angleCnt.toNat ∧
      (wired iterator w t).angleCnt.toNat ≤ crest iterator.toNat := by
  have hperiod := period_toNat
  obtain ⟨n, p, hp, rfl⟩ : ∃ n p, p ≤ period.toNat ∧ t = frameStart n + p :=
    ⟨t / (period.toNat + 1), t % (period.toNat + 1),
      Nat.le_of_lt_succ (Nat.mod_lt t (Nat.succ_pos _)), (Nat.div_add_mod' t _).symm⟩
  rw [frameAngle_wired h2 h3 h4 n p hp]
  rcases Nat.le_total n (firstCrest iterator.toNat) with hn | hn
  · have hmul : n * iterator.toNat ≤ firstCrest iterator.toNat * iterator.toNat :=
      Nat.mul_le_mul_right _ hn
    have hcrest : crest iterator.toNat =
        0xC350 + firstCrest iterator.toNat * iterator.toNat := by
      rw [firstCrest_eq h1]
      rfl
    rw [firstCrest_eq h1] at hn
    rw [iterate_to_top h1 hn]
    simp only
    omega
  · obtain ⟨m, rfl⟩ := Nat.exists_eq_add_of_le hn
    have hmem := (isWave_wired h1 h3 h4).pos_mem m
    rw [iterate_firstCrest h1 h3 h4, ← trough_add h1 h3 h4]
    omega

end Orbit

theorem irq_wired {iterator w : BitVec 32} (t : Nat) (h : (wired iterator w t).irq = true) :
    (wired iterator w (t + 1)).irq = false := by
  unfold wired at h ⊢
  rw [run_succ, irq_edge_of_irq h]
  rfl

/-- The orbit of a closed loop with step `i` and the constant `w` on `w_data`: one
climb to the crest `T`, and from there for ever `D` frames down to `B` and `D`
frames up again, with interrupts of one cycle. -/
structure Orbit (r : Nat → Registers) (i w T D B : Nat) : Prop where
  crest : IsLeast {x | ∃ m, x = 0xC350 + m * i ∧ 0x186A0 ≤ x} T
  legs : D = (T - w) ⌈/⌉ i
  legs_pos : 0 < D
  trough : B + D * i = T
  frames : ∀ n, IsFrame r (frameStart n) (frameStart n + period.toNat)
  climb : ∀ n, 0xC350 + n * i ≤ T → FrameAngle r n (0xC350 + n * i)
  down : ∀ q j, j ≤ D → FrameAngle r ((T - 0xC350) / i + q * (2 * D) + j) (T - j * i)
  up : ∀ q j, j ≤ D → FrameAngle r ((T - 0xC350) / i + q * (2 * D) + D + j) (B + j * i)
  periods : ∀ p, (∀ n a, (T - 0xC350) / i ≤ n → FrameAngle r n a →
    FrameAngle r (n + p) a) ↔ 2 * D ∣ p
  irq : ∀ t, (r t).irq = true → (r (t + 1)).irq = false

theorem wired_orbit (iterator w : BitVec 32) (h1 : 1 ≤ iterator.toNat)
    (h2 : iterator.toNat ≤ 0xC350) (h3 : iterator.toNat ≤ w.toNat) (h4 : w.toNat < 0x186A0) :
    Orbit (wired iterator w) iterator.toNat w.toNat (crest iterator.toNat)
      (legFrames iterator.toNat w.toNat) (trough iterator.toNat w.toNat) where
  crest := isLeast_top h1 (by decide)
  legs := rfl
  legs_pos := (isWave_wired h1 h3 h4).length_pos
  trough := trough_add h1 h3 h4
  frames := isFrame iterator _
  climb := fun _ => frameAngle_climb h1 h2 h3 h4
  down := fun q _ => frameAngle_down h1 h2 h3 h4 q
  up := fun q _ => frameAngle_up h1 h2 h3 h4 q
  periods := frameAngle_period_iff h1 h2 h3 h4
  irq := irq_wired

/-- The shipped constants: the crest is `100000`, a leg takes 101 frames. -/
theorem wired_orbit_lab4Data :
    Orbit (functional lab4Data) 500 49999 100000 101 49500 := by
  have horbit := wired_orbit (resize iteratorDefault) lab4Data (by decide) (by decide)
    (by decide) (by decide)
  have hcrest : crest (resize iteratorDefault).toNat = 100000 := by decide
  have hlegs : legFrames (resize iteratorDefault).toNat lab4Data.toNat = 101 := by decide
  have htrough : trough (resize iteratorDefault).toNat lab4Data.toNat = 49500 := by decide
  rw [hcrest, hlegs, htrough] at horbit
  exact horbit

/-! ## The limits of the shipped step size -/

section Limits

variable {w : BitVec 32} (h1 : 0x1F4 ≤ w.toNat) (h2 : w.toNat ≤ 0xC350)

theorem iteratorDefault_toNat : (resize iteratorDefault).toNat = 500 := by decide

theorem crest_default : crest 500 = 100000 := by decide

theorem minAngle_functional (w : BitVec 32) (t : Nat) :
    (functional w t).minAngle = if t = 0 then 0x0000C350#32 else w := by
  split
  · next h =>
      rw [h]
      rfl
  · exact minAngle_wired _ w (by omega)

include h1 h2

theorem isWave_functional : IsWave w.toNat 0x186A0 500 (trough 500 w.toNat)
    (legFrames 500 w.toNat) :=
  isWave (by decide) (by decide) h1 (by omega)

theorem angleCnt_functional_mem (t : Nat) :
    trough 500 w.toNat ≤ (functional w t).angleCnt.toNat ∧
      (functional w t).angleCnt.toNat ≤ 100000 := by
  have hmem := @angleCnt_wired_mem (resize iteratorDefault) w (by decide)
    (by decide) (by rw [iteratorDefault_toNat]; exact h1) (by omega) t
  have hbottom := (isWave_functional h1 h2).bottom_le
  rw [iteratorDefault_toNat, crest_default] at hmem
  change min (trough 500 w.toNat) 0xC350 ≤ (functional w t).angleCnt.toNat ∧
    (functional w t).angleCnt.toNat ≤ 100000 at hmem
  omega

theorem exists_trough : ∃ t, 0 < t ∧ (functional w t).angleCnt.toNat = trough 500 w.toNat := by
  have htrough := @frameAngle_up (resize iteratorDefault) w (by decide)
    (by decide) (by rw [iteratorDefault_toNat]; exact h1) (by omega) 0 0 (Nat.zero_le _)
  have hlegs := (isWave_functional h1 h2).length_pos
  rw [iteratorDefault_toNat, Nat.zero_mul, Nat.zero_mul, Nat.add_zero, Nat.add_zero,
    Nat.add_zero] at htrough
  refine ⟨_, ?_, htrough 0 (Nat.zero_le _)⟩
  rw [Nat.add_zero]
  exact Nat.mul_pos (by omega) (Nat.succ_pos _)

/-- The angle respects `min_angle` exactly when the steps down from `100000` hit
the value on `w_data`. -/
theorem minAngle_le_iff : (∀ t, (functional w t).minAngle ≤ (functional w t).angleCnt) ↔
    0x1F4 ∣ w.toNat := by
  have hwave := isWave_functional h1 h2
  have hbottom := hwave.bottom_le
  have hstep := hwave.lt_bottom
  have hcrest : trough 500 w.toNat + legFrames 500 w.toNat * 500 = 100000 :=
    bottom_add (by decide) (by decide) h1 (by omega)
  constructor
  · intro hle
    obtain ⟨t, ht, htrough⟩ := exists_trough h1 h2
    have hmin := hle t
    rw [minAngle_functional, if_neg (by omega), BitVec.le_def] at hmin
    omega
  · intro hdvd t
    have hmem := (angleCnt_functional_mem h1 h2 t).1
    rw [minAngle_functional]
    split
    · next h =>
        rw [h]
        exact BitVec.le_refl _
    · rw [BitVec.le_def]
      omega

theorem angleCnt_near_limits (t : Nat) :
    ((functional w t).minAngle.toNat : Int) - 0x1F4 < (functional w t).angleCnt.toNat ∧
      (functional w t).angleCnt ≤ (functional w t).maxAngle := by
  have hwave := isWave_functional h1 h2
  have hstep := hwave.lt_bottom
  have hmem := angleCnt_functional_mem h1 h2 t
  have hmax : (functional w t).maxAngle = 0x000186A0#32 := maxAngle_wired _ w t
  constructor
  · rw [minAngle_functional]
    split
    · next h =>
        rw [h]
        change ((50000 : Nat) : Int) - 0x1F4 < (50000 : Nat)
        omega
    · omega
  · rw [hmax, BitVec.le_def, BitVec.toNat_ofNat]
    omega

/-- The sweep down compares after it has moved, so the angle may undershoot
`min_angle`, by less than one step; it never does exactly when the constant on
`w_data` is a multiple of the step size.  The sweep up ends on `max_angle`. -/
theorem functional_limits :
    (∀ t, ((functional w t).minAngle.toNat : Int) - 0x1F4 <
        (functional w t).angleCnt.toNat ∧
      (functional w t).angleCnt ≤ (functional w t).maxAngle) ∧
    ((∀ t, (functional w t).minAngle ≤ (functional w t).angleCnt) ↔ 0x1F4 ∣ w.toNat) :=
  ⟨angleCnt_near_limits h1 h2, minAngle_le_iff h1 h2⟩

end Limits

theorem functional_limits_lab4Data :
    ((functional lab4Data 200000000).minAngle.toNat : Int) - 0x1F4 <
      (functional lab4Data 200000000).angleCnt.toNat :=
  ((functional_limits (w := lab4Data) (by decide) (by decide)).1 200000000).1

theorem functional_undershoots :
    ¬ (∀ w : BitVec 32, 0x1F4 ≤ w.toNat → w.toNat ≤ 0xC350 → ∀ t,
      (functional w t).minAngle ≤ (functional w t).angleCnt ∧
        (functional w t).angleCnt ≤ (functional w t).maxAngle) := by
  intro hclaim
  have hdvd : 0x1F4 ∣ lab4Data.toNat := (minAngle_le_iff (by decide) (by decide)).mp
    (fun t => (hclaim lab4Data (by decide) (by decide) t).1)
  exact absurd hdvd (by decide)

end Esd1.Lab4
