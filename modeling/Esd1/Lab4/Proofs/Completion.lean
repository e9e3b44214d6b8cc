import Esd1.Lab4.Proofs.Sweep
import Esd1.Triangle.Wave

/-!
# The completion of a sweep

From any registers, in any phase of the frame, a sweep that no write disturbs takes
the steps it needs to reach its limit, one at each frame wrap, and the interrupt
follows on the edge after the last of them.
-/

namespace Esd1.Lab4

open Clocked

namespace Dir

def distance : Dir → BitVec 32 → BitVec 32 → Nat
  | right, l, a => l.toNat - a.toNat
  | left, l, a => a.toNat - l.toNat

/-- `k` steps from `a` stay in the range of `angle_cnt`. -/
def Room (iterator : BitVec 32) : Dir → BitVec 32 → Nat → Prop
  | right, a, k => a.toNat + k * iterator.toNat < 2 ^ 32
  | left, a, k => k * iterator.toNat ≤ a.toNat

def after (iterator : BitVec 32) : Dir → BitVec 32 → Nat → Nat
  | right, a, k => a.toNat + k * iterator.toNat
  | left, a, k => a.toNat - k * iterator.toNat

variable {iterator : BitVec 32} {d : Dir} {l a : BitVec 32}

theorem Room.mono {j k : Nat} (h : d.Room iterator a k) (hjk : j ≤ k) :
    d.Room iterator a j := by
  have hmul : j * iterator.toNat ≤ k * iterator.toNat := Nat.mul_le_mul_right _ hjk
  cases d <;> simp only [Room] at h ⊢ <;> omega

theorem iterate_move {k : Nat} (h : d.Room iterator a k) :
    ((d.move iterator)^[k] a).toNat = d.after iterator a k := by
  induction k with
  | zero => cases d <;> simp [after]
  | succ k ih =>
      have hprev := ih (h.mono (Nat.le_succ k))
      rw [Function.iterate_succ_apply']
      cases d with
      | right =>
          simp only [Room, after, Nat.add_mul, Nat.one_mul] at h hprev ⊢
          rw [move, BitVec.toNat_add_of_lt (by omega), hprev, Nat.add_assoc]
      | left =>
          simp only [Room, after, Nat.add_mul, Nat.one_mul] at h hprev ⊢
          rw [move, BitVec.toNat_sub_of_le (BitVec.le_def.mpr (by omega)), hprev, Nat.sub_sub]

theorem reached_iterate_move {k : Nat} (h : d.Room iterator a k) :
    d.Reached l ((d.move iterator)^[k] a) ↔ d.distance l a ≤ k * iterator.toNat := by
  have hmove := iterate_move h
  cases d with
  | right =>
      rw [reached_right, hmove, after, distance]
      omega
  | left =>
      rw [reached_left, hmove, after, distance]
      omega

theorem distance_pos (h : ¬ d.Reached l a) : 0 < d.distance l a := by
  cases d with
  | right =>
      rw [reached_right] at h
      simp only [distance]
      omega
  | left =>
      rw [reached_left] at h
      simp only [distance]
      omega

end Dir

/-- The edges of a sweep of `k` steps that starts at phase `p` of a frame: the rest of
this frame and `k - 1` whole ones. -/
def sweepEdges (p k : Nat) : Nat :=
  (period.toNat - p + 1) + (k - 1) * (period.toNat + 1)

theorem add_sweepEdges {p k : Nat} (hp : p ≤ period.toNat) (hk : 0 < k) :
    p + sweepEdges p k = k * (period.toNat + 1) := by
  obtain ⟨j, rfl⟩ : ∃ j, k = j + 1 := ⟨k - 1, by omega⟩
  rw [sweepEdges, Nat.add_sub_cancel, Nat.add_mul]
  omega

section Sweep

variable {iterator : BitVec 32} {r : Registers} {d : Dir} {u : Nat → Ports} {n : Nat}

theorem wraps_lt_iff {k : Nat} (hp : r.periodCnt ≤ period) (hk : 0 < k) :
    r.wraps n < k ↔ n < sweepEdges r.periodCnt.toNat k := by
  have hedges := add_sweepEdges (BitVec.le_def.mp hp) hk
  rw [Registers.wraps, Nat.div_lt_iff_lt_mul (show 0 < period.toNat + 1 from Nat.succ_pos _)]
  omega

def Dir.steps (d : Dir) (iterator : BitVec 32) (r : Registers) : Nat :=
  d.distance (d.limit r) r.angleCnt ⌈/⌉ iterator.toNat

/-- The last step carries the angle to the limit or past it, by less than a step. -/
theorem Dir.steps_mul_bounds (d : Dir) (hi : 0 < iterator.toNat) (r : Registers) :
    d.distance (d.limit r) r.angleCnt ≤ d.steps iterator r * iterator.toNat ∧
      d.steps iterator r * iterator.toNat <
        d.distance (d.limit r) r.angleCnt + iterator.toNat :=
  ⟨Triangle.le_ceilDiv_mul _ hi, Triangle.ceilDiv_mul_lt _ hi⟩

theorem steps_pos (hi : 0 < iterator.toNat) (hlim : ¬ d.Reached (d.limit r) r.angleCnt) :
    0 < d.steps iterator r := by
  have hle := (d.steps_mul_bounds hi r).1
  have hpos := Dir.distance_pos hlim
  rw [Nat.pos_iff_ne_zero]
  intro hzero
  rw [hzero, Nat.zero_mul] at hle
  omega

/-- The limit is reached after `steps` steps, and not before. -/
theorem reached_iff_steps_le {k : Nat} (hi : 0 < iterator.toNat)
    (hroom : d.Room iterator r.angleCnt k) :
    d.Reached (d.limit r) ((d.move iterator)^[k] r.angleCnt) ↔ d.steps iterator r ≤ k := by
  rw [Dir.reached_iterate_move hroom, Dir.steps, ceilDiv_le_iff_le_smul hi, smul_eq_mul,
    Nat.mul_comm]

variable (hi : 0 < iterator.toNat) (hs : r.currentState = d.sweep)
  (hp : r.periodCnt ≤ period) (hlim : ¬ d.Reached (d.limit r) r.angleCnt)
  (hroom : d.Room iterator r.angleCnt (d.steps iterator r))

include hi hs hp hlim hroom

theorem sweep_until (hn : n ≤ sweepEdges r.periodCnt.toNat (d.steps iterator r))
    (hu : ∀ t < n, d.Writes (u t) → (u t).wData = d.limit r) :
    ((servoController iterator).runFrom r u n).currentState = d.sweep ∧
    ((servoController iterator).runFrom r u n).angleCnt =
      (d.move iterator)^[r.wraps n] r.angleCnt ∧
    d.limit ((servoController iterator).runFrom r u n) = d.limit r ∧
    ((servoController iterator).runFrom r u n).periodCnt.toNat =
      (r.periodCnt.toNat + n) % (period.toNat + 1) := by
  refine sweep_trace iterator n hs hp (fun t ht => ?_) hu
  have hlt : r.wraps t < d.steps iterator r :=
    (wraps_lt_iff hp (steps_pos hi hlim)).mpr (by omega)
  rw [reached_iff_steps_le hi (hroom.mono hlt.le)]
  omega

/-- The edge after the last step enters the interrupt state, where the angle rests. -/
theorem sweep_turns (hn : n = sweepEdges r.periodCnt.toNat (d.steps iterator r))
    (hu : ∀ t < n + 1, d.Writes (u t) → (u t).wData = d.limit r) :
    ((servoController iterator).runFrom r u (n + 1)).currentState = d.int ∧
    ((servoController iterator).runFrom r u (n + 1)).angleCnt =
      (d.move iterator)^[d.steps iterator r] r.angleCnt ∧
    d.limit ((servoController iterator).runFrom r u (n + 1)) = d.limit r ∧
    ((servoController iterator).runFrom r u (n + 1)).periodCnt = 1#32 := by
  have hpos := steps_pos hi hlim
  have hsum : r.periodCnt.toNat + n = d.steps iterator r * (period.toNat + 1) := by
    rw [hn]
    exact add_sweepEdges (BitVec.le_def.mp hp) hpos
  have hwraps : r.wraps n = d.steps iterator r := by
    rw [Registers.wraps, hsum]
    exact Nat.mul_div_cancel _ (Nat.succ_pos _)
  obtain ⟨hs', ha', hl', hc'⟩ :=
    sweep_until hi hs hp hlim hroom hn.le (fun t ht => hu t (by omega))
  rw [hwraps] at ha'
  rw [hsum, Nat.mul_mod_left] at hc'
  rw [runFrom_succ]
  generalize (servoController iterator).runFrom r u n = r' at hs' ha' hl' hc' ⊢
  have hzero : r'.periodCnt = 0#32 := BitVec.eq_of_toNat_eq hc'
  refine ⟨?_, ?_, ?_, ?_⟩
  · rw [sweep_currentState (u n) hs', hl', ha',
      if_pos ((reached_iff_steps_le hi hroom).mpr le_rfl)]
  · rw [sweep_angleCnt (u n) hs', hzero, if_neg zero_ne_period, ha']
  · rw [← hl']
    apply limit_edge
    rw [hl']
    exact hu n (by omega)
  · rw [edge_periodCnt, hzero]
    rfl

end Sweep

theorem int_rests (iterator : BitVec 32) {r : Registers} {d : Dir} {u : Nat → Ports}
    (n : Nat) (hs : r.currentState = d.int) (hu : ∀ t < n, (u t).we = false) :
    ((servoController iterator).runFrom r u n).currentState = d.int ∧
    ((servoController iterator).runFrom r u n).angleCnt = r.angleCnt := by
  induction n with
  | zero => exact ⟨hs, rfl⟩
  | succ n ih =>
      obtain ⟨hs', ha'⟩ := ih (fun t ht => hu t (by omega))
      rw [runFrom_succ]
      refine ⟨?_, ?_⟩
      · rw [int_currentState (u n) hs', hu n (by omega)]
        rfl
      · rw [int_angleCnt (u n) hs', ha']

/-- A whole sweep without writes, in either direction. -/
theorem sweep_whole {iterator : BitVec 32} {r : Registers} {d : Dir} {u : Nat → Ports}
    (hi : 0 < iterator.toNat) (hs : r.currentState = d.sweep)
    (hp : r.periodCnt ≤ period) (hlim : ¬ d.Reached (d.limit r) r.angleCnt)
    (hroom : d.Room iterator r.angleCnt (d.steps iterator r)) (n : Nat)
    (hu : ∀ t < n, (u t).we = false) :
    (n ≤ sweepEdges r.periodCnt.toNat (d.steps iterator r) →
      ((servoController iterator).runFrom r u n).currentState = d.sweep ∧
      ((servoController iterator).runFrom r u n).irq = false) ∧
    (sweepEdges r.periodCnt.toNat (d.steps iterator r) < n →
      ((servoController iterator).runFrom r u n).currentState = d.int ∧
      ((servoController iterator).runFrom r u n).angleCnt.toNat =
        d.after iterator r.angleCnt (d.steps iterator r)) := by
  have hquiet : ∀ t < n, d.Writes (u t) → (u t).wData = d.limit r := by
    intro t ht hw
    have hwe : (u t).we = true := by
      cases d with
      | right => exact hw.1
      | left => exact hw.1
    rw [hu t ht] at hwe
    cases hwe
  constructor
  · intro hn
    have hs' := (sweep_until hi hs hp hlim hroom hn hquiet).1
    refine ⟨hs', ?_⟩
    rw [Registers.irq, hs', Dir.irqP_sweep]
  · intro hn
    obtain ⟨m, rfl⟩ := Nat.exists_eq_add_of_lt hn
    obtain ⟨hs', ha', -, -⟩ := sweep_turns hi hs hp hlim hroom rfl
      (fun t ht => hquiet t (by omega))
    have hsplit := (servoController iterator).runFrom_add r u
      (sweepEdges r.periodCnt.toNat (d.steps iterator r) + 1) m
    rw [show sweepEdges r.periodCnt.toNat (d.steps iterator r) + m + 1 =
      sweepEdges r.periodCnt.toNat (d.steps iterator r) + 1 + m by omega, hsplit]
    obtain ⟨hs'', ha''⟩ := int_rests iterator m hs'
      (fun t ht => hu (sweepEdges r.periodCnt.toNat (d.steps iterator r) + 1 + t) (by omega))
    refine ⟨hs'', ?_⟩
    rw [ha'', ha', Dir.iterate_move hroom]

abbrev runFrom (iterator : BitVec 32) (r : Registers) (u : Nat → Ports) : Nat → Registers :=
  (servoController iterator).runFrom r u

/-- A sweep that no write disturbs lasts exactly `sweepEdges` edges, wherever it
starts, and leaves the angle on the first of its steps at or past the limit. -/
theorem sweep_completion (iterator : BitVec 32) (hi : 1 ≤ iterator.toNat) (r : Registers)
    (hp : r.periodCnt ≤ period) (u : Nat → Ports) (n : Nat)
    (hu : ∀ t < n, (u t).we = false) :
    (∀ k, r.currentState = .sweepR → r.angleCnt < r.maxAngle →
      k = (r.maxAngle.toNat - r.angleCnt.toNat) ⌈/⌉ iterator.toNat →
      r.angleCnt.toNat + k * iterator.toNat < 2 ^ 32 →
      (n ≤ sweepEdges r.periodCnt.toNat k →
        (runFrom iterator r u n).currentState = .sweepR ∧
        (runFrom iterator r u n).irq = false) ∧
      (sweepEdges r.periodCnt.toNat k < n →
        (runFrom iterator r u n).currentState = .intR ∧
        (runFrom iterator r u n).angleCnt.toNat = r.angleCnt.toNat + k * iterator.toNat ∧
        r.maxAngle ≤ (runFrom iterator r u n).angleCnt ∧
        (runFrom iterator r u n).angleCnt.toNat < r.maxAngle.toNat + iterator.toNat)) ∧
    (∀ k, r.currentState = .sweepL → r.minAngle < r.angleCnt →
      k = (r.angleCnt.toNat - r.minAngle.toNat) ⌈/⌉ iterator.toNat →
      k * iterator.toNat ≤ r.angleCnt.toNat →
      (n ≤ sweepEdges r.periodCnt.toNat k →
        (runFrom iterator r u n).currentState = .sweepL ∧
        (runFrom iterator r u n).irq = false) ∧
      (sweepEdges r.periodCnt.toNat k < n →
        (runFrom iterator r u n).currentState = .intL ∧
        (runFrom iterator r u n).angleCnt.toNat = r.angleCnt.toNat - k * iterator.toNat ∧
        (r.minAngle.toNat : Int) - iterator.toNat <
          (runFrom iterator r u n).angleCnt.toNat ∧
        (runFrom iterator r u n).angleCnt ≤ r.minAngle)) := by
  constructor
  · intro k hs hlt hk hroom
    have hlim : ¬ Dir.right.Reached (Dir.right.limit r) r.angleCnt := by
      rw [Dir.reached_right, Nat.not_le]
      exact BitVec.lt_def.mp hlt
    have hsteps : Dir.right.steps iterator r = k := hk.symm
    obtain ⟨hsweep, hint⟩ := sweep_whole (d := .right) hi hs hp hlim (by rwa [hsteps]) n hu
    rw [hsteps] at hsweep hint
    obtain ⟨hge, hless⟩ := Dir.right.steps_mul_bounds hi r
    rw [hsteps, Dir.distance, Dir.limit_right] at hge hless
    rw [BitVec.lt_def] at hlt
    refine ⟨hsweep, fun hn => ?_⟩
    obtain ⟨hs', ha'⟩ := hint hn
    refine ⟨hs', ha', ?_, ?_⟩
    · rw [BitVec.le_def, ha', Dir.after]
      omega
    · rw [ha', Dir.after]
      omega
  · intro k hs hlt hk hroom
    have hlim : ¬ Dir.left.Reached (Dir.left.limit r) r.angleCnt := by
      rw [Dir.reached_left, Nat.not_le]
      exact BitVec.lt_def.mp hlt
    have hsteps : Dir.left.steps iterator r = k := hk.symm
    obtain ⟨hsweep, hint⟩ := sweep_whole (d := .left) hi hs hp hlim (by rwa [hsteps]) n hu
    rw [hsteps] at hsweep hint
    obtain ⟨hge, hless⟩ := Dir.left.steps_mul_bounds hi r
    rw [hsteps, Dir.distance, Dir.limit_left] at hge hless
    rw [BitVec.lt_def] at hlt
    refine ⟨hsweep, fun hn => ?_⟩
    obtain ⟨hs', ha'⟩ := hint hn
    refine ⟨hs', ha', ?_, ?_⟩
    · rw [ha', Dir.after]
      omega
    · rw [BitVec.le_def, ha', Dir.after]
      omega

/-- The first sweep after reset takes 100 frames. -/
theorem sweep_completion_reset :
    (runFrom (resize iteratorDefault) reset (fun _ => idle) 100000101).currentState = .intR ∧
      (runFrom (resize iteratorDefault) reset (fun _ => idle) 100000101).angleCnt.toNat =
        100000 := by
  obtain ⟨hs, ha, -⟩ := ((sweep_completion (resize iteratorDefault) (by decide) reset
    (by decide) (fun _ => idle) 100000101 (fun _ _ => rfl)).1 100 rfl (by decide)
    (by decide) (by decide)).2 (by decide)
  exact ⟨hs, ha⟩

end Esd1.Lab4
