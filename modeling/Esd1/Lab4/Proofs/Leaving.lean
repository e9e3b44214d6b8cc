import Esd1.Lab4.Proofs.Sweep

/-!
# The edge that leaves a sweep

The state machine leaves a sweep on the limit comparison, the angle counter
moves on the state and the frame wrap alone.  The two disagree when the wrap
falls on the leaving edge.  A sweep that ends on its own ends with a step, after
which the counter stands at `0`; only a write can put the end elsewhere.
-/

namespace Esd1.Lab4

open Clocked

/-- The state machine is about to leave a sweep for its interrupt state. -/
def AtLimit (r : Registers) : Prop :=
  (r.currentState = .sweepR ∧ r.maxAngle ≤ r.angleCnt) ∨
    (r.currentState = .sweepL ∧ r.angleCnt ≤ r.minAngle)

theorem atLimit_iff {r : Registers} : AtLimit r ↔
    ∃ d : Dir, r.currentState = d.sweep ∧ d.Reached (d.limit r) r.angleCnt := by
  constructor
  · rintro (⟨hs, hlim⟩ | ⟨hs, hlim⟩)
    · exact ⟨.right, hs, hlim⟩
    · exact ⟨.left, hs, hlim⟩
  · rintro ⟨d, hs, hlim⟩
    cases d with
    | right => exact Or.inl ⟨hs, hlim⟩
    | left => exact Or.inr ⟨hs, hlim⟩

theorem Dir.sweep_injective : Function.Injective Dir.sweep := by
  intro d d' h
  cases d <;> cases d' <;> first | rfl | exact absurd h (by decide)

theorem Dir.int_ne_sweep (d d' : Dir) : d.int ≠ d'.sweep := by
  cases d <;> cases d' <;> decide

theorem Dir.move_eq_self_iff (iterator : BitVec 32) (d : Dir) (a : BitVec 32) :
    d.move iterator a = a ↔ iterator = 0#32 := by
  cases d with
  | right => simp [Dir.move]
  | left =>
      rw [Dir.move, BitVec.sub_eq_iff_eq_add]
      simp

/-- Without a write on the edge before, a sweep is found at its limit only on
the first edge of a frame. -/
theorem periodCnt_of_atLimit {iterator : BitVec 32} {r : Registers} {p : Ports}
    (hw : p.we = false) (h : AtLimit (edge iterator r p)) :
    (edge iterator r p).periodCnt = 0#32 := by
  obtain ⟨d, hs, hlim⟩ := atLimit_iff.mp h
  have hkeep : d.limit (edge iterator r p) = d.limit r := by
    apply limit_edge_of_not_writes
    cases d <;> simp [Dir.Writes, hw]
  rw [hkeep] at hlim
  obtain ⟨d', hs' | hs'⟩ := exists_dir r.currentState
  · rw [sweep_currentState p hs'] at hs
    split at hs
    · exact absurd hs (d'.int_ne_sweep d)
    · next hnot =>
        obtain rfl : d' = d := Dir.sweep_injective hs
        rw [sweep_angleCnt p hs'] at hlim
        split at hlim
        · next hc => rw [edge_periodCnt, hc, counter_period]
        · exact absurd hlim hnot
  · rw [int_currentState p hs', hw] at hs
    exact absurd hs (d'.int_ne_sweep d)

section Run

variable (iterator : BitVec 32) (u : Nat → Ports)

theorem not_atLimit_reset : ¬ AtLimit reset := by
  unfold AtLimit
  decide

/-- A sweep at its limit on the last edge of a frame was put there by a write. -/
theorem write_before_atLimit {n : Nat} (h : AtLimit (run iterator u n))
    (hc : (run iterator u n).periodCnt = period) : ∃ m, n = m + 1 ∧ (u m).we = true := by
  cases n with
  | zero => exact absurd h not_atLimit_reset
  | succ m =>
      refine ⟨m, rfl, ?_⟩
      by_contra hw
      rw [run_succ] at h hc
      rw [periodCnt_of_atLimit (Bool.eq_false_iff.mpr hw) h] at hc
      exact absurd hc (by decide)

/-- On the edge that leaves a sweep the angle rests unless the frame wraps on
that same edge.  Then the angle takes one more step, and the edge before must
have carried a write. -/
theorem leaving_edge {n : Nat} (h : AtLimit (run iterator u n)) (p : Ports) :
    (edge iterator (run iterator u n) p).irq = true ∧
    ((edge iterator (run iterator u n) p).angleCnt = (run iterator u n).angleCnt ↔
      (run iterator u n).periodCnt ≠ period ∨ iterator = 0#32) ∧
    ((run iterator u n).periodCnt = period →
      (∃ m, n = m + 1 ∧ (u m).we = true) ∧
      ((run iterator u n).currentState = .sweepR →
        (edge iterator (run iterator u n) p).angleCnt =
          (run iterator u n).angleCnt + iterator) ∧
      ((run iterator u n).currentState = .sweepL →
        (edge iterator (run iterator u n) p).angleCnt =
          (run iterator u n).angleCnt - iterator)) := by
  obtain ⟨d, hs, hlim⟩ := atLimit_iff.mp h
  refine ⟨?_, ?_, fun hc => ⟨write_before_atLimit iterator u h hc, ?_, ?_⟩⟩
  · rw [Registers.irq, sweep_currentState p hs, if_pos hlim, Dir.irqP_int]
  · rw [sweep_angleCnt p hs]
    by_cases hc : (run iterator u n).periodCnt = period
    · rw [if_pos hc, Dir.move_eq_self_iff]
      simp [hc]
    · simp [hc]
  · intro hs'
    rw [sweep_angleCnt (d := .right) p hs', if_pos hc]
    rfl
  · intro hs'
    rw [sweep_angleCnt (d := .left) p hs', if_pos hc]
    rfl

end Run

/-! ## A write on the last edge but one of a frame -/

def lateWrite (t : Nat) : Ports :=
  if t = 999999 then ⟨true, true, 0#32⟩ else idle

theorem run_lateWrite :
    (run (resize iteratorDefault) lateWrite 1000000).currentState = .sweepR ∧
    (run (resize iteratorDefault) lateWrite 1000000).angleCnt = 0x0000C350#32 ∧
    (run (resize iteratorDefault) lateWrite 1000000).maxAngle = 0#32 ∧
    (run (resize iteratorDefault) lateWrite 1000000).periodCnt = period := by
  -- the number of edges stays a variable, so that nothing unfolds the run
  obtain ⟨n, hn⟩ : ∃ n, n = 999999 := ⟨_, rfl⟩
  have hidle : ∀ t < n, Dir.right.Writes (lateWrite t) →
      (lateWrite t).wData = Dir.right.limit reset := by
    intro t ht hw
    rw [lateWrite, if_neg (by omega)] at hw
    exact absurd hw.1 (by decide)
  have hroom : reset.periodCnt.toNat + n ≤ period.toNat := by
    rw [hn]
    decide
  have hhold := sweep_hold (resize iteratorDefault) (r := reset) (d := .right)
    (u := lateWrite) n rfl (by decide) hroom hidle
  have hwrite : lateWrite n = ⟨true, true, 0#32⟩ := if_pos hn
  rw [show 1000000 = n + 1 by omega, run_succ, hwrite, run_eq_runFrom]
  generalize (servoController (resize iteratorDefault)).runFrom reset lateWrite n = r
    at hhold ⊢
  obtain ⟨hs, ha, hm, hc⟩ := hhold
  have hc' : r.periodCnt = 999999#32 := BitVec.eq_of_toNat_eq (by rw [hc, hn]; rfl)
  refine ⟨?_, ?_, by simp, ?_⟩
  · rw [sweep_currentState _ hs, hm, ha]
    rfl
  · rw [sweep_angleCnt _ hs, hc', if_neg (by decide), ha]
    rfl
  · rw [edge_periodCnt, hc']
    rfl

theorem atLimit_lateWrite :
    AtLimit (run (resize iteratorDefault) lateWrite 1000000) := by
  obtain ⟨hs, ha, hm, -⟩ := run_lateWrite
  refine Or.inl ⟨hs, ?_⟩
  rw [ha, hm]
  decide

theorem leaving_edge_lateWrite :
    (edge (resize iteratorDefault) (run (resize iteratorDefault) lateWrite 1000000)
      idle).irq = true :=
  (leaving_edge _ _ atLimit_lateWrite idle).1

theorem atLimit_moves :
    ¬ (∀ (iterator : BitVec 32) (u : Nat → Ports) (n : Nat) (p : Ports),
      AtLimit (run iterator u n) →
      (edge iterator (run iterator u n) p).angleCnt = (run iterator u n).angleCnt) := by
  intro hclaim
  have hrest := hclaim (resize iteratorDefault) lateWrite 1000000 idle atLimit_lateWrite
  obtain ⟨hs, ha, -, hc⟩ := run_lateWrite
  rw [edge_angleCnt, hs, ha, hc] at hrest
  exact absurd hrest (by decide)

end Esd1.Lab4
