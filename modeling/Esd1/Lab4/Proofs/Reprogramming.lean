import Esd1.Lab4.Proofs.Sweep

/-!
# Reprogramming a limit that is not in use

Each limit register is read by one comparison, that of its own sweep.  Two runs that
acknowledge at the same edges therefore move alike as long as the register in use
holds the same value in both, whatever the other register holds and whatever is
written where.
-/

namespace Esd1.Lab4

open Clocked

structure SameMotion (r r' : Registers) : Prop where
  currentState : r.currentState = r'.currentState
  angleCnt : r.angleCnt = r'.angleCnt
  periodCnt : r.periodCnt = r'.periodCnt
  outwave : r.outwave = r'.outwave

def SameLimitInUse (r r' : Registers) : Prop :=
  ∀ d : Dir, r.currentState = d.sweep → d.limit r = d.limit r'

theorem SameMotion.irq {r r' : Registers} (h : SameMotion r r') : r.irq = r'.irq := by
  unfold Registers.irq
  rw [h.currentState]

theorem sameLimitInUse_iff {r r' : Registers} : SameLimitInUse r r' ↔
    (r.currentState = .sweepR → r.maxAngle = r'.maxAngle) ∧
      (r.currentState = .sweepL → r.minAngle = r'.minAngle) := by
  constructor
  · intro h
    exact ⟨h .right, h .left⟩
  · rintro ⟨hR, hL⟩ d hs
    cases d with
    | right => exact hR hs
    | left => exact hL hs

/-- A write acts on the motion through `we` alone, and the limits through the one in
use alone. -/
theorem sameMotion_edge {iterator : BitVec 32} {r r' : Registers} {p p' : Ports}
    (h : SameMotion r r') (hlimit : SameLimitInUse r r') (hwe : p.we = p'.we) :
    SameMotion (edge iterator r p) (edge iterator r' p') := by
  have hcounter : (edge iterator r p).periodCnt = (edge iterator r' p').periodCnt := by
    rw [edge_periodCnt, edge_periodCnt, h.periodCnt]
  have hwave : (edge iterator r p).outwave = (edge iterator r' p').outwave := by
    rw [edge_outwave, edge_outwave, h.periodCnt, h.angleCnt]
  obtain ⟨d, hs | hs⟩ := exists_dir r.currentState
  · have hs' : r'.currentState = d.sweep := h.currentState.symm.trans hs
    refine ⟨?_, ?_, hcounter, hwave⟩
    · rw [sweep_currentState p hs, sweep_currentState p' hs', hlimit d hs, h.angleCnt]
    · rw [sweep_angleCnt p hs, sweep_angleCnt p' hs', h.periodCnt, h.angleCnt]
  · have hs' : r'.currentState = d.int := h.currentState.symm.trans hs
    refine ⟨?_, ?_, hcounter, hwave⟩
    · rw [int_currentState p hs, int_currentState p' hs', hwe]
    · rw [int_angleCnt p hs, int_angleCnt p' hs', h.angleCnt]

/-- Two runs with the same `we` whose limits agree wherever the first run uses them
agree on everything but the limits. -/
theorem limits_not_in_use (iterator : BitVec 32) (u u' : Nat → Ports) (n : Nat)
    (hwe : ∀ t < n, (u t).we = (u' t).we)
    (hR : ∀ t < n, (run iterator u t).currentState = .sweepR →
      (run iterator u t).maxAngle = (run iterator u' t).maxAngle)
    (hL : ∀ t < n, (run iterator u t).currentState = .sweepL →
      (run iterator u t).minAngle = (run iterator u' t).minAngle) :
    (run iterator u n).currentState = (run iterator u' n).currentState ∧
      (run iterator u n).angleCnt = (run iterator u' n).angleCnt ∧
      (run iterator u n).periodCnt = (run iterator u' n).periodCnt ∧
      (run iterator u n).outwave = (run iterator u' n).outwave ∧
      (run iterator u n).irq = (run iterator u' n).irq := by
  have hmotion : SameMotion (run iterator u n) (run iterator u' n) := by
    refine (servoController iterator).run_related (servoController iterator) SameMotion
      (fun r p r' p' => SameLimitInUse r r' ∧ p.we = p'.we) ⟨rfl, rfl, rfl, rfl⟩ ?_ u u' n ?_
    · rintro r p r' p' hrr' ⟨hlimit, hpwe⟩
      exact sameMotion_edge hrr' hlimit hpwe
    · intro t ht
      exact ⟨sameLimitInUse_iff.mpr ⟨hR t ht, hL t ht⟩, hwe t ht⟩
  exact ⟨hmotion.currentState, hmotion.angleCnt, hmotion.periodCnt, hmotion.outwave,
    hmotion.irq⟩

/-- Limits so close that the sweeps turn within a few edges.  Each register is written with
`low` or `high` while the other one is in use. -/
def turning (low high : BitVec 32) : Nat → Ports
  | 0 => ⟨true, false, low⟩
  | 1 => ⟨true, true, 1#32⟩
  | 3 => ⟨true, false, 5#32⟩
  | 4 => ⟨true, true, high⟩
  | 5 => ⟨true, false, 60000#32⟩
  | 7 => ⟨true, true, 100000#32⟩
  | 8 => ⟨true, false, low⟩
  | _ => idle

theorem limits_not_in_use_turning :
    (run (resize iteratorDefault) (turning 7#32 11#32) 10).currentState =
        (run (resize iteratorDefault) (turning 9#32 13#32) 10).currentState ∧
      (run (resize iteratorDefault) (turning 7#32 11#32) 10).angleCnt =
        (run (resize iteratorDefault) (turning 9#32 13#32) 10).angleCnt := by
  have hwe : ∀ t < 10, (turning 7#32 11#32 t).we = (turning 9#32 13#32 t).we := by decide
  have hsame := limits_not_in_use (resize iteratorDefault) (turning 7#32 11#32)
    (turning 9#32 13#32) 10 hwe (by decide) (by decide)
  exact ⟨hsame.1, hsame.2.1⟩

end Esd1.Lab4
