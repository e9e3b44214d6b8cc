import Esd1.Ladder.Rungs
import Esd1.Lab4.Proofs.Leaving

/-!
# Angles that do not wrap around

All angles of a run lie on the ladder of the reset value.  A sweep can step off its
last rung in two ways only: its limit lies beyond the rung, or the sweep starts on the
rung one edge before the frame wraps.  Limits that stop either sweep on the ladder
exclude both, since the opposite sweep then never ends on that rung.
-/

namespace Esd1.Lab4

open Clocked

namespace Dir

def last (L : Ladder) : Dir → Nat
  | right => L.top
  | left => L.bottom

/-- The limit `l` stops the sweep on the ladder, and not on the first rung. -/
def Stops (L : Ladder) : Dir → BitVec 32 → Prop
  | right, l => L.bottom < l.toNat ∧ l.toNat ≤ L.top
  | left, l => L.bottom ≤ l.toNat ∧ l.toNat < L.top

def Crosses (iterator : BitVec 32) : Dir → BitVec 32 → Prop
  | right, a => 2 ^ 32 ≤ a.toNat + iterator.toNat
  | left, a => a.toNat < iterator.toNat

end Dir

def ladder (iterator : BitVec 32) (hi : 0 < iterator.toNat) : Ladder where
  size := 2 ^ 32
  base := 0xC350
  step := iterator.toNat
  base_lt := by decide
  step_pos := hi

section Angle

variable {iterator : BitVec 32} {hi : 0 < iterator.toNat} {d : Dir} {l a : BitVec 32}

theorem ne_last (hl : d.Stops (ladder iterator hi) l) (h : ¬ d.Reached l a) :
    a.toNat ≠ d.last (ladder iterator hi) := by
  cases d with
  | right =>
      have hle := hl.2
      rw [Dir.reached_right] at h
      simp only [Dir.last]
      omega
  | left =>
      have hle := hl.1
      rw [Dir.reached_left] at h
      simp only [Dir.last]
      omega

theorem ne_last_flip (hl : d.Stops (ladder iterator hi) l) (h : d.Reached l a) :
    a.toNat ≠ d.flip.last (ladder iterator hi) := by
  cases d with
  | right =>
      have hlt := hl.1
      rw [Dir.reached_right] at h
      simp only [Dir.flip, Dir.last]
      omega
  | left =>
      have hlt := hl.2
      rw [Dir.reached_left] at h
      simp only [Dir.flip, Dir.last]
      omega

/-- A step off the last rung leaves the range, any other leads to a rung that is not
the first. -/
theorem crosses_last (ha : a.toNat = d.last (ladder iterator hi)) : d.Crosses iterator a := by
  cases d with
  | right =>
      have htop : 2 ^ 32 ≤ (ladder iterator hi).top + iterator.toNat :=
        (ladder iterator hi).size_le_top_add
      rw [Dir.Crosses, ha]
      exact htop
  | left =>
      have hbottom : (ladder iterator hi).bottom < iterator.toNat :=
        (ladder iterator hi).bottom_lt_step
      rw [Dir.Crosses, ha]
      exact hbottom

theorem move_rung (h : (ladder iterator hi).IsRung a.toNat)
    (hne : a.toNat ≠ d.last (ladder iterator hi)) :
    ¬ d.Crosses iterator a ∧ (ladder iterator hi).IsRung (d.move iterator a).toNat ∧
      (d.move iterator a).toNat ≠ d.flip.last (ladder iterator hi) := by
  cases d with
  | right =>
      have hnext : (ladder iterator hi).IsRung (a.toNat + iterator.toNat) := h.add_step hne
      have hlt : a.toNat + iterator.toNat < 2 ^ 32 := hnext.1
      have hmove : (Dir.right.move iterator a).toNat = a.toNat + iterator.toNat :=
        BitVec.toNat_add_of_lt hlt
      have hbottom := (ladder iterator hi).bottom_lt_step
      change (ladder iterator hi).bottom < iterator.toNat at hbottom
      rw [hmove]
      refine ⟨?_, hnext, ?_⟩
      · rw [Dir.Crosses]
        omega
      · simp only [Dir.flip, Dir.last]
        omega
  | left =>
      have hle : iterator.toNat ≤ a.toNat := h.step_le hne
      have hnext : (ladder iterator hi).IsRung (a.toNat - iterator.toNat) := h.sub_step hne
      have hmove : (Dir.left.move iterator a).toNat = a.toNat - iterator.toNat :=
        BitVec.toNat_sub_of_le (BitVec.le_def.mpr hle)
      have htop : a.toNat ≤ (ladder iterator hi).top := h.le_top
      rw [hmove]
      refine ⟨?_, hnext, ?_⟩
      · rw [Dir.Crosses]
        omega
      · simp only [Dir.flip, Dir.last]
        omega

end Angle

/-! ## The invariant -/

/-- The next edge takes `angle_cnt` out of its range. -/
def WrapsAround (iterator : BitVec 32) (r : Registers) : Prop :=
  r.periodCnt = period ∧
    ((r.currentState = .sweepR ∧ 2 ^ 32 ≤ r.angleCnt.toNat + iterator.toNat) ∨
      (r.currentState = .sweepL ∧ r.angleCnt.toNat < iterator.toNat))

theorem wrapsAround_iff {iterator : BitVec 32} {r : Registers} : WrapsAround iterator r ↔
    ∃ d : Dir, r.currentState = d.sweep ∧ r.periodCnt = period ∧
      d.Crosses iterator r.angleCnt := by
  constructor
  · rintro ⟨hc, ⟨hs, ha⟩ | ⟨hs, ha⟩⟩
    · exact ⟨.right, hs, hc, ha⟩
    · exact ⟨.left, hs, hc, ha⟩
  · rintro ⟨d, hs, hc, ha⟩
    cases d with
    | right => exact ⟨hc, Or.inl ⟨hs, ha⟩⟩
    | left => exact ⟨hc, Or.inr ⟨hs, ha⟩⟩

structure OnLadder (L : Ladder) (r : Registers) : Prop where
  rung : L.IsRung r.angleCnt.toNat
  stops : ∀ d : Dir, d.Stops L (d.limit r)
  sweep : ∀ d : Dir, r.currentState = d.sweep → r.periodCnt = period →
    r.angleCnt.toNat ≠ d.last L
  int : ∀ d : Dir, r.currentState = d.int → r.angleCnt.toNat ≠ d.flip.last L

/-- What the ports write stops the sweep that reads it. -/
def WritesStop (L : Ladder) (p : Ports) : Prop := ∀ d : Dir, d.Writes p → d.Stops L p.wData

section Edge

variable {iterator : BitVec 32} {hi : 0 < iterator.toNat} {r : Registers} {p : Ports}

theorem not_wrapsAround (h : OnLadder (ladder iterator hi) r) : ¬ WrapsAround iterator r := by
  rw [wrapsAround_iff]
  rintro ⟨d, hs, hc, hcross⟩
  exact (move_rung h.rung (h.sweep d hs hc)).1 hcross

theorem Dir.int_injective : Function.Injective Dir.int := by
  intro d d' h
  cases d <;> cases d' <;> first | rfl | exact absurd h (by decide)

theorem onLadder_edge (h : OnLadder (ladder iterator hi) r)
    (hp : WritesStop (ladder iterator hi) p) :
    OnLadder (ladder iterator hi) (edge iterator r p) := by
  have hstops : ∀ d : Dir, d.Stops (ladder iterator hi) (d.limit (edge iterator r p)) := by
    intro d
    by_cases hw : d.Writes p
    · rw [limit_edge_of_writes p hw]
      exact hp d hw
    · rw [limit_edge_of_not_writes p hw]
      exact h.stops d
  have hlast : (edge iterator r p).periodCnt = period → r.periodCnt ≠ period := by
    intro hc' hc
    rw [edge_periodCnt, hc, counter_period] at hc'
    exact zero_ne_period hc'
  obtain ⟨d', hs | hs⟩ := exists_dir r.currentState
  · have hrest : r.periodCnt ≠ period → (edge iterator r p).angleCnt = r.angleCnt := by
      intro hc
      rw [sweep_angleCnt p hs, if_neg hc]
    have hmove : r.periodCnt = period →
        (edge iterator r p).angleCnt = d'.move iterator r.angleCnt := by
      intro hc
      rw [sweep_angleCnt p hs, if_pos hc]
    refine ⟨?_, hstops, ?_, ?_⟩
    · by_cases hc : r.periodCnt = period
      · rw [hmove hc]
        exact (move_rung h.rung (h.sweep d' hs hc)).2.1
      · rw [hrest hc]
        exact h.rung
    · -- the sweep goes on, so the limit is not reached before the last edge of the frame
      intro d hs' hc'
      rw [hrest (hlast hc')]
      rw [sweep_currentState p hs] at hs'
      split at hs'
      · exact absurd hs' (d'.int_ne_sweep d)
      · next hnot =>
          obtain rfl := Dir.sweep_injective hs'
          exact ne_last (h.stops d') hnot
    · intro d hs'
      rw [sweep_currentState p hs] at hs'
      split at hs'
      · next hlim =>
          obtain rfl := Dir.int_injective hs'
          by_cases hc : r.periodCnt = period
          · rw [hmove hc]
            exact (move_rung h.rung (h.sweep d' hs hc)).2.2
          · rw [hrest hc]
            exact ne_last_flip (h.stops d') hlim
      · exact absurd hs'.symm (d.int_ne_sweep d')
  · have ha : (edge iterator r p).angleCnt = r.angleCnt := int_angleCnt p hs
    refine ⟨?_, hstops, ?_, ?_⟩
    · rw [ha]
      exact h.rung
    · intro d hs' _
      rw [int_currentState p hs] at hs'
      split at hs'
      · obtain rfl := Dir.sweep_injective hs'
        rw [ha]
        exact h.int d' hs
      · exact absurd hs' (d'.int_ne_sweep d)
    · intro d hs'
      rw [int_currentState p hs] at hs'
      split at hs'
      · exact absurd hs'.symm (d.int_ne_sweep d'.flip)
      · obtain rfl := Dir.int_injective hs'
        rw [ha]
        exact h.int d' hs

/-- The reset values stop both sweeps, as `iterator` has twelve bits. -/
theorem onLadder_reset (hsmall : iterator.toNat < 2 ^ 12) :
    OnLadder (ladder iterator hi) reset := by
  have hbottom : (ladder iterator hi).bottom ≤ 0xC350 := (ladder iterator hi).bottom_le_base
  have htop : 2 ^ 32 ≤ (ladder iterator hi).top + iterator.toNat :=
    (ladder iterator hi).size_le_top_add
  refine ⟨(ladder iterator hi).isRung_base, ?_, ?_, ?_⟩
  · intro d
    cases d with
    | right =>
        change _ < 0x186A0 ∧ 0x186A0 ≤ _
        omega
    | left =>
        change _ ≤ 0xC350 ∧ 0xC350 < _
        omega
  · intro d _ hc
    exact absurd hc zero_ne_period
  · intro d hs
    exact absurd hs.symm (d.int_ne_sweep .right)

end Edge

theorem onLadder_run {iterator : BitVec 32} (hi : 0 < iterator.toNat)
    (hsmall : iterator.toNat < 2 ^ 12) (u : Nat → Ports) (n : Nat)
    (hu : ∀ t < n, WritesStop (ladder iterator hi) (u t)) :
    OnLadder (ladder iterator hi) (run iterator u n) :=
  Machine.run_invariant (servoController iterator) (OnLadder (ladder iterator hi))
    (fun _ p => WritesStop (ladder iterator hi) p) (onLadder_reset hsmall)
    (fun _ _ h hp => onLadder_edge h hp) u n hu

end Esd1.Lab4
