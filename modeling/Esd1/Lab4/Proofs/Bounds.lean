import Esd1.Lab4.Proofs.Frames

/-!
# Bounds on the angle

A sweep compares the angle with its limit only after it has moved, so the angle
passes the limit by up to one step.  What keeps it from moving on is the frame
counter: an angle past the bound has just moved, hence the counter stands at `0`
and the state is left long before the next wrap.  `RightBound` and `LeftBound`
say this for one sweep each; the two invariants below add what the interrupt
states keep.
-/

namespace Esd1.Lab4

open Clocked

/-- The angle of a sweep to the right is below `hi`, or less than one step past
it on the first edge of a frame. -/
def RightBound (hi iterator : Nat) (c a : BitVec 32) : Prop :=
  a.toNat < hi ∨ (a.toNat < hi + iterator ∧ c = 0#32)

def LeftBound (lo iterator : Nat) (c a : BitVec 32) : Prop :=
  lo ≤ a.toNat ∨ (lo ≤ a.toNat + iterator ∧ c = 0#32)

section Edge

variable {lo hi : Nat} {iterator c a : BitVec 32}

theorem right_edge (h : RightBound hi iterator.toNat c a)
    (hwrap : hi + iterator.toNat ≤ 2 ^ 32) :
    a.toNat ≤ (angleC iterator .sweepR c a).toNat ∧
    (angleC iterator .sweepR c a).toNat < hi + iterator.toNat ∧
    (hi ≤ a.toNat → angleC iterator .sweepR c a = a) ∧
    (a.toNat < hi →
      RightBound hi iterator.toNat (counter c) (angleC iterator .sweepR c a)) := by
  by_cases hc : c = period
  · have ha : a.toNat < hi := by
      rcases h with ha | ⟨-, h0⟩
      · exact ha
      · exact absurd (h0.symm.trans hc) zero_ne_period
    have hmove : angleC iterator .sweepR c a = a + iterator := by simp [angleC, hc]
    have hsum : (a + iterator).toNat = a.toNat + iterator.toNat :=
      BitVec.toNat_add_of_lt (by omega)
    rw [hmove, hsum]
    rw [hc, counter_period]
    exact ⟨by omega, by omega, fun hle => by omega, fun _ => Or.inr ⟨by omega, rfl⟩⟩
  · rw [angleC_of_ne iterator .sweepR hc a]
    refine ⟨le_rfl, ?_, fun _ => rfl, Or.inl⟩
    rcases h with ha | ⟨ha, -⟩ <;> omega

theorem left_edge (h : LeftBound lo iterator.toNat c a) (hwrap : iterator.toNat ≤ lo) :
    (angleC iterator .sweepL c a).toNat ≤ a.toNat ∧
    lo ≤ (angleC iterator .sweepL c a).toNat + iterator.toNat ∧
    (a.toNat < lo → angleC iterator .sweepL c a = a) ∧
    (lo ≤ a.toNat →
      LeftBound lo iterator.toNat (counter c) (angleC iterator .sweepL c a)) := by
  by_cases hc : c = period
  · have ha : lo ≤ a.toNat := by
      rcases h with ha | ⟨-, h0⟩
      · exact ha
      · exact absurd (h0.symm.trans hc) zero_ne_period
    have hmove : angleC iterator .sweepL c a = a - iterator := by simp [angleC, hc]
    have hdiff : (a - iterator).toNat = a.toNat - iterator.toNat :=
      BitVec.toNat_sub_of_le (BitVec.le_def.mpr (by omega))
    rw [hmove, hdiff]
    rw [hc, counter_period]
    exact ⟨by omega, by omega, fun hlt => by omega, fun _ => Or.inr ⟨by omega, rfl⟩⟩
  · rw [angleC_of_ne iterator .sweepL hc a]
    refine ⟨le_rfl, ?_, fun _ => rfl, Or.inl⟩
    rcases h with ha | ⟨ha, -⟩ <;> omega

end Edge

/-! ## The invariant of the angle -/

/-- Margins for the angle: `lo` and `hi` bound the sweeps, `turnR` is the least
angle of `int_R`, and the angles of `int_L` lie below `turnL`. -/
structure Margins where
  lo : Nat
  hi : Nat
  turnR : Nat
  turnL : Nat

structure Margins.Fits (b : Margins) (iterator : Nat) (r : Registers) : Prop where
  iterator_le : iterator ≤ b.lo
  no_wrap : b.hi + iterator ≤ 2 ^ 32
  turnR_le : b.turnR ≤ r.maxAngle.toNat
  le_hi : r.maxAngle.toNat ≤ b.hi
  lo_le : b.lo ≤ r.minAngle.toNat + 1
  lt_turnL : r.minAngle.toNat < b.turnL
  lo_le_turnR : b.lo ≤ b.turnR
  turnL_le_hi : b.turnL ≤ b.hi

def AngleWithin (b : Margins) (iterator : Nat) (r : Registers) : Prop :=
  match r.currentState with
  | .sweepR => b.lo ≤ r.angleCnt.toNat + iterator ∧
      RightBound b.hi iterator r.periodCnt r.angleCnt
  | .intR => b.turnR ≤ r.angleCnt.toNat ∧ r.angleCnt.toNat < b.hi + iterator
  | .sweepL => r.angleCnt.toNat < b.hi + iterator ∧
      LeftBound b.lo iterator r.periodCnt r.angleCnt
  | .intL => b.lo ≤ r.angleCnt.toNat + iterator ∧ r.angleCnt.toNat < b.turnL

/-- One edge keeps the angle within margins that the limit registers respect,
whatever the ports carry. -/
theorem angleWithin_edge {b : Margins} {iterator : BitVec 32} {r : Registers} (p : Ports)
    (hfit : b.Fits iterator.toNat r) (h : AngleWithin b iterator.toNat r) :
    AngleWithin b iterator.toNat (edge iterator r p) := by
  obtain ⟨hit, hwrap, hturnR, hhi, hlo, hturnL, hloR, hLhi⟩ := hfit
  cases hs : r.currentState with
  | sweepR =>
      simp only [AngleWithin, hs] at h
      obtain ⟨hlow, hbound⟩ := h
      obtain ⟨hle, hlt, -, hstay⟩ := right_edge hbound hwrap
      by_cases hlimit : r.maxAngle ≤ r.angleCnt
      · -- the angle may still move on the edge that leaves the sweep
        have hlimit' : r.maxAngle.toNat ≤ r.angleCnt.toNat := BitVec.le_def.mp hlimit
        simp only [AngleWithin, edge_currentState, comb, hs, ge_iff_le, hlimit, if_true,
          edge_angleCnt]
        exact ⟨by omega, hlt⟩
      · have hlimit' : r.angleCnt.toNat < r.maxAngle.toNat := by
          rwa [BitVec.le_def, Nat.not_le] at hlimit
        simp only [AngleWithin, edge_currentState, comb, hs, ge_iff_le, hlimit, if_false,
          edge_angleCnt, edge_periodCnt]
        exact ⟨by omega, hstay (by omega)⟩
  | intR =>
      simp only [AngleWithin, hs] at h
      obtain ⟨hlow, hhigh⟩ := h
      cases hw : p.we with
      | true =>
          simp only [AngleWithin, edge_currentState, comb, hs, hw, if_true, edge_angleCnt, angleC]
          exact ⟨hhigh, Or.inl (by omega)⟩
      | false =>
          simp only [AngleWithin, edge_currentState, comb, hs, hw, Bool.false_eq_true,
            if_false, edge_angleCnt, angleC]
          exact ⟨hlow, hhigh⟩
  | sweepL =>
      simp only [AngleWithin, hs] at h
      obtain ⟨hhigh, hbound⟩ := h
      obtain ⟨hle, hge, -, hstay⟩ := left_edge hbound hit
      by_cases hlimit : r.angleCnt ≤ r.minAngle
      · have hlimit' : r.angleCnt.toNat ≤ r.minAngle.toNat := BitVec.le_def.mp hlimit
        simp only [AngleWithin, edge_currentState, comb, hs, hlimit, if_true, edge_angleCnt]
        exact ⟨hge, by omega⟩
      · have hlimit' : r.minAngle.toNat < r.angleCnt.toNat := by
          rwa [BitVec.le_def, Nat.not_le] at hlimit
        simp only [AngleWithin, edge_currentState, comb, hs, hlimit, if_false, edge_angleCnt,
          edge_periodCnt]
        exact ⟨by omega, hstay (by omega)⟩
  | intL =>
      simp only [AngleWithin, hs] at h
      obtain ⟨hlow, hhigh⟩ := h
      cases hw : p.we with
      | true =>
          simp only [AngleWithin, edge_currentState, comb, hs, hw, if_true, edge_angleCnt, angleC]
          exact ⟨hlow, Or.inl (by omega)⟩
      | false =>
          simp only [AngleWithin, edge_currentState, comb, hs, hw, Bool.false_eq_true,
            if_false, edge_angleCnt, angleC]
          exact ⟨hlow, hhigh⟩

theorem AngleWithin.bounds {b : Margins} {iterator : Nat} {r : Registers}
    (h : AngleWithin b iterator r) (hR : b.lo ≤ b.turnR) (hL : b.turnL ≤ b.hi) :
    b.lo ≤ r.angleCnt.toNat + iterator ∧ r.angleCnt.toNat < b.hi + iterator := by
  cases hs : r.currentState <;>
    simp only [AngleWithin, hs, RightBound, LeftBound] at h <;> omega

/-! ## Arbitrary writes inside a hull -/

structure LimitsIn (L U : Nat) (r : Registers) : Prop where
  le_min : L ≤ r.minAngle.toNat
  min_le : r.minAngle.toNat ≤ U
  le_max : L ≤ r.maxAngle.toNat
  max_le : r.maxAngle.toNat ≤ U

def WritesIn (L U : Nat) (p : Ports) : Prop :=
  p.we = true → L ≤ p.wData.toNat ∧ p.wData.toNat ≤ U

def hullMargins (L U : Nat) : Margins where
  lo := L
  hi := U + 1
  turnR := L
  turnL := U + 1

theorem limitsIn_edge {L U : Nat} {r : Registers} {p : Ports} (iterator : BitVec 32)
    (h : LimitsIn L U r) (hp : WritesIn L U p) : LimitsIn L U (edge iterator r p) := by
  obtain ⟨hmin, hmin', hmax, hmax'⟩ := h
  cases hw : p.we with
  | false => constructor <;> simpa [hw]
  | true =>
      obtain ⟨hlow, hhigh⟩ := hp hw
      cases ha : p.addr <;> constructor <;> simpa [hw, ha]

theorem hullMargins_fits {L U iterator : Nat} {r : Registers} (hL : iterator ≤ L)
    (hU : U + iterator < 2 ^ 32) (h : LimitsIn L U r) :
    (hullMargins L U).Fits iterator r := by
  obtain ⟨hmin, hmin', hmax, hmax'⟩ := h
  constructor <;> simp only [hullMargins] <;> omega

/-- No timing of writes and acknowledgements takes the angle more than one step
out of the hull of all limits ever programmed. -/
theorem hull_bound (iterator : BitVec 32) (L U : Nat) (hL : iterator.toNat ≤ L)
    (hreset : L ≤ 0xC350) (hreset' : 0x186A0 ≤ U) (hU : U + iterator.toNat < 2 ^ 32)
    (u : Nat → Ports) (n : Nat)
    (hu : ∀ t < n, (u t).we = true → L ≤ (u t).wData.toNat ∧ (u t).wData.toNat ≤ U) :
    (L : Int) - iterator.toNat ≤ (run iterator u n).angleCnt.toNat ∧
      ((run iterator u n).angleCnt.toNat : Int) ≤ U + iterator.toNat := by
  have hinv : LimitsIn L U (run iterator u n) ∧
      AngleWithin (hullMargins L U) iterator.toNat (run iterator u n) := by
    refine Machine.run_invariant (servoController iterator)
      (fun r => LimitsIn L U r ∧ AngleWithin (hullMargins L U) iterator.toNat r)
      (fun _ p => WritesIn L U p) ?_ ?_ u n hu
    · refine ⟨⟨hreset, ?_, ?_, hreset'⟩, ?_, Or.inl ?_⟩ <;>
        simp only [servoController, reset, hullMargins, BitVec.toNat_ofNat] <;> omega
    · rintro r p ⟨hlim, hangle⟩ hp
      exact ⟨limitsIn_edge iterator hlim hp,
        angleWithin_edge p (hullMargins_fits hL hU hlim) hangle⟩
  have hbounds := hinv.2.bounds le_rfl le_rfl
  simp only [hullMargins] at hbounds
  omega

def writeMiddle (t : Nat) : Ports where
  we := true
  addr := t % 2 = 1
  wData := 75000#32

theorem hull_bound_writeMiddle :
    (50000 : Int) - 500 ≤
        (run (resize iteratorDefault) writeMiddle 5000000).angleCnt.toNat ∧
      ((run (resize iteratorDefault) writeMiddle 5000000).angleCnt.toNat : Int) ≤
        100000 + 500 :=
  hull_bound (resize iteratorDefault) 50000 100000 (by decide) (by decide) (by decide)
    (by decide) writeMiddle 5000000
    (fun t _ _ => ⟨show 50000 ≤ 75000 by decide, show 75000 ≤ 100000 by decide⟩)

/-! ## The testbench's interrupt protocol -/

/-- The discipline of `sequential_tb` for one edge: it writes only while `IRQ` is
high, a smaller `min_angle` in `int_R` and a larger `max_angle` in `int_L`. -/
def TbDiscipline (iterator : BitVec 32) (r : Registers) (p : Ports) : Prop :=
  p.we = true →
    r.irq = true ∧
    (r.currentState = .intR →
      p.addr = false ∧ iterator ≤ p.wData ∧ p.wData < r.maxAngle) ∧
    (r.currentState = .intL →
      p.addr = true ∧ r.minAngle < p.wData ∧ p.wData.toNat + iterator.toNat < 2 ^ 32)

def tightMargins (minAngle maxAngle : BitVec 32) : Margins where
  lo := minAngle.toNat + 1
  hi := maxAngle.toNat
  turnR := maxAngle.toNat
  turnL := minAngle.toNat + 1

structure LimitsApart (iterator : Nat) (minAngle maxAngle : BitVec 32) : Prop where
  iterator_le : iterator ≤ minAngle.toNat
  lt : minAngle.toNat < maxAngle.toNat
  no_wrap : maxAngle.toNat + iterator < 2 ^ 32

theorem tightMargins_fits {iterator : Nat} {r : Registers}
    (h : LimitsApart iterator r.minAngle r.maxAngle) :
    (tightMargins r.minAngle r.maxAngle).Fits iterator r := by
  obtain ⟨hit, hlt, hwrap⟩ := h
  constructor <;> simp only [tightMargins] <;> omega

structure TbInv (iterator : BitVec 32) (r : Registers) : Prop where
  limits : LimitsApart iterator.toNat r.minAngle r.maxAngle
  angle : AngleWithin (tightMargins r.minAngle r.maxAngle) iterator.toNat r

theorem tbInv_reset {iterator : BitVec 32} (h1 : 1 ≤ iterator.toNat)
    (h2 : iterator.toNat ≤ 0xC350) : TbInv iterator reset where
  limits := by
    constructor <;> simp only [reset, BitVec.toNat_ofNat] <;> omega
  angle := by
    refine ⟨?_, Or.inl ?_⟩ <;> simp only [reset, tightMargins, BitVec.toNat_ofNat] <;> omega

theorem tbInv_edge {iterator : BitVec 32} {r : Registers} {p : Ports}
    (h : TbInv iterator r) (hp : TbDiscipline iterator r p) :
    TbInv iterator (edge iterator r p) := by
  obtain ⟨hlim, hangle⟩ := h
  cases hw : p.we with
  | false =>
      -- the limits stay, and with them the margins
      have hmin : (edge iterator r p).minAngle = r.minAngle := by simp [hw]
      have hmax : (edge iterator r p).maxAngle = r.maxAngle := by simp [hw]
      constructor <;> rw [hmin, hmax]
      · exact hlim
      · exact angleWithin_edge p (tightMargins_fits hlim) hangle
  | true =>
      obtain ⟨hirq, hR, hL⟩ := hp hw
      obtain ⟨hit, hlt, hwrap⟩ := hlim
      cases hs : r.currentState with
      | sweepR => simp [Registers.irq, irqP, hs] at hirq
      | sweepL => simp [Registers.irq, irqP, hs] at hirq
      | intR =>
          -- the write puts `min_angle` below the angle and starts the sweep to it
          obtain ⟨haddr, hge, hltw⟩ := hR hs
          rw [BitVec.le_def] at hge
          rw [BitVec.lt_def] at hltw
          simp only [AngleWithin, hs, tightMargins] at hangle
          have hmin : (edge iterator r p).minAngle = p.wData := by simp [hw, haddr]
          have hmax : (edge iterator r p).maxAngle = r.maxAngle := by simp [haddr]
          constructor <;> rw [hmin, hmax]
          · exact ⟨hge, hltw, hwrap⟩
          · simp only [AngleWithin, edge_currentState, comb, hs, hw, if_true, tightMargins,
              edge_angleCnt, angleC]
            exact ⟨hangle.2, Or.inl (by omega)⟩
      | intL =>
          obtain ⟨haddr, hltw, hwrapw⟩ := hL hs
          rw [BitVec.lt_def] at hltw
          simp only [AngleWithin, hs, tightMargins] at hangle
          have hmin : (edge iterator r p).minAngle = r.minAngle := by simp [haddr]
          have hmax : (edge iterator r p).maxAngle = p.wData := by simp [hw, haddr]
          constructor <;> rw [hmin, hmax]
          · exact ⟨hit, hltw, hwrapw⟩
          · simp only [AngleWithin, edge_currentState, comb, hs, hw, if_true, tightMargins,
              edge_angleCnt, angleC]
            exact ⟨hangle.1, Or.inl (by omega)⟩

/-- Under the protocol the angle stays less than one step outside the limits as
they stand, and each interrupt finds it at or past the limit that raised it. -/
theorem protocol_bound (iterator : BitVec 32) (h1 : 1 ≤ iterator.toNat)
    (h2 : iterator.toNat ≤ 0xC350) (u : Nat → Ports) (n : Nat)
    (hu : ∀ t < n, TbDiscipline iterator (run iterator u t) (u t)) :
    ((run iterator u n).minAngle.toNat : Int) - iterator.toNat <
        (run iterator u n).angleCnt.toNat ∧
      ((run iterator u n).angleCnt.toNat : Int) <
        (run iterator u n).maxAngle.toNat + iterator.toNat ∧
      ((run iterator u n).currentState = .intR →
        (run iterator u n).maxAngle ≤ (run iterator u n).angleCnt) ∧
      ((run iterator u n).currentState = .intL →
        (run iterator u n).angleCnt ≤ (run iterator u n).minAngle) := by
  have hinv : TbInv iterator (run iterator u n) :=
    Machine.run_invariant (servoController iterator) (TbInv iterator) (TbDiscipline iterator)
      (tbInv_reset h1 h2) (fun _ _ hr hp => tbInv_edge hr hp) u n hu
  obtain ⟨⟨hit, hlt, hwrap⟩, hangle⟩ := hinv
  have hbounds := hangle.bounds (by simp only [tightMargins]; omega)
    (by simp only [tightMargins]; omega)
  simp only [tightMargins] at hbounds
  refine ⟨by omega, by omega, ?_, ?_⟩
  · intro hs
    simp only [AngleWithin, hs, tightMargins] at hangle
    exact BitVec.le_def.mpr hangle.1
  · intro hs
    simp only [AngleWithin, hs, tightMargins] at hangle
    exact BitVec.le_def.mpr (by omega)

/-- `sequential_tb` as a controller that answers every interrupt at once. -/
def tbPorts (r : Registers) : Ports :=
  match r.currentState with
  | .intR => ⟨true, false, 0x0000C34B#32⟩
  | .intL => ⟨true, true, 0x0001869B#32⟩
  | .sweepR | .sweepL => idle

def tbIterator : BitVec 12 := 0x3E8#12

def tbStream : Nat → Ports := (servoController (resize tbIterator)).feedback tbPorts

theorem tbDiscipline_tbPorts {r : Registers} (hmin : r.minAngle < 0x0001869B#32)
    (hmax : 0x0000C34B#32 < r.maxAngle) :
    TbDiscipline (resize tbIterator) r (tbPorts r) := by
  intro hw
  cases hs : r.currentState with
  | sweepR => simp [tbPorts, idle, hs] at hw
  | sweepL => simp [tbPorts, idle, hs] at hw
  | intR => simpa [tbPorts, hs, Registers.irq, irqP] using ⟨by decide, hmax⟩
  | intL => simpa [tbPorts, hs, Registers.irq, irqP] using ⟨hmin, by decide⟩

theorem tbDiscipline_tbStream (t : Nat) : TbDiscipline (resize tbIterator)
    (run (resize tbIterator) tbStream t) (tbStream t) := by
  have hlim : (run (resize tbIterator) tbStream t).minAngle < 0x0001869B#32 ∧
      0x0000C34B#32 < (run (resize tbIterator) tbStream t).maxAngle := by
    refine Machine.closed_invariant (servoController (resize tbIterator))
      (fun r => r.minAngle < 0x0001869B#32 ∧ 0x0000C34B#32 < r.maxAngle)
      (by decide) ?_ t
    rintro r ⟨hmin, hmax⟩
    change (edge _ r (tbPorts r)).minAngle < _ ∧ _ < (edge _ r (tbPorts r)).maxAngle
    cases hs : r.currentState <;> simp [tbPorts, idle, hs, hmin, hmax]
  rw [show tbStream t = tbPorts (run (resize tbIterator) tbStream t) from
    Machine.feedback_eq _ tbPorts t]
  exact tbDiscipline_tbPorts hlim.1 hlim.2

theorem protocol_bound_tbStream :
    ((run (resize tbIterator) tbStream 400000000).minAngle.toNat : Int) - 1000 <
      (run (resize tbIterator) tbStream 400000000).angleCnt.toNat :=
  (protocol_bound (resize tbIterator) (by decide) (by decide) tbStream 400000000
    (fun t _ => tbDiscipline_tbStream t)).1

end Esd1.Lab4
