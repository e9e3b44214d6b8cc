import Esd1.Lab4.Proofs.Frames

/-!
# Sweeps

The state machine is its own mirror image: a sweep reads one limit register,
moves the angle towards it and ends in one interrupt state, from which a write
starts the opposite sweep.  A direction carries these four parts, so that every
fact about the two halves is stated once.
-/

namespace Esd1.Lab4

open Clocked

inductive Dir where
  | right
  | left
  deriving DecidableEq, Repr

namespace Dir

def flip : Dir → Dir
  | right => left
  | left => right

def sweep : Dir → StateType
  | right => .sweepR
  | left => .sweepL

def int : Dir → StateType
  | right => .intR
  | left => .intL

def limit : Dir → Registers → BitVec 32
  | right, r => r.maxAngle
  | left, r => r.minAngle

def Reached : Dir → BitVec 32 → BitVec 32 → Prop
  | right, l, a => l ≤ a
  | left, l, a => a ≤ l

instance : (d : Dir) → (l a : BitVec 32) → Decidable (d.Reached l a)
  | right, l, a => inferInstanceAs (Decidable (l ≤ a))
  | left, l, a => inferInstanceAs (Decidable (a ≤ l))

def move (iterator : BitVec 32) : Dir → BitVec 32 → BitVec 32
  | right, a => a + iterator
  | left, a => a - iterator

def Writes : Dir → Ports → Prop
  | right, p => p.we = true ∧ p.addr = true
  | left, p => p.we = true ∧ p.addr = false

@[simp] theorem flip_right : right.flip = left := rfl

@[simp] theorem flip_left : left.flip = right := rfl

@[simp] theorem flip_flip (d : Dir) : d.flip.flip = d := by
  cases d <;> rfl

@[simp] theorem limit_right (r : Registers) : right.limit r = r.maxAngle := rfl

@[simp] theorem limit_left (r : Registers) : left.limit r = r.minAngle := rfl

theorem reached_right (l a : BitVec 32) : right.Reached l a ↔ l.toNat ≤ a.toNat :=
  BitVec.le_def

theorem reached_left (l a : BitVec 32) : left.Reached l a ↔ a.toNat ≤ l.toNat :=
  BitVec.le_def

@[simp] theorem irqP_sweep (d : Dir) : irqP d.sweep = false := by
  cases d <;> rfl

@[simp] theorem irqP_int (d : Dir) : irqP d.int = true := by
  cases d <;> rfl

end Dir

theorem exists_dir (s : StateType) : ∃ d : Dir, s = d.sweep ∨ s = d.int := by
  cases s with
  | sweepR => exact ⟨.right, Or.inl rfl⟩
  | intR => exact ⟨.right, Or.inr rfl⟩
  | sweepL => exact ⟨.left, Or.inl rfl⟩
  | intL => exact ⟨.left, Or.inr rfl⟩

/-! ## One edge of a sweep and one edge of an interrupt state -/

section Edge

variable {iterator : BitVec 32} {r : Registers} {d : Dir} (p : Ports)

theorem sweep_currentState (hs : r.currentState = d.sweep) :
    (edge iterator r p).currentState =
      if d.Reached (d.limit r) r.angleCnt then d.int else d.sweep := by
  cases d <;> rw [edge_currentState, hs] <;> rfl

theorem sweep_angleCnt (hs : r.currentState = d.sweep) :
    (edge iterator r p).angleCnt =
      if r.periodCnt = period then d.move iterator r.angleCnt else r.angleCnt := by
  cases d <;> rw [edge_angleCnt, hs] <;> rfl

theorem int_currentState (hs : r.currentState = d.int) :
    (edge iterator r p).currentState = if p.we then d.flip.sweep else d.int := by
  cases d <;> rw [edge_currentState, hs] <;> rfl

theorem int_angleCnt (hs : r.currentState = d.int) :
    (edge iterator r p).angleCnt = r.angleCnt := by
  cases d <;> rw [edge_angleCnt, hs] <;> rfl

theorem limit_edge_of_not_writes (hp : ¬ d.Writes p) :
    d.limit (edge iterator r p) = d.limit r := by
  cases d <;> simp only [Dir.Writes, not_and, Bool.not_eq_true, Bool.not_eq_false] at hp <;>
    cases hw : p.we <;> simp_all [Dir.limit]

theorem limit_edge_of_writes (hp : d.Writes p) :
    d.limit (edge iterator r p) = p.wData := by
  cases d <;> simp [Dir.limit, hp.1, hp.2]

theorem limit_edge (hp : d.Writes p → p.wData = d.limit r) :
    d.limit (edge iterator r p) = d.limit r := by
  by_cases hw : d.Writes p
  · rw [limit_edge_of_writes p hw, hp hw]
  · exact limit_edge_of_not_writes p hw

end Edge

/-! ## The trace of a sweep -/

/-- The frame wraps among the next `n` edges. -/
def Registers.wraps (r : Registers) (n : Nat) : Nat :=
  (r.periodCnt.toNat + n) / (period.toNat + 1)

theorem wraps_zero {r : Registers} (hp : r.periodCnt ≤ period) : r.wraps 0 = 0 :=
  Nat.div_eq_of_lt (Nat.lt_succ_of_le (BitVec.le_def.mp hp))

section Stretch

variable (iterator : BitVec 32) {r : Registers} {d : Dir} {u : Nat → Ports}

/-- A sweep goes on, one step a frame, as long as it has not reached its limit and
no write moves the limit. -/
theorem sweep_trace (n : Nat) (hs : r.currentState = d.sweep) (hp : r.periodCnt ≤ period)
    (hlim : ∀ t < n, ¬ d.Reached (d.limit r) ((d.move iterator)^[r.wraps t] r.angleCnt))
    (hu : ∀ t < n, d.Writes (u t) → (u t).wData = d.limit r) :
    ((servoController iterator).runFrom r u n).currentState = d.sweep ∧
    ((servoController iterator).runFrom r u n).angleCnt =
      (d.move iterator)^[r.wraps n] r.angleCnt ∧
    d.limit ((servoController iterator).runFrom r u n) = d.limit r ∧
    ((servoController iterator).runFrom r u n).periodCnt.toNat =
      (r.periodCnt.toNat + n) % (period.toNat + 1) := by
  induction n with
  | zero =>
      refine ⟨hs, ?_, rfl, ?_⟩
      · rw [wraps_zero hp]
        rfl
      · exact (Nat.mod_eq_of_lt (Nat.lt_succ_of_le (BitVec.le_def.mp hp))).symm
  | succ n ih =>
      obtain ⟨hs', ha', hl', hc'⟩ :=
        ih (fun t ht => hlim t (by omega)) (fun t ht => hu t (by omega))
      have hwraps : r.wraps (n + 1) = r.wraps n +
          if (r.periodCnt.toNat + n) % (period.toNat + 1) = period.toNat then 1 else 0 :=
        succ_div _ _
      rw [runFrom_succ]
      generalize (servoController iterator).runFrom r u n = r' at hs' ha' hl' hc' ⊢
      have hle : r'.periodCnt ≤ period := by
        rw [BitVec.le_def, hc']
        exact Nat.le_of_lt_succ (Nat.mod_lt _ (Nat.succ_pos _))
      refine ⟨?_, ?_, ?_, ?_⟩
      · rw [sweep_currentState (u n) hs', hl', ha', if_neg (hlim n (by omega))]
      · rw [sweep_angleCnt (u n) hs', hwraps, ← hc', ha']
        by_cases hc : r'.periodCnt = period
        · rw [if_pos hc, if_pos (eq_period_iff.mp hc), Function.iterate_succ_apply']
        · rw [if_neg hc, if_neg (fun h => hc (eq_period_iff.mpr h)), Nat.add_zero]
      · rw [← hl']
        apply limit_edge
        rw [hl']
        exact hu n (by omega)
      · rw [edge_periodCnt, counter_toNat hle, hc', ← Nat.add_assoc, succ_mod]

/-- A sweep that has not reached its limit goes on unchanged to the end of the
frame, as long as no write moves the limit it reads. -/
theorem sweep_hold (n : Nat) (hs : r.currentState = d.sweep)
    (hlim : ¬ d.Reached (d.limit r) r.angleCnt)
    (hp : r.periodCnt.toNat + n ≤ period.toNat)
    (hu : ∀ t < n, d.Writes (u t) → (u t).wData = d.limit r) :
    ((servoController iterator).runFrom r u n).currentState = d.sweep ∧
    ((servoController iterator).runFrom r u n).angleCnt = r.angleCnt ∧
    d.limit ((servoController iterator).runFrom r u n) = d.limit r ∧
    ((servoController iterator).runFrom r u n).periodCnt.toNat = r.periodCnt.toNat + n := by
  have hwraps : ∀ t ≤ n, r.wraps t = 0 := fun t ht => Nat.div_eq_of_lt (by omega)
  have htrace := sweep_trace iterator n hs (BitVec.le_def.mpr (by omega))
    (fun t ht => by rwa [hwraps t ht.le]) hu
  rwa [hwraps n le_rfl, Nat.mod_eq_of_lt (by omega)] at htrace

/-- The rest of a frame in a sweep that has not reached its limit: the sweep goes
on, and the wrap moves the angle by one step. -/
theorem sweep_frame (n : Nat) (hs : r.currentState = d.sweep)
    (hlim : ¬ d.Reached (d.limit r) r.angleCnt)
    (hp : r.periodCnt.toNat + n = period.toNat)
    (hu : ∀ t < n + 1, d.Writes (u t) → (u t).wData = d.limit r) :
    ((servoController iterator).runFrom r u (n + 1)).currentState = d.sweep ∧
    ((servoController iterator).runFrom r u (n + 1)).angleCnt = d.move iterator r.angleCnt ∧
    d.limit ((servoController iterator).runFrom r u (n + 1)) = d.limit r ∧
    ((servoController iterator).runFrom r u (n + 1)).periodCnt = 0#32 := by
  have hwraps : ∀ t < n + 1, r.wraps t = 0 := fun t ht => Nat.div_eq_of_lt (by omega)
  have hsum : r.periodCnt.toNat + (n + 1) = period.toNat + 1 := by omega
  have hlast : r.wraps (n + 1) = 1 := by
    rw [Registers.wraps, hsum]
    exact Nat.div_self (Nat.succ_pos _)
  obtain ⟨hs', ha', hl', hc'⟩ := sweep_trace iterator (n + 1) hs (BitVec.le_def.mpr (by omega))
    (fun t ht => by rwa [hwraps t ht]) hu
  rw [hlast] at ha'
  rw [hsum, Nat.mod_self] at hc'
  exact ⟨hs', ha', hl', BitVec.eq_of_toNat_eq hc'⟩

end Stretch

end Esd1.Lab4
