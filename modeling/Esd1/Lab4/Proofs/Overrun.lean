import Esd1.Lab4.Proofs.Completion
import Esd1.Lab4.Proofs.WrapAround

/-!
# Limits that let the angle wrap around

A limit that does not stop its sweep on the ladder is out of reach of every rung, or
reached on every rung.  In the first case the sweep runs off its last rung.  In the
second case the sweep is over as soon as it starts; an acknowledgement held back to
the last edge but one of each frame then moves the angle by a step of the opposite
sweep and nothing else, until that one runs off its last rung.
-/

namespace Esd1.Lab4

open Clocked

/-- The controller that always drives the ports `p`, except that it holds back the
acknowledgement of the interrupt of `d` to the last edge but one of a frame. -/
def lateAck (d : Dir) (p : Ports) (r : Registers) : Ports :=
  if r.currentState = d.int ∧ r.periodCnt.toNat + 1 ≠ period.toNat then idle else p

def Dir.RungsLeft (L : Ladder) : Dir → Nat → BitVec 32 → Prop
  | right, k, a => a.toNat + k * L.step = L.top
  | left, k, a => a.toNat = L.bottom + k * L.step

section Angle

variable {iterator : BitVec 32} {hi : 0 < iterator.toNat} {d : Dir} {l a : BitVec 32} {k : Nat}

/-- No rung reaches a limit that does not stop the sweep, or every rung does. -/
theorem reached_of_not_stops (hl : ¬ d.Stops (ladder iterator hi) l) :
    (∀ a : BitVec 32, (ladder iterator hi).IsRung a.toNat → ¬ d.Reached l a) ∨
      (∀ a : BitVec 32, (ladder iterator hi).IsRung a.toNat → d.Reached l a) := by
  cases d with
  | right =>
      by_cases hle : l.toNat ≤ (ladder iterator hi).top
      · refine Or.inr fun a ha => ?_
        have hbottom := ha.bottom_le
        have hlow : ¬ (ladder iterator hi).bottom < l.toNat := fun hlt => hl ⟨hlt, hle⟩
        rw [Dir.reached_right]
        omega
      · refine Or.inl fun a ha => ?_
        have htop := ha.le_top
        rw [Dir.reached_right]
        omega
  | left =>
      by_cases hle : (ladder iterator hi).bottom ≤ l.toNat
      · refine Or.inr fun a ha => ?_
        have htop := ha.le_top
        have hhigh : ¬ l.toNat < (ladder iterator hi).top := fun hlt => hl ⟨hle, hlt⟩
        rw [Dir.reached_left]
        omega
      · refine Or.inl fun a ha => ?_
        have hbottom := ha.bottom_le
        rw [Dir.reached_left]
        omega

theorem exists_rungsLeft (d : Dir) (ha : (ladder iterator hi).IsRung a.toNat) :
    ∃ k, d.RungsLeft (ladder iterator hi) k a := by
  cases d with
  | right => exact ha.exists_up
  | left => exact ha.exists_down

theorem rungsLeft_zero (h : d.RungsLeft (ladder iterator hi) 0 a) :
    a.toNat = d.last (ladder iterator hi) := by
  cases d <;> simpa [Dir.RungsLeft, Dir.last] using h

theorem ne_last_of_rungsLeft (h : d.RungsLeft (ladder iterator hi) (k + 1) a) :
    a.toNat ≠ d.last (ladder iterator hi) := by
  have hpos : 1 * iterator.toNat ≤ (k + 1) * iterator.toNat :=
    Nat.mul_le_mul_right _ (by omega)
  cases d with
  | right =>
      change a.toNat + (k + 1) * iterator.toNat = (ladder iterator hi).top at h
      rw [Dir.last]
      omega
  | left =>
      change a.toNat = (ladder iterator hi).bottom + (k + 1) * iterator.toNat at h
      rw [Dir.last]
      omega

theorem room_of_rungsLeft (h : d.RungsLeft (ladder iterator hi) k a) :
    d.Room iterator a k := by
  cases d with
  | right =>
      have htop : (ladder iterator hi).top < 2 ^ 32 := (ladder iterator hi).top_lt
      change a.toNat + k * iterator.toNat = (ladder iterator hi).top at h
      rw [Dir.Room]
      omega
  | left =>
      change a.toNat = (ladder iterator hi).bottom + k * iterator.toNat at h
      rw [Dir.Room]
      omega

theorem iterate_rungsLeft (h : d.RungsLeft (ladder iterator hi) k a) :
    ((d.move iterator)^[k] a).toNat = d.last (ladder iterator hi) := by
  rw [Dir.iterate_move (room_of_rungsLeft h)]
  cases d with
  | right => exact h
  | left =>
      change a.toNat = (ladder iterator hi).bottom + k * iterator.toNat at h
      simp only [Dir.after, Dir.last]
      omega

theorem isRung_last (d : Dir) : (ladder iterator hi).IsRung (d.last (ladder iterator hi)) := by
  cases d with
  | right => exact (ladder iterator hi).isRung_top
  | left => exact (ladder iterator hi).isRung_bottom

theorem move_rungsLeft (h : d.RungsLeft (ladder iterator hi) (k + 1) a) :
    d.RungsLeft (ladder iterator hi) k (d.move iterator a) ∧
      (d.Reached l a → d.Reached l (d.move iterator a)) := by
  have hmove : (d.move iterator a).toNat = d.after iterator a 1 :=
    Dir.iterate_move (k := 1) ((room_of_rungsLeft h).mono (by omega))
  cases d with
  | right =>
      change a.toNat + (k + 1) * iterator.toNat = (ladder iterator hi).top at h
      rw [Dir.after, Nat.one_mul] at hmove
      rw [Nat.add_mul, Nat.one_mul] at h
      refine ⟨?_, fun hreached => ?_⟩
      · change (Dir.right.move iterator a).toNat + k * iterator.toNat =
          (ladder iterator hi).top
        omega
      · rw [Dir.reached_right] at hreached ⊢
        omega
  | left =>
      change a.toNat = (ladder iterator hi).bottom + (k + 1) * iterator.toNat at h
      rw [Dir.after, Nat.one_mul] at hmove
      rw [Nat.add_mul, Nat.one_mul] at h
      refine ⟨?_, fun hreached => ?_⟩
      · change (Dir.left.move iterator a).toNat =
          (ladder iterator hi).bottom + k * iterator.toNat
        omega
      · rw [Dir.reached_left] at hreached ⊢
        omega

end Angle

/-! ## The controller at work -/

/-- In the state `s` with the limit that `p` writes, the opposite limit reached, and
`k` steps left for the opposite sweep. -/
structure OnRung (L : Ladder) (d : Dir) (p : Ports) (s : StateType) (k : Nat)
    (r : Registers) : Prop where
  currentState : r.currentState = s
  limit : d.limit r = p.wData
  rung : L.IsRung r.angleCnt.toNat
  back : d.flip.Reached (d.flip.limit r) r.angleCnt
  left : d.flip.RungsLeft L k r.angleCnt

section Controller

variable {iterator : BitVec 32} {hi : 0 < iterator.toNat} {d : Dir} {p i : Ports}
  {s : StateType} {r : Registers} {k : Nat}

theorem lateAck_cases (d : Dir) (p : Ports) (r : Registers) :
    lateAck d p r = p ∨ lateAck d p r = idle := by
  unfold lateAck
  split
  · exact Or.inr rfl
  · exact Or.inl rfl

theorem lateAck_of_ne (p : Ports) (h : r.currentState ≠ d.int) : lateAck d p r = p :=
  if_neg (fun hc => h hc.1)

theorem not_writes_idle (d : Dir) : ¬ d.Writes idle := by
  cases d <;> exact fun h => absurd h.1 (by decide)

theorem not_writes_flip (hw : d.Writes p) : ¬ d.flip.Writes p := by
  cases d with
  | right => exact fun h => absurd (hw.2.symm.trans h.2) (by decide)
  | left => exact fun h => absurd (hw.2.symm.trans h.2) (by decide)

theorem we_of_writes (hw : d.Writes p) : p.we = true := by
  cases d <;> exact hw.1

theorem Dir.flip_int_ne (d : Dir) : d.flip.int ≠ d.int := by
  cases d <;> decide

theorem limits_edge (iterator : BitVec 32) (hw : d.Writes p) (hip : i = p ∨ i = idle)
    (hl : d.limit r = p.wData) :
    d.limit (edge iterator r i) = p.wData ∧
      d.flip.limit (edge iterator r i) = d.flip.limit r := by
  rcases hip with rfl | rfl
  · exact ⟨limit_edge_of_writes i hw, limit_edge_of_not_writes i (not_writes_flip hw)⟩
  · exact ⟨(limit_edge_of_not_writes idle (not_writes_idle d)).trans hl,
      limit_edge_of_not_writes idle (not_writes_idle d.flip)⟩

theorem onRung_edge (h : OnRung (ladder iterator hi) d p s k r) (hw : d.Writes p)
    (hip : i = p ∨ i = idle) (ha : (edge iterator r i).angleCnt = r.angleCnt) :
    OnRung (ladder iterator hi) d p (edge iterator r i).currentState k
      (edge iterator r i) := by
  obtain ⟨hl, hl'⟩ := limits_edge iterator hw hip h.limit
  refine ⟨rfl, hl, ?_, ?_, ?_⟩
  · rw [ha]
    exact h.rung
  · rw [hl', ha]
    exact h.back
  · rw [ha]
    exact h.left

theorem onRung_edge_move (h : OnRung (ladder iterator hi) d p s (k + 1) r)
    (hw : d.Writes p)
    (ha : (edge iterator r p).angleCnt = d.flip.move iterator r.angleCnt) :
    OnRung (ladder iterator hi) d p (edge iterator r p).currentState k
      (edge iterator r p) := by
  obtain ⟨hl, hl'⟩ := limits_edge iterator hw (Or.inl rfl) h.limit
  refine ⟨rfl, hl, ?_, ?_, ?_⟩
  · rw [ha]
    exact (move_rung h.rung (ne_last_of_rungsLeft h.left)).2.1
  · rw [hl', ha]
    exact (move_rungsLeft h.left).2 h.back
  · rw [ha]
    exact (move_rungsLeft (l := d.flip.limit r) h.left).1

end Controller

/-! ## One round of the controller -/

section Round

variable {iterator : BitVec 32} {hi : 0 < iterator.toNat} {d : Dir} {p : Ports}

/-- The first edges of a sweep of `d`. -/
def Fresh (L : Ladder) (d : Dir) (p : Ports) (k : Nat) (r : Registers) : Prop :=
  OnRung L d p d.sweep k r ∧ r.periodCnt.toNat ≤ 2

/-- In the interrupt state of `d`, with `j` edges to wait. -/
def Held (L : Ladder) (d : Dir) (p : Ports) (k j : Nat) (r : Registers) : Prop :=
  OnRung L d p d.int k r ∧ r.periodCnt.toNat + 1 + j = period.toNat

def Acknowledged (L : Ladder) (d : Dir) (p : Ports) (k : Nat) (r : Registers) : Prop :=
  OnRung L d p d.flip.sweep k r ∧ r.periodCnt = period

def Stepped (L : Ladder) (d : Dir) (p : Ports) (k : Nat) (r : Registers) : Prop :=
  OnRung L d p d.flip.int k r ∧ r.periodCnt = 0#32

theorem counter_succ {c : BitVec 32} (h : c.toNat < period.toNat) :
    (counter c).toNat = c.toNat + 1 := by
  rw [counter_toNat (BitVec.le_def.mpr h.le), if_neg h.ne]

/-- A sweep whose limit no rung reaches runs off its last rung. -/
theorem leads_of_out_of_reach
    (hout : ∀ a : BitVec 32, (ladder iterator hi).IsRung a.toNat → ¬ d.Reached p.wData a)
    (k : Nat) : (servoController iterator).Leads (lateAck d p)
      (Fresh (ladder iterator hi) d p k) (WrapsAround iterator) := by
  apply Machine.leads_of_runFrom
  rintro r ⟨h, hc⟩
  obtain ⟨m, hm⟩ := exists_rungsLeft d h.rung
  have hperiod := period_toNat
  refine ⟨m * (period.toNat + 1) + (period.toNat - r.periodCnt.toNat), fun u hu => ?_⟩
  have hwraps : ∀ t < m * (period.toNat + 1) + (period.toNat - r.periodCnt.toNat),
      r.wraps t ≤ m := by
    intro t ht
    rw [hperiod] at ht
    rw [Registers.wraps, hperiod]
    omega
  have hlast : r.wraps (m * (period.toNat + 1) + (period.toNat - r.periodCnt.toNat)) = m := by
    rw [Registers.wraps, hperiod]
    omega
  have hquiet : ∀ t, d.Writes (u t) → (u t).wData = d.limit r := by
    intro t hw
    obtain ⟨r', hr'⟩ := hu t
    rcases lateAck_cases d p r' with hp | hidle
    · rw [hr', hp]
      exact h.limit.symm
    · rw [hr', hidle] at hw
      exact absurd hw (not_writes_idle d)
  -- a limit reached on the way would be reached on the last rung
  have hnot : ∀ j ≤ m, ¬ d.Reached (d.limit r) ((d.move iterator)^[j] r.angleCnt) := by
    intro j hj hreached
    rw [Dir.reached_iterate_move ((room_of_rungsLeft hm).mono hj)] at hreached
    have hend : d.Reached (d.limit r) ((d.move iterator)^[m] r.angleCnt) := by
      rw [Dir.reached_iterate_move (room_of_rungsLeft hm)]
      exact hreached.trans (Nat.mul_le_mul_right _ hj)
    rw [h.limit] at hend
    refine hout _ ?_ hend
    rw [iterate_rungsLeft hm]
    exact isRung_last d
  obtain ⟨hs', ha', -, hc'⟩ := sweep_trace iterator
    (m * (period.toNat + 1) + (period.toNat - r.periodCnt.toNat)) h.currentState
    (BitVec.le_def.mpr (by omega)) (fun t ht => hnot _ (hwraps t ht)) (fun t _ => hquiet t)
  rw [hlast] at ha'
  rw [hperiod] at hc'
  refine wrapsAround_iff.mpr ⟨d, hs', eq_period_iff.mpr ?_, ?_⟩
  · rw [hperiod]
    omega
  · rw [ha']
    exact crosses_last (iterate_rungsLeft hm)

theorem leads_fresh (hw : d.Writes p)
    (hin : ∀ a : BitVec 32, (ladder iterator hi).IsRung a.toNat → d.Reached p.wData a)
    (k : Nat) : (servoController iterator).Leads (lateAck d p)
      (Fresh (ladder iterator hi) d p k)
      (fun r => ∃ j, Held (ladder iterator hi) d p k j r) := by
  apply Machine.leads_of_edge
  rintro r ⟨h, hc⟩
  change ∃ j, Held _ d p k j (edge iterator r (lateAck d p r))
  have hperiod := period_toNat
  have hne : r.currentState ≠ d.int := by
    rw [h.currentState]
    exact (d.int_ne_sweep d).symm
  rw [lateAck_of_ne p hne]
  have hint : (edge iterator r p).currentState = d.int := by
    rw [sweep_currentState p h.currentState, h.limit, if_pos (hin _ h.rung)]
  have hrest : (edge iterator r p).angleCnt = r.angleCnt := by
    rw [sweep_angleCnt p h.currentState, if_neg]
    rw [eq_period_iff]
    omega
  have hnext : (edge iterator r p).periodCnt.toNat = r.periodCnt.toNat + 1 :=
    counter_succ (by omega)
  refine ⟨period.toNat - 1 - (r.periodCnt.toNat + 1), ?_, ?_⟩
  · rw [← hint]
    exact onRung_edge h hw (Or.inl rfl) hrest
  · rw [hnext]
    omega

theorem leads_held_succ (hw : d.Writes p) (k j : Nat) :
    (servoController iterator).Leads (lateAck d p) (Held (ladder iterator hi) d p k (j + 1))
      (Held (ladder iterator hi) d p k j) := by
  apply Machine.leads_of_edge
  rintro r ⟨h, hc⟩
  change Held _ d p k j (edge iterator r (lateAck d p r))
  have hidle : lateAck d p r = idle := if_pos ⟨h.currentState, by omega⟩
  rw [hidle]
  have hint : (edge iterator r idle).currentState = d.int := by
    rw [int_currentState idle h.currentState]
    rfl
  refine ⟨?_, ?_⟩
  · rw [← hint]
    exact onRung_edge h hw (Or.inr rfl) (int_angleCnt idle h.currentState)
  · rw [edge_periodCnt, counter_succ (by omega)]
    omega

theorem leads_held_zero (hw : d.Writes p) (k : Nat) :
    (servoController iterator).Leads (lateAck d p) (Held (ladder iterator hi) d p k 0)
      (Acknowledged (ladder iterator hi) d p k) := by
  apply Machine.leads_of_edge
  rintro r ⟨h, hc⟩
  change Acknowledged _ d p k (edge iterator r (lateAck d p r))
  have hp : lateAck d p r = p := if_neg (fun hn => hn.2 hc)
  rw [hp]
  have hsweep : (edge iterator r p).currentState = d.flip.sweep := by
    rw [int_currentState p h.currentState, we_of_writes hw]
    rfl
  refine ⟨?_, ?_⟩
  · rw [← hsweep]
    exact onRung_edge h hw (Or.inl rfl) (int_angleCnt p h.currentState)
  · rw [eq_period_iff, edge_periodCnt, counter_succ (by omega)]
    exact hc

theorem leads_acknowledged (hw : d.Writes p) (k : Nat) :
    (servoController iterator).Leads (lateAck d p)
      (Acknowledged (ladder iterator hi) d p (k + 1)) (Stepped (ladder iterator hi) d p k) := by
  apply Machine.leads_of_edge
  rintro r ⟨h, hc⟩
  change Stepped _ d p k (edge iterator r (lateAck d p r))
  have hne : r.currentState ≠ d.int := by
    rw [h.currentState]
    exact (d.int_ne_sweep d.flip).symm
  rw [lateAck_of_ne p hne]
  have hint : (edge iterator r p).currentState = d.flip.int := by
    rw [sweep_currentState p h.currentState, if_pos h.back]
  refine ⟨?_, ?_⟩
  · rw [← hint]
    refine onRung_edge_move h hw ?_
    rw [sweep_angleCnt p h.currentState, if_pos hc]
  · rw [edge_periodCnt, hc, counter_period]

theorem leads_stepped (hw : d.Writes p) (k : Nat) :
    (servoController iterator).Leads (lateAck d p) (Stepped (ladder iterator hi) d p k)
      (Fresh (ladder iterator hi) d p k) := by
  apply Machine.leads_of_edge
  rintro r ⟨h, hc⟩
  change Fresh _ d p k (edge iterator r (lateAck d p r))
  have hne : r.currentState ≠ d.int := by
    rw [h.currentState]
    exact d.flip_int_ne
  rw [lateAck_of_ne p hne]
  have hsweep : (edge iterator r p).currentState = d.sweep := by
    rw [int_currentState p h.currentState, we_of_writes hw, Dir.flip_flip]
    rfl
  refine ⟨?_, ?_⟩
  · rw [← hsweep]
    exact onRung_edge h hw (Or.inl rfl) (int_angleCnt p h.currentState)
  · rw [edge_periodCnt, hc]
    decide

/-- A sweep whose limit every rung reaches lets the opposite sweep run off its last
rung. -/
theorem leads_of_behind (hw : d.Writes p)
    (hin : ∀ a : BitVec 32, (ladder iterator hi).IsRung a.toNat → d.Reached p.wData a)
    (k : Nat) : (servoController iterator).Leads (lateAck d p)
      (Fresh (ladder iterator hi) d p k) (WrapsAround iterator) := by
  have hack : ∀ k, (servoController iterator).Leads (lateAck d p)
      (Fresh (ladder iterator hi) d p k) (Acknowledged (ladder iterator hi) d p k) := by
    intro k
    refine (leads_fresh hw hin k).trans (Machine.leads_of_exists fun j => ?_)
    exact (Machine.Leads.countdown (leads_held_succ hw k) j).trans (leads_held_zero hw k)
  have hround : ∀ k, (servoController iterator).Leads (lateAck d p)
      (Fresh (ladder iterator hi) d p (k + 1)) (Fresh (ladder iterator hi) d p k) := fun k =>
    ((hack (k + 1)).trans (leads_acknowledged hw k)).trans (leads_stepped hw k)
  refine ((Machine.Leads.countdown hround k).trans (hack 0)).trans (Machine.leads_of_imp ?_)
  rintro r ⟨h, hc⟩
  exact wrapsAround_iff.mpr
    ⟨d.flip, h.currentState, hc, crosses_last (rungsLeft_zero h.left)⟩

end Round

/-! ## From reset -/

section Reset

variable {iterator : BitVec 32} (hi : 0 < iterator.toNat) {d : Dir} {p : Ports}
  {r : Registers}

/-- The sweep of `d` begins on a rung behind the opposite limit. -/
theorem exists_fresh (hw : d.Writes p) (hs : (edge iterator r p).currentState = d.sweep)
    (ha : (edge iterator r p).angleCnt = r.angleCnt)
    (hrung : (ladder iterator hi).IsRung r.angleCnt.toNat)
    (hback : d.flip.Reached (d.flip.limit r) r.angleCnt)
    (hc : (edge iterator r p).periodCnt.toNat ≤ 2) :
    ∃ k, Fresh (ladder iterator hi) d p k (edge iterator r p) := by
  obtain ⟨k, hk⟩ := exists_rungsLeft d.flip hrung
  refine ⟨k, ⟨hs, limit_edge_of_writes p hw, ?_, ?_, ?_⟩, hc⟩
  · rw [ha]
    exact hrung
  · rw [ha, limit_edge_of_not_writes p (not_writes_flip hw)]
    exact hback
  · rw [ha]
    exact hk

theorem leads_reset_right (hw : Dir.right.Writes p) :
    (servoController iterator).Leads (lateAck .right p) (· = reset)
      (fun r => ∃ k, Fresh (ladder iterator hi) .right p k r) := by
  apply Machine.leads_of_edge
  rintro r rfl
  change ∃ k, Fresh _ .right p k (edge iterator reset (lateAck .right p reset))
  have hs : reset.currentState = Dir.right.sweep := rfl
  have hp : lateAck .right p reset = p := lateAck_of_ne p (by decide)
  have hsweep : (edge iterator reset p).currentState = Dir.right.sweep := by
    rw [sweep_currentState p hs, if_neg (by decide)]
  have hrest : (edge iterator reset p).angleCnt = reset.angleCnt := by
    rw [sweep_angleCnt p hs, if_neg (by decide)]
  rw [hp]
  apply exists_fresh hi hw hsweep hrest (ladder iterator hi).isRung_base (by decide)
  rw [edge_periodCnt]
  decide

def FirstTurn (L : Ladder) (r : Registers) : Prop :=
  r.currentState = .intR ∧ L.IsRung r.angleCnt.toNat ∧
    Dir.right.Reached (Dir.right.limit r) r.angleCnt ∧ r.periodCnt = 1#32

theorem leads_firstTurn (hsmall : iterator.toNat < 2 ^ 12) (hw : Dir.left.Writes p) :
    (servoController iterator).Leads (lateAck .left p) (· = reset)
      (FirstTurn (ladder iterator hi)) := by
  apply Machine.leads_of_runFrom
  rintro r rfl
  have hlt := Triangle.ceilDiv_mul_lt 50000 hi
  have hsteps : Dir.right.steps iterator reset = 50000 ⌈/⌉ iterator.toNat := rfl
  have hroom : Dir.right.Room iterator reset.angleCnt (Dir.right.steps iterator reset) := by
    change 50000 + _ * iterator.toNat < 2 ^ 32
    rw [hsteps]
    omega
  refine ⟨sweepEdges reset.periodCnt.toNat (Dir.right.steps iterator reset) + 1, fun u hu => ?_⟩
  have hquiet : ∀ t, ¬ Dir.right.Writes (u t) := by
    intro t
    obtain ⟨r, hr⟩ := hu t
    rw [hr]
    rcases lateAck_cases .left p r with hp | hidle
    · rw [hp]
      exact not_writes_flip hw
    · rw [hidle]
      exact not_writes_idle .right
  obtain ⟨hs, ha, hl, hc⟩ := sweep_turns (r := reset) (d := .right) (u := u) hi rfl
    (by decide) (by decide) hroom rfl (fun t _ h => absurd h (hquiet t))
  have hangle : ((Dir.right.move iterator)^[Dir.right.steps iterator reset]
      reset.angleCnt).toNat = 50000 + Dir.right.steps iterator reset * iterator.toNat :=
    Dir.iterate_move hroom
  have hreached := (reached_iff_steps_le (r := reset) (d := .right) hi hroom).mpr le_rfl
  refine ⟨hs, ?_, ?_, hc⟩
  · rw [ha, hangle]
    exact (ladder iterator hi).isRung_base.add_mul_step hroom
  · rw [hl, ha]
    exact hreached

theorem leads_reset_left (hsmall : iterator.toNat < 2 ^ 12) (hw : Dir.left.Writes p) :
    (servoController iterator).Leads (lateAck .left p) (· = reset)
      (fun r => ∃ k, Fresh (ladder iterator hi) .left p k r) := by
  refine (leads_firstTurn hi hsmall hw).trans (Machine.leads_of_edge ?_)
  rintro r ⟨hs, hrung, hreached, hc⟩
  change ∃ k, Fresh _ .left p k (edge iterator r (lateAck .left p r))
  have hs' : r.currentState = Dir.right.int := hs
  have hp : lateAck .left p r = p := by
    apply lateAck_of_ne
    rw [hs]
    decide
  have hsweep : (edge iterator r p).currentState = Dir.left.sweep := by
    rw [int_currentState p hs', we_of_writes hw]
    rfl
  have hrest : (edge iterator r p).angleCnt = r.angleCnt := int_angleCnt p hs'
  rw [hp]
  apply exists_fresh hi hw hsweep hrest hrung hreached
  rw [edge_periodCnt, hc]
  decide

theorem leads_reset (hsmall : iterator.toNat < 2 ^ 12) (hw : d.Writes p) :
    (servoController iterator).Leads (lateAck d p) (· = reset)
      (fun r => ∃ k, Fresh (ladder iterator hi) d p k r) := by
  cases d with
  | right => exact leads_reset_right hi hw
  | left => exact leads_reset_left hi hsmall hw

/-- A limit that does not stop its sweep takes some run around the end of the range,
with no other value ever written. -/
theorem exists_wrapsAround (hsmall : iterator.toNat < 2 ^ 12)
    (hp : ¬ WritesStop (ladder iterator hi) p) :
    ∃ u n, (∀ t, u t = p ∨ u t = idle) ∧ WrapsAround iterator (run iterator u n) := by
  simp only [WritesStop, not_forall] at hp
  obtain ⟨d, hw, hstops⟩ := hp
  have hleads : (servoController iterator).Leads (lateAck d p) (· = reset)
      (WrapsAround iterator) := by
    refine (leads_reset hi hsmall hw).trans (Machine.leads_of_exists fun k => ?_)
    rcases reached_of_not_stops hstops with hout | hin
    · exact leads_of_out_of_reach hout k
    · exact leads_of_behind hw hin k
  obtain ⟨n, hn⟩ := hleads.exists_run rfl
  exact ⟨_, n, fun t => lateAck_cases d p _, hn⟩

end Reset

/-! ## The limits that are safe to program -/

def lowestAngle (iterator : BitVec 12) : Nat := 0xC350 % iterator.toNat

def highestAngle (iterator : BitVec 12) : Nat :=
  2 ^ 32 - 1 - (2 ^ 32 - 1 - 0xC350) % iterator.toNat

/-- A value for `max_angle` is above the least angle and at most the greatest one, a
value for `min_angle` at least the least angle and below the greatest one. -/
def SafeWrite (iterator : BitVec 12) (p : Ports) : Prop :=
  p.we = true →
    if p.addr = true then
      lowestAngle iterator < p.wData.toNat ∧ p.wData.toNat ≤ highestAngle iterator
    else
      lowestAngle iterator ≤ p.wData.toNat ∧ p.wData.toNat < highestAngle iterator

theorem resize_toNat (iterator : BitVec 12) : (resize iterator).toNat = iterator.toNat := by
  have hlt := iterator.isLt
  rw [resize, BitVec.toNat_setWidth]
  exact Nat.mod_eq_of_lt (by omega)

theorem safeWrite_iff {iterator : BitVec 12} {p : Ports}
    (hi : 0 < (resize iterator).toNat) :
    SafeWrite iterator p ↔ WritesStop (ladder (resize iterator) hi) p := by
  have hlow : (ladder (resize iterator) hi).bottom = lowestAngle iterator := by
    rw [lowestAngle, ← resize_toNat]
    rfl
  have hhigh : (ladder (resize iterator) hi).top = highestAngle iterator := by
    rw [highestAngle, ← resize_toNat]
    rfl
  unfold SafeWrite WritesStop
  constructor
  · intro h d hw
    cases d with
    | right =>
        have hsafe := h hw.1
        rw [if_pos hw.2] at hsafe
        rw [Dir.Stops, hlow, hhigh]
        exact hsafe
    | left =>
        have hsafe := h hw.1
        rw [hw.2, if_neg Bool.false_ne_true] at hsafe
        rw [Dir.Stops, hlow, hhigh]
        exact hsafe
  · intro h hwe
    rw [← hlow, ← hhigh]
    cases ha : p.addr with
    | true => exact h .right ⟨hwe, ha⟩
    | false => exact h .left ⟨hwe, ha⟩

/-- With all limits safe `angle_cnt` never wraps around, and no other limit is safe. -/
theorem angle_wraps_around (iterator : BitVec 12) (h1 : 1 ≤ iterator.toNat) :
    (∀ u n, (∀ t < n, SafeWrite iterator (u t)) →
      ¬ WrapsAround (resize iterator) (run (resize iterator) u n)) ∧
    (∀ p, ¬ SafeWrite iterator p →
      ∃ u n, (∀ t, u t = p ∨ u t = idle) ∧
        WrapsAround (resize iterator) (run (resize iterator) u n)) := by
  have hi : 0 < (resize iterator).toNat := by
    rw [resize_toNat]
    exact h1
  have hsmall : (resize iterator).toNat < 2 ^ 12 := by
    rw [resize_toNat]
    exact iterator.isLt
  constructor
  · intro u n hu
    exact not_wrapsAround (onLadder_run hi hsmall u n
      (fun t ht => (safeWrite_iff hi).mp (hu t ht)))
  · intro p hp
    rw [safeWrite_iff hi] at hp
    exact exists_wrapsAround hi hsmall hp

def bothLimits (t : Nat) : Ports where
  we := true
  addr := decide (t % 2 = 1)
  wData := if t % 2 = 1 then 51000#32 else 49000#32

/-- At the end of the eighth frame, when the angle is on its second way up. -/
theorem angle_wraps_around_bothLimits :
    (run (resize iteratorDefault) bothLimits 8000007).periodCnt = period ∧
      ¬ WrapsAround (resize iteratorDefault)
        (run (resize iteratorDefault) bothLimits 8000007) := by
  constructor
  · exact BitVec.eq_of_toNat_eq (periodCnt_at _ _ 7 period.toNat (Nat.le_refl _))
  · apply (angle_wraps_around iteratorDefault (by decide)).1
    intro t _ _
    by_cases hodd : t % 2 = 1
    · simp only [bothLimits, hodd, decide_true, if_true]
      decide
    · simp only [bothLimits, hodd, decide_false, Bool.false_eq_true, if_false]
      decide

/-- The largest value that `max_angle` takes is not safe. -/
theorem maxAngle_wraps_around :
    ¬ ∀ (iterator : BitVec 12), 1 ≤ iterator.toNat → ∀ (u : Nat → Ports) (n : Nat),
      ¬ WrapsAround (resize iterator) (run (resize iterator) u n) := by
  intro hclaim
  have hi : 0 < (resize iteratorDefault).toNat := by decide
  have hunsafe : ¬ SafeWrite iteratorDefault ⟨true, true, 0xFFFFFFFF#32⟩ := by
    unfold SafeWrite
    decide
  rw [safeWrite_iff hi] at hunsafe
  obtain ⟨u, n, -, hwraps⟩ := exists_wrapsAround hi (by decide) hunsafe
  exact hclaim iteratorDefault (by decide) u n hwraps

end Esd1.Lab4
