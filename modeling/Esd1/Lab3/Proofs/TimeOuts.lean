import Esd1.Clocked.Timing
import Esd1.Lab3.NiosSystem

/-!
# The schedule of the timer

The counter of `nios_system_timer_0` is a matter of the edges since the last write of a
period register.  Time-outs come every 5000000 edges, and one that is acknowledged before
the next is acknowledged once.
-/

namespace Esd1.Lab3.NiosSystemTimer0

open Clocked

/-- A write of a period register; both restart the counter. -/
def periodWrite (b : Bus 3 16) : Bool := b.wrStrobe 3#3 || b.wrStrobe 2#3

section Edge

variable {r : Registers} (b : Bus 3 16)

theorem internalCounter_reload
    (h : r.forceReload = true ∨ r.counterIsRunning = true ∧ counterIsZero r = true) :
    (edge r b).internalCounter = counterLoadValue := by
  rcases h with hforce | ⟨hrunning, hzero⟩
  · simp [edge, hforce]
  · simp [edge, hrunning, hzero]

theorem internalCounter_count (hforce : r.forceReload = false)
    (hrunning : r.counterIsRunning = true) (hzero : counterIsZero r = false) :
    (edge r b).internalCounter = r.internalCounter - 1#23 := by
  simp [edge, hforce, hrunning, hzero]

theorem internalCounter_hold (hforce : r.forceReload = false)
    (hrunning : r.counterIsRunning = false) :
    (edge r b).internalCounter = r.internalCounter := by
  simp [edge, hforce, hrunning]

end Edge

structure Counts (r : Registers) (e : Nat) : Prop where
  internalCounter : r.internalCounter.toNat + (e - 1) % 5000000 = 4999999
  counterIsRunning : r.counterIsRunning = decide (0 < e)
  delayedCounterIsZero : r.delayedCounterIsZero = true → counterIsZero r = false

namespace Counts

variable {r : Registers} {e : Nat}

theorem counterIsZero_eq (h : Counts r e) :
    counterIsZero r = decide (0 < e ∧ 5000000 ∣ e) := by
  have hcounter := h.internalCounter
  have hzero : counterIsZero r = decide (r.internalCounter.toNat = 0) := by
    rw [counterIsZero, beq_eq_decide, decide_eq_decide]
    exact BitVec.toNat_inj.symm
  rw [hzero, decide_eq_decide]
  omega

theorem timeoutEvent_eq (h : Counts r e) : timeoutEvent r = decide (0 < e ∧ 5000000 ∣ e) := by
  rw [timeoutEvent, ← h.counterIsZero_eq]
  cases hdelayed : r.delayedCounterIsZero with
  | true =>
      rw [h.delayedCounterIsZero hdelayed]
      rfl
  | false => exact Bool.and_true _

theorem edge (h : Counts r e) (b : Bus 3 16) :
    Counts (edge r b) (if r.forceReload then 1 else e + 1) where
  internalCounter := by
    have hcounter := h.internalCounter
    have hrunning := h.counterIsRunning
    have hzero := h.counterIsZero_eq
    cases hforce : r.forceReload with
    | true =>
        rw [internalCounter_reload b (Or.inl hforce), if_pos rfl]
        rfl
    | false =>
        rw [if_neg Bool.false_ne_true, Nat.add_sub_cancel]
        by_cases hpos : 0 < e
        · rw [decide_eq_true hpos] at hrunning
          by_cases hdvd : 5000000 ∣ e
          · rw [decide_eq_true ⟨hpos, hdvd⟩] at hzero
            rw [internalCounter_reload b (Or.inr ⟨hrunning, hzero⟩), Nat.mod_eq_zero_of_dvd hdvd]
            rfl
          · rw [decide_eq_false fun hboth => hdvd hboth.2] at hzero
            rw [internalCounter_count b hforce hrunning hzero, BitVec.toNat_sub_of_le] <;>
              simp only [BitVec.le_def, BitVec.toNat_ofNat]
            all_goals omega
        · rw [decide_eq_false hpos] at hrunning
          rw [internalCounter_hold b hforce hrunning]
          omega
  counterIsRunning := by
    split <;> simp [NiosSystemTimer0.edge]
  delayedCounterIsZero hdelayed := by
    have hzero : counterIsZero r = true := hdelayed
    have hpos := hzero
    rw [h.counterIsZero_eq, decide_eq_true_iff] at hpos
    have hrunning : r.counterIsRunning = true :=
      h.counterIsRunning.trans (decide_eq_true hpos.1)
    rw [counterIsZero, internalCounter_reload b (Or.inr ⟨hrunning, hzero⟩)]
    rfl

theorem reset : Counts machine.reset 0 where
  internalCounter := rfl
  counterIsRunning := rfl
  delayedCounterIsZero := nofun

end Counts

/-! ## Runs -/

section Run

variable (u : Nat → Bus 3 16)

def sinceRestart (t : Nat) : Nat := elapsed (fun j => (machine.run u j).forceReload) t

theorem counts_run (t : Nat) : Counts (machine.run u t) (sinceRestart u t) := by
  induction t with
  | zero => exact Counts.reset
  | succ t ih => exact ih.edge (u t)

theorem timeoutEvent_run (t : Nat) : timeoutEvent (machine.run u t) =
    decide (0 < sinceRestart u t ∧ 5000000 ∣ sinceRestart u t) :=
  (counts_run u t).timeoutEvent_eq

theorem sinceRestart_eq {s n : Nat}
    (hs : s = 0 ∨ ∃ s', s = s' + 1 ∧ periodWrite (u s') = true)
    (hquiet : ∀ j, j + 1 < n → periodWrite (u (s + j)) = false) (hn : 0 < n) :
    sinceRestart u (s + n) = n := by
  obtain ⟨n, rfl⟩ : ∃ k, n = k + 1 := ⟨n - 1, (Nat.sub_add_cancel hn).symm⟩
  have hlater (j : Nat) (hj : j < n) : (machine.run u (s + 1 + j)).forceReload = false := by
    have hwrite := hquiet j (Nat.succ_lt_succ hj)
    rw [Nat.add_right_comm]
    exact hwrite
  have hfirst : sinceRestart u (s + 1) = 1 := by
    rcases hs with rfl | ⟨s', rfl, hwrite⟩
    · rfl
    · exact elapsed_restart hwrite
  calc sinceRestart u (s + (n + 1))
      = sinceRestart u (s + 1 + n) := by rw [Nat.add_right_comm, Nat.add_assoc]
    _ = sinceRestart u (s + 1) + n := elapsed_add n hlater
    _ = n + 1 := by rw [hfirst, Nat.add_comm]

theorem apart {s t : Nat} (hst : s < t) (hs : timeoutEvent (machine.run u s) = true)
    (ht : timeoutEvent (machine.run u t) = true) : s + 5000000 ≤ t := by
  rw [timeoutEvent_run, decide_eq_true_iff] at hs ht
  exact period_apart hst hs.2 ht.2

theorem flag : Flag (fun t => timeoutEvent (machine.run u t)) (fun t => (u t).wrStrobe 0#3)
    (fun t => (machine.run u t).timeoutOccurred) where
  zero := rfl
  succ t := by
    change (if (u t).wrStrobe 0#3 then false else
      if timeoutEvent (machine.run u t) then true else (machine.run u t).timeoutOccurred) = _
    cases timeoutEvent (machine.run u t) <;> rfl

end Run

/-- Whatever is written besides, a time-out comes exactly every 5000000 edges after the
last restart: the reset, or the edge after a write of a period register. -/
theorem time_out_iff (u : Nat → Bus 3 16) {s t : Nat}
    (hs : s = 0 ∨ ∃ s', s = s' + 1 ∧ periodWrite (u s') = true)
    (hquiet : ∀ j, s ≤ j → j + 1 < t → periodWrite (u j) = false) (hst : s < t) :
    timeoutEvent (machine.run u t) = true ↔ 5000000 ∣ t - s := by
  obtain ⟨n, rfl⟩ : ∃ n, t = s + n := ⟨t - s, by omega⟩
  have hn : 0 < n := Nat.lt_add_right_iff_pos.mp hst
  have hsince : sinceRestart u (s + n) = n :=
    sinceRestart_eq u hs (fun j hj => hquiet (s + j) (Nat.le_add_right s j) (by omega)) hn
  rw [timeoutEvent_run, hsince, decide_eq_true_iff, Nat.add_sub_cancel_left]
  exact and_iff_right hn

def restarting (t : Nat) : Bus 3 16 := ⟨2#3, decide (t = 2500000), false, 1#16⟩

/-- The time-out of the first period stays out, and the second one after the restart comes. -/
theorem time_out_iff_restarting :
    timeoutEvent (machine.run restarting 5000000) = false ∧
      timeoutEvent (machine.run restarting 12500001) = true := by
  have hrestart : periodWrite (restarting 2500000) = true := by decide
  have hquiet (j : Nat) (hj : 2500001 ≤ j) : periodWrite (restarting j) = false := by
    have hne : decide (j = 2500000) = false := decide_eq_false (by omega)
    simp [periodWrite, Bus.wrStrobe, Bus.write, restarting, hne]
  constructor
  · rw [← Bool.not_eq_true, time_out_iff restarting (Or.inr ⟨2500000, rfl, hrestart⟩)
      (fun j hj _ => hquiet j hj) (by decide)]
    decide
  · rw [time_out_iff restarting (Or.inr ⟨2500000, rfl, hrestart⟩)
      (fun j hj _ => hquiet j hj) (by decide)]
    decide

/-- A driver that acknowledges only what it has seen, and does so within a period, meets no
time-out while one is pending, and acknowledges each of them exactly once.  Period writes
make no difference. -/
theorem acknowledged_once (u : Nat → Bus 3 16)
    (hseen : ∀ t, (u t).wrStrobe 0#3 = true → (machine.run u t).timeoutOccurred = true)
    (hprompt : ∀ t, timeoutEvent (machine.run u t) = true →
      ∃ j, t < j ∧ j < t + 5000000 ∧ (u j).wrStrobe 0#3 = true) (n : Nat) :
    (timeoutEvent (machine.run u n) = true → (machine.run u n).timeoutOccurred = false) ∧
      Nat.count (fun t => timeoutEvent (machine.run u t) = true) n =
        Nat.count (fun t => (u t).wrStrobe 0#3 = true) n +
          (machine.run u n).timeoutOccurred.toNat := by
  have hlow (t : Nat) (ht : timeoutEvent (machine.run u t) = true) :
      (machine.run u t).timeoutOccurred = false :=
    (flag u).low_of_prompt (fun _ hst hs => apart u hst hs ht) fun s _ => hprompt s
  exact ⟨hlow n, (flag u).count_eq n (fun t _ => hlow t) fun t _ => hseen t⟩

def acknowledging (t : Nat) : Bus 3 16 :=
  ⟨0#3, decide (1 < t ∧ 5000000 ∣ t - 1), false, 0#16⟩

theorem acknowledged_once_acknowledging :
    Nat.count (fun t => timeoutEvent (machine.run acknowledging t) = true) 10000002 =
      Nat.count (fun t => (acknowledging t).wrStrobe 0#3 = true) 10000002 +
        (machine.run acknowledging 10000002).timeoutOccurred.toNat := by
  have hwrite (t : Nat) : (acknowledging t).wrStrobe 0#3 = decide (1 < t ∧ 5000000 ∣ t - 1) := by
    simp [acknowledging, Bus.wrStrobe, Bus.write]
  have hquiet (t : Nat) : periodWrite (acknowledging t) = false := by
    simp [acknowledging, periodWrite, Bus.wrStrobe]
  have hsince (t : Nat) (ht : 0 < t) : sinceRestart acknowledging t = t := by
    have heq := sinceRestart_eq acknowledging (s := 0) (Or.inl rfl)
      (fun j _ => hquiet (0 + j)) ht
    rwa [Nat.zero_add] at heq
  refine (acknowledged_once acknowledging ?_ ?_ 10000002).2
  · intro t ht
    rw [hwrite, decide_eq_true_iff] at ht
    obtain ⟨t, rfl⟩ : ∃ k, t = k + 1 := ⟨t - 1, by omega⟩
    have hevent : timeoutEvent (machine.run acknowledging t) = true := by
      rw [timeoutEvent_run, hsince t (by omega), decide_eq_true_iff]
      omega
    have hother : (acknowledging t).wrStrobe 0#3 = false := by
      rw [hwrite, decide_eq_false_iff_not]
      omega
    rw [(flag acknowledging).succ, hother, hevent]
    rfl
  · intro t ht
    rw [timeoutEvent_run, decide_eq_true_iff] at ht
    have hpos : 0 < t := Nat.pos_of_ne_zero fun hzero => by subst hzero; exact Nat.lt_irrefl 0 ht.1
    rw [hsince t hpos] at ht
    refine ⟨t + 1, Nat.lt_succ_self t, by omega, ?_⟩
    rw [hwrite, decide_eq_true_iff]
    omega

end Esd1.Lab3.NiosSystemTimer0
