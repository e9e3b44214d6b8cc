import Esd1.Clocked.Frames
import Esd1.Lab3.NiosSystem
import Mathlib.Data.Fintype.Basic
import Mathlib.Tactic.FinCases

/-!
# Cycles of the peripherals as events

A clock cycle of the parallel port is its falling edges, one event a key, and then
the write of the bus; a cycle of the timer is a time-out or none, and then the
write.  A falling edge on a pin is one event, two cycles after the pin fell.
-/

namespace Esd1.Lab3

namespace Pushbuttons

variable (p : Pushbuttons)

@[simp] theorem irqMask_fallingEdge (k : Fin 4) : (p.fallingEdge k).irqMask = p.irqMask := rfl

theorem captured_fallingEdge (k j : Fin 4) :
    (p.fallingEdge k).captured j = (p.captured j || decide (k = j)) := by
  unfold captured fallingEdge
  rw [BitVec.getLsbD_or, BitVec.getLsbD_twoPow, decide_eq_true k.isLt, Bool.true_and]
  simp only [Fin.ext_iff]

/-- Whatever is written to `edge_capture`, no edge stays captured. -/
@[simp] theorem captured_write_edgeCapture (writedata : BitVec 32) (k : Fin 4) :
    (p.write 3#2 writedata).captured k = false := by
  exact BitVec.getLsbD_zero

theorem irq_of_mask {k : Fin 4} (h : p.irqMask = BitVec.twoPow 4 k) : p.irq = p.captured k := by
  obtain ⟨edgeCapture, irqMask⟩ := p
  subst h
  unfold irq captured
  revert k edgeCapture
  decide

theorem eq_of_captured {p q : Pushbuttons} (hmask : p.irqMask = q.irqMask)
    (hcaptured : ∀ k, p.captured k = q.captured k) : p = q := by
  obtain ⟨edgeCapture, irqMask⟩ := p
  obtain ⟨edgeCapture', irqMask'⟩ := q
  have hedge : edgeCapture = edgeCapture' :=
    BitVec.eq_of_getLsbD_eq (fun k hk => hcaptured ⟨k, hk⟩)
  rw [hedge, show irqMask = irqMask' from hmask]

theorem irqMask_foldl (ks : List (Fin 4)) :
    (ks.foldl fallingEdge p).irqMask = p.irqMask := by
  induction ks generalizing p with
  | nil => rfl
  | cons k ks ih => rw [List.foldl_cons, ih, irqMask_fallingEdge]

theorem captured_foldl (ks : List (Fin 4)) (j : Fin 4) :
    (ks.foldl fallingEdge p).captured j = (p.captured j || decide (j ∈ ks)) := by
  induction ks generalizing p with
  | nil => simp
  | cons k ks ih =>
      rw [List.foldl_cons, ih, captured_fallingEdge, Bool.or_assoc]
      simp only [List.mem_cons, Bool.decide_or, eq_comm]

end Pushbuttons

/-! ## Cycles of the parallel port -/

namespace NiosSystemPushbuttons

open Pushbuttons

def view (r : Registers) : Pushbuttons := ⟨r.edgeCapture, r.irqMask⟩

theorem irq_view (r : Registers) : (view r).irq = irq r := rfl

def fallingKeys (r : Registers) : List (Fin 4) :=
  (List.finRange 4).filter fun k => (edgeDetect r).getLsbD k

/-- The events of a cycle: its falling edges, and then the write of the bus. -/
def events (r : Registers) (i : Inputs) : List Pushbuttons.Event :=
  (fallingKeys r).map .fallingEdge ++
    if i.bus.write then [.write i.bus.address i.bus.writedata] else []

theorem mem_fallingKeys {r : Registers} {k : Fin 4} :
    k ∈ fallingKeys r ↔ (edgeDetect r).getLsbD k = true := by
  unfold fallingKeys
  rw [List.mem_filter, and_iff_right (List.mem_finRange k)]

theorem foldl_fallingKeys (r : Registers) : (fallingKeys r).foldl fallingEdge (view r) =
    ⟨r.edgeCapture ||| edgeDetect r, r.irqMask⟩ := by
  apply eq_of_captured
  · exact irqMask_foldl _ _
  · intro k
    have hmem : decide (k ∈ fallingKeys r) = (edgeDetect r).getLsbD k := by
      rw [Bool.eq_iff_iff, decide_eq_true_iff, mem_fallingKeys]
    rw [captured_foldl, hmem]
    unfold captured
    rw [BitVec.getLsbD_or]
    rfl

theorem view_edge (r : Registers) (i : Inputs) :
    view (edge r i) = (events r i).foldl act (view r) := by
  have hedges : ((fallingKeys r).map Pushbuttons.Event.fallingEdge).foldl act (view r) =
      ⟨r.edgeCapture ||| edgeDetect r, r.irqMask⟩ := by
    rw [List.foldl_map]
    exact foldl_fallingKeys r
  unfold events
  rw [List.foldl_append, hedges]
  unfold view edge Bus.wrStrobe
  cases hwrite : i.bus.write with
  | false => rfl
  | true =>
      by_cases h2 : i.bus.address = 2#2
      · simp [act, Pushbuttons.write, h2]
      · by_cases h3 : i.bus.address = 3#2
        · simp [act, Pushbuttons.write, h3]
        · simp [act, Pushbuttons.write, h2, h3]

theorem readdata_edge (r : Registers) (i : Inputs) (h : i.bus.address = 3#2) :
    (edge r i).readdata = (view r).edgeCapture.setWidth 32 := by
  simp [edge, readMuxOut, view, h]

section Run

variable (u : Nat → Inputs)

def runEvents (n : Nat) : List Pushbuttons.Event :=
  (List.range n).flatMap fun t => events (machine.run u t) (u t)

/-- To software a run of the hardware is the run of its events. -/
theorem view_run (n : Nat) : view (machine.run u n) = (runEvents u n).foldl act ⟨0#4, 0#4⟩ :=
  machine.run_view view act events view_edge u n

theorem edgeDetect_run (t : Nat) (k : Fin 4) :
    (edgeDetect (machine.run u (t + 2))).getLsbD k =
      ((u t).inPort.getLsbD k && !(u (t + 1)).inPort.getLsbD k) := by
  have hd1 : (machine.run u (t + 2)).d1DataIn = (u (t + 1)).inPort := rfl
  have hd2 : (machine.run u (t + 2)).d2DataIn = (u t).inPort := rfl
  unfold edgeDetect
  rw [hd1, hd2, BitVec.getLsbD_and, BitVec.getLsbD_not, decide_eq_true k.isLt, Bool.true_and,
    Bool.and_comm]

theorem count_events (r : Registers) (i : Inputs) (k : Fin 4) :
    (events r i).count (.fallingEdge k) =
      if (edgeDetect r).getLsbD k = true then 1 else 0 := by
  have hwrite : (if i.bus.write then [Pushbuttons.Event.write i.bus.address i.bus.writedata]
      else []).count (.fallingEdge k) = 0 := by
    split <;> rfl
  have hinj : Function.Injective Pushbuttons.Event.fallingEdge :=
    fun _ _ h => Pushbuttons.Event.fallingEdge.inj h
  have hnodup : (fallingKeys r).Nodup := (List.nodup_finRange 4).filter _
  unfold events
  rw [List.count_append, hwrite, Nat.add_zero, List.count_map_of_injective _ _ hinj,
    hnodup.count]
  simp only [mem_fallingKeys]

theorem count_runEvents_succ (k : Fin 4) (n : Nat) :
    (runEvents u (n + 1)).count (.fallingEdge k) = (runEvents u n).count (.fallingEdge k) +
      if (edgeDetect (machine.run u n)).getLsbD k = true then 1 else 0 := by
  unfold runEvents
  rw [List.range_succ, List.flatMap_append, List.count_append, List.flatMap_singleton,
    count_events]

/-- No falling edge of a pin is missed or captured twice: the events of a key are the
falls of its pin, two cycles later. -/
theorem count_fallingEdge (k : Fin 4) (n : Nat) :
    (runEvents u (n + 2)).count (.fallingEdge k) =
      Clocked.falls (fun t => (u t).inPort.getLsbD k) n := by
  induction n with
  | zero =>
      have hnone : ∀ t, (machine.run u t).d2DataIn = 0#4 →
          (edgeDetect (machine.run u t)).getLsbD k = false := by
        intro t hd2
        rw [edgeDetect, hd2, BitVec.and_zero, BitVec.getLsbD_zero]
      rw [count_runEvents_succ, count_runEvents_succ, hnone 0 rfl, hnone 1 rfl]
      rfl
  | succ n ih =>
      rw [count_runEvents_succ, ih, Clocked.falls_succ, edgeDetect_run]
      simp only [Bool.and_eq_true, Bool.not_eq_true']

end Run

end NiosSystemPushbuttons

/-! ## Cycles of the timer -/

namespace NiosSystemTimer0

open Timer

def view (r : Registers) : Timer := ⟨r.timeoutOccurred, r.controlRegister⟩

theorem irq_view (r : Registers) : (view r).irq = irq r := rfl

def events (r : Registers) (b : Bus 3 16) : List Timer.Event :=
  (if timeoutEvent r then [.timeOut] else []) ++
    if b.write then [.write b.address b.writedata] else []

theorem view_edge (r : Registers) (b : Bus 3 16) :
    view (edge r b) = (events r b).foldl act (view r) := by
  unfold view edge events Bus.wrStrobe
  cases timeoutEvent r <;> cases hwrite : b.write with
  | false => rfl
  | true =>
      by_cases h0 : b.address = 0#3
      · simp [act, Timer.write, Timer.timeOut, h0]
      · by_cases h1 : b.address = 1#3
        · simp [act, Timer.write, Timer.timeOut, h1]
        · simp [act, Timer.write, Timer.timeOut, h0, h1]

theorem view_run (u : Nat → Bus 3 16) (n : Nat) : view (machine.run u n) =
    ((List.range n).flatMap fun t => events (machine.run u t) (u t)).foldl act
      ⟨false, false⟩ :=
  machine.run_view view act events view_edge u n

end NiosSystemTimer0

end Esd1.Lab3
