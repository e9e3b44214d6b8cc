import Esd1.Hal.Proofs.JtagUart
import Esd1.Lab3.AltIrq
import Esd1.Lab3.Proofs.Part3

/-!
# The steps of the dispatch

The events come in classes: the environment of the devices, the foreground, the entry
code with its scan, the calls, and the steps inside a routine.  There is one inversion
lemma for all of them, and one frame lemma for each class.
-/

namespace Esd1.Lab3.AltIrq

variable {s s' : State} {e : Event}

/-! ## The classes -/

/-- The environment of the devices of `Part3.lean`. -/
def Event.devices : Event → Option Lab3.Event
  | .keyEdge k => some (.keyEdge k)
  | .timeOut => some .timeOut
  | .setSwitches v => some (.setSwitches v)
  | _ => none

def Event.host : Event → Option Hal.Event
  | .hostTake b => some (.hostTake b)
  | .hostGive b => some (.hostGive b)
  | .hostPause => some .hostPause
  | _ => none

def Event.routine : Event → Option (Handler × Lab3.Event)
  | .pushbuttonIsr pc => some (.pushbuttonIsr, .pushbuttonIsr pc)
  | .timer0Isr pc => some (.timer0Isr, .timer0Isr pc)
  | _ => none

/-- The interrupt routine of the JTAG UART, and the callback of its alarm. -/
def Event.driver : Event → Option (Exception × Hal.Event)
  | .jtagUartIrq late => some (.isr .alteraAvalonJtagUartIrq, .irq late)
  | .timeout => some (.callback, .timeout)
  | _ => none

/-- The entry code and the scan go on. -/
inductive Moves (s : State) : Exception → Exception → Prop
  | entry (hestatus : s.estatus = true) (hpending : s.ipending ≠ 0#32) :
      Moves s .entry .pending
  | pending : Moves s .pending (.scan s.ipending 1#32 0)
  | scan {active mask : BitVec 32} {i : Nat} (hclear : active &&& mask = 0#32) :
      Moves s (.scan active mask i) (.scan active (mask <<< 1) (i + 1))
  | again (hpending : s.ipending ≠ 0#32) : Moves s .again (.scan s.ipending 1#32 0)

inductive Stepped (s : State) : Event → State → Prop
  | devices {e : Event} {e' : Lab3.Event} {l : System} (he : e.devices = some e')
      (hl : Lab3.step s.lab3 e' = some l) : Stepped s e { s with lab3 := l }
  | host {e : Event} {e' : Hal.Event} {j : Hal.System} (he : e.host = some e')
      (hj : Hal.step s.jtag e' = some j) : Stepped s e { s with jtag := j }
  | main (hexc : s.exception = .none) : Stepped s .main (mainStep s)
  | interrupt (hexc : s.exception = .none) (hpie : s.pie = true) (hpending : s.ipending ≠ 0#32) :
      Stepped s .interrupt { s with pie := false, estatus := s.pie, exception := .entry }
  | dispatch {x y : Exception} (hexc : s.exception = x) (hmoves : Moves s x y) :
      Stepped s .dispatch { s with exception := y }
  | eret (hexc : s.exception = .again) :
      Stepped s .dispatch { s with pie := s.estatus, exception := .none }
  | call {handler : Handler} {active mask : BitVec 32} {i : Nat} {s' : State}
      (hexc : s.exception = .scan active mask i) (hset : active &&& mask ≠ 0#32)
      (hhandler : (s.altIrq i).handler = some handler)
      (henter : enter s handler (s.altIrq i).context = some s') : Stepped s (.call handler) s'
  | routine {e : Event} {handler : Handler} {e' : Lab3.Event} {l : System}
      (he : e.routine = some (handler, e')) (hexc : s.exception = .isr handler)
      (hl : Lab3.step s.lab3 e' = some l) :
      Stepped s e (State.returnIf { s with lab3 := l } (l.cpu = .mainLoop))
  | driver {e : Event} {x : Exception} {e' : Hal.Event} {j : Hal.System}
      (he : e.driver = some (x, e')) (hexc : s.exception = x)
      (hj : Hal.step s.jtag e' = some j) :
      Stepped s e (State.returnIf { s with jtag := j } (j.isr = .idle))
  | timerScIrq (hexc : s.exception = .isr .altAvalonTimerScIrq) :
      Stepped s .timerScIrq
        { s with lab3.timer := s.lab3.timer.write 0#3 0#16, exception := .tick }
  | callback (hexc : s.exception = .tick) :
      Stepped s (.tick true) { s with jtag.isr := .timeout .loadControl, exception := .callback }
  | ticked (hexc : s.exception = .tick) :
      Stepped s (.tick false) { s with exception := .again }

theorem lab3Step_eq_some {e : Lab3.Event} :
    lab3Step s e = some s' ↔ ∃ l, Lab3.step s.lab3 e = some l ∧ { s with lab3 := l } = s' :=
  Option.map_eq_some_iff

theorem jtagStep_eq_some {e : Hal.Event} :
    jtagStep s e = some s' ↔ ∃ j, Hal.step s.jtag e = some j ∧ { s with jtag := j } = s' :=
  Option.map_eq_some_iff

theorem stepped_dispatch (h : dispatch s = some s') : Stepped s .dispatch s' := by
  unfold dispatch at h
  split at h
  · next hexc =>
      obtain ⟨⟨hestatus, hpending⟩, ⟨⟩⟩ := Option.ite_none_right_eq_some.mp h
      exact .dispatch hexc (.entry hestatus hpending)
  · next hexc =>
      cases h
      exact .dispatch hexc .pending
  · next hexc =>
      obtain ⟨hclear, ⟨⟩⟩ := Option.ite_none_right_eq_some.mp h
      exact .dispatch hexc (.scan hclear)
  · next hexc =>
      split at h
      · next hpending =>
          cases h
          exact .dispatch hexc (.again hpending)
      · cases h
        exact .eret hexc
  · cases h

theorem stepped_call {handler : Handler} (h : call s handler = some s') :
    Stepped s (.call handler) s' := by
  unfold call at h
  split at h
  · next hexc =>
      obtain ⟨⟨hset, -, hhandler⟩, henter⟩ := Option.ite_none_right_eq_some.mp h
      exact .call hexc hset hhandler henter
  · cases h

/-- What a step can do. -/
theorem stepped (h : step s e = some s') : Stepped s e s' := by
  cases e with
  | keyEdge | timeOut | setSwitches =>
      obtain ⟨l, hl, rfl⟩ := lab3Step_eq_some.mp h
      exact .devices rfl hl
  | hostTake | hostGive | hostPause =>
      obtain ⟨j, hj, rfl⟩ := jtagStep_eq_some.mp h
      exact .host rfl hj
  | main =>
      obtain ⟨hexc, ⟨⟩⟩ := Option.ite_none_right_eq_some.mp h
      exact .main hexc
  | interrupt =>
      obtain ⟨⟨hexc, hpie, hpending⟩, ⟨⟩⟩ := Option.ite_none_right_eq_some.mp h
      exact .interrupt hexc hpie hpending
  | dispatch => exact stepped_dispatch h
  | call handler => exact stepped_call h
  | pushbuttonIsr | timer0Isr =>
      obtain ⟨hexc, h⟩ := Option.ite_none_right_eq_some.mp h
      obtain ⟨t, ht, rfl⟩ := Option.map_eq_some_iff.mp h
      obtain ⟨l, hl, rfl⟩ := lab3Step_eq_some.mp ht
      exact .routine rfl hexc hl
  | jtagUartIrq | timeout =>
      obtain ⟨hexc, h⟩ := Option.ite_none_right_eq_some.mp h
      obtain ⟨t, ht, rfl⟩ := Option.map_eq_some_iff.mp h
      obtain ⟨j, hj, rfl⟩ := jtagStep_eq_some.mp ht
      exact .driver rfl hexc hj
  | timerScIrq =>
      obtain ⟨hexc, ⟨⟩⟩ := Option.ite_none_right_eq_some.mp h
      exact .timerScIrq hexc
  | tick callback =>
      obtain ⟨hexc, h⟩ := Option.ite_none_right_eq_some.mp h
      cases callback with
      | true =>
          obtain ⟨-, ⟨⟩⟩ := Option.ite_none_right_eq_some.mp h
          exact .callback hexc
      | false =>
          cases h
          exact .ticked hexc

/-! ## What stays -/

theorem register_frame (s : State) (r : Registration) (pc : RegisterPc) :
    (register s r pc).exception = s.exception ∧ (register s r pc).lab3 = s.lab3 ∧
      (register s r pc).jtag = s.jtag := by
  cases pc with
  | disableAll =>
      simp only [register]
      split
      all_goals exact ⟨rfl, rfl, rfl⟩
  | _ => exact ⟨rfl, rfl, rfl⟩

theorem mainStep_frame (s : State) :
    (mainStep s).exception = s.exception ∧ (mainStep s).lab3.cpu = s.lab3.cpu ∧
      (mainStep s).jtag.isr = s.jtag.isr := by
  unfold mainStep
  split
  · exact ⟨rfl, rfl, rfl⟩
  · next op rest _ =>
      cases op with
      | register r =>
          obtain ⟨hexc, hlab3, hjtag⟩ := register_frame s r s.main.registerPc
          exact ⟨hexc, congrArg System.cpu hlab3, congrArg Hal.System.isr hjtag⟩
      | _ => exact ⟨rfl, rfl, rfl⟩

theorem enter_frame {handler : Handler} {context : Context}
    (h : enter s handler context = some s') :
    s' = { s with
      exception := .isr handler
      lab3.cpu := s'.lab3.cpu
      jtag.isr := s'.jtag.isr } := by
  cases handler with
  | altAvalonTimerScIrq | alteraAvalonJtagUartIrq =>
      obtain ⟨-, ⟨⟩⟩ := Option.ite_none_right_eq_some.mp h
      rfl
  | pushbuttonIsr | timer0Isr =>
      cases h
      rfl

/-- The registers of the devices that the routines and the environment do not write. -/
structure SameSetup (l l' : System) : Prop where
  controlRegister : l'.timer.controlRegister = l.timer.controlRegister
  irqMask : l'.pushbuttons.irqMask = l.pushbuttons.irqMask

theorem devices_frame {e' : Lab3.Event} {l l' : System} (he : e.devices = some e')
    (hl : Lab3.step l e' = some l') : l'.cpu = l.cpu ∧ SameSetup l l' := by
  cases e with
  | keyEdge | timeOut | setSwitches =>
      cases he
      cases hl
      exact ⟨rfl, rfl, rfl⟩
  | _ => cases he

theorem host_frame {e' : Hal.Event} {j j' : Hal.System} (he : e.host = some e')
    (hj : Hal.step j e' = some j') : j'.isr = j.isr ∧ j'.driver = j.driver := by
  cases e with
  | hostTake | hostGive =>
      cases he
      obtain ⟨-, ⟨⟩⟩ := Option.ite_none_right_eq_some.mp hj
      exact ⟨rfl, rfl⟩
  | hostPause =>
      cases he
      cases hj
      exact ⟨rfl, rfl⟩
  | _ => cases he

theorem routine_frame {handler : Handler} {e' : Lab3.Event} {l l' : System}
    (he : e.routine = some (handler, e')) (hl : Lab3.step l e' = some l') : SameSetup l l' := by
  cases e with
  | pushbuttonIsr pc =>
      cases he
      obtain ⟨hport, htimer⟩ := peripherals_step hl
      refine ⟨by rw [htimer]; rfl, ?_⟩
      rw [hport]
      cases pc with
      | storeEdgeCapture value => rfl
      | _ => rfl
  | timer0Isr pc =>
      cases he
      obtain ⟨-, rfl⟩ := step_timer0Isr hl
      cases pc with
      | _ => exact ⟨rfl, rfl⟩
  | _ => cases he

structure Background (s s' : State) : Prop where
  main : s'.main = s.main
  altIrq : s'.altIrq = s.altIrq
  ienable : s'.ienable = s.ienable
  altIrqActive : s'.altIrqActive = s.altIrqActive
  setup : SameSetup s.lab3 s'.lab3

theorem background (hstep : step s e = some s') (hne : e ≠ .main) : Background s s' := by
  cases stepped hstep with
  | main => exact absurd rfl hne
  | devices he hl => exact ⟨rfl, rfl, rfl, rfl, (devices_frame he hl).2⟩
  | routine he _ hl => exact ⟨rfl, rfl, rfl, rfl, routine_frame he hl⟩
  | call _ _ _ henter =>
      rw [enter_frame henter]
      exact ⟨rfl, rfl, rfl, rfl, rfl, rfl⟩
  | host | interrupt | dispatch | eret | driver | timerScIrq | callback | ticked =>
      exact ⟨rfl, rfl, rfl, rfl, rfl, rfl⟩

end Esd1.Lab3.AltIrq
