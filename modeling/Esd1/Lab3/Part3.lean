import Esd1.Interleaving.Runs
import Esd1.Lab3.NiosSystem

/-!
# `Part3.c`

The two interrupt service routines of `Part3.c`, one bus access at a time, and the
system they run in: the processor, the parallel port of the keys, the timer, the
LEDs, the display and the switches.  The HAL calls one routine at a time, and only
while its interrupt line is high.

A routine is its program counter together with the local variables that are live
there.  `arrayIDX` is a static of `pushbutton_isr`, so it belongs to the system.
-/

namespace Esd1.Lab3

open Interleaving

def hexValues : List (BitVec 8) :=
  [0x40#8, 0x79#8, 0x24#8, 0x30#8, 0x19#8, 0x12#8, 0x02#8, 0x78#8, 0x00#8, 0x18#8]

def interruptOffset : BitVec 2 := 2#2

/-- `Interruptmask`, the offset of `edge_capture`. -/
def interruptmask : BitVec 2 := 3#2

def key1 : Fin 4 := 1

inductive PushbuttonPc where
  | loadSwitches
  | updateIdx (switchVal : BitVec 8)
  | storeHex
  | loadEdgeCapture
  | storeEdgeCapture (value : BitVec 32)
  deriving DecidableEq, Repr

inductive Timer0Pc where
  | storeStatus
  | loadLeds
  | storeLeds (currentVal : BitVec 8)
  deriving DecidableEq, Repr

inductive Cpu where
  | mainLoop
  | pushbuttonIsr (pc : PushbuttonPc)
  | timer0Isr (pc : Timer0Pc)
  deriving DecidableEq, Repr

structure System where
  pushbuttons : Pushbuttons
  timer : Timer
  leds : BitVec 8
  hex0 : BitVec 7
  switches : BitVec 8
  arrayIdx : BitVec 16
  cpu : Cpu
  deriving DecidableEq, Repr

/-- The `switch` statement of `pushbutton_isr` up to the store to the display, which
follows only where the index changes. -/
def updateIdx (s : System) (switchVal : BitVec 8) : System :=
  if switchVal = 0x00#8 then
    if s.arrayIdx = 0#16 then
      { s with cpu := .pushbuttonIsr .loadEdgeCapture }
    else
      { s with
        arrayIdx := s.arrayIdx - 1#16
        cpu := .pushbuttonIsr .storeHex }
  else if switchVal = 0x01#8 then
    if s.arrayIdx = 9#16 then
      { s with cpu := .pushbuttonIsr .loadEdgeCapture }
    else
      { s with
        arrayIdx := s.arrayIdx + 1#16
        cpu := .pushbuttonIsr .storeHex }
  else { s with cpu := .pushbuttonIsr .loadEdgeCapture }

/-- One access of `pushbutton_isr`.  An access of `hexValues` out of bounds has no
successor. -/
def pushbuttonIsr (s : System) : PushbuttonPc → Option System
  | .loadSwitches => some { s with cpu := .pushbuttonIsr (.updateIdx s.switches) }
  | .updateIdx switchVal => some (updateIdx s switchVal)
  | .storeHex =>
      hexValues[s.arrayIdx.toNat]?.map fun segments =>
        { s with
          hex0 := segments.setWidth 7
          cpu := .pushbuttonIsr .loadEdgeCapture }
  | .loadEdgeCapture =>
      some { s with
        cpu := .pushbuttonIsr (.storeEdgeCapture (s.pushbuttons.edgeCapture.setWidth 32)) }
  | .storeEdgeCapture value =>
      some { s with
        pushbuttons := s.pushbuttons.write interruptmask (value &&& ~~~0x02#32)
        cpu := .mainLoop }

def timer0Isr (s : System) : Timer0Pc → System
  | .storeStatus =>
      { s with
        timer := s.timer.write 0#3 0#16
        cpu := .timer0Isr .loadLeds }
  | .loadLeds => { s with cpu := .timer0Isr (.storeLeds s.leds) }
  | .storeLeds currentVal =>
      { s with
        leds := currentVal + 1#8
        cpu := .mainLoop }

inductive Event where
  | keyEdge (k : Fin 4)
  | timeOut
  | setSwitches (v : BitVec 8)
  | enterPushbuttonIsr
  | enterTimer0Isr
  | pushbuttonIsr (pc : PushbuttonPc)
  | timer0Isr (pc : Timer0Pc)
  deriving DecidableEq, Repr

def step (s : System) : Event → Option System
  | .keyEdge k => some { s with pushbuttons := s.pushbuttons.fallingEdge k }
  | .timeOut => some { s with timer := s.timer.timeOut }
  | .setSwitches v => some { s with switches := v }
  | .enterPushbuttonIsr =>
      if s.cpu = .mainLoop ∧ s.pushbuttons.irq then
        some { s with cpu := .pushbuttonIsr .loadSwitches }
      else none
  | .enterTimer0Isr =>
      if s.cpu = .mainLoop ∧ s.timer.irq then
        some { s with cpu := .timer0Isr .storeStatus }
      else none
  | .pushbuttonIsr pc => if s.cpu = .pushbuttonIsr pc then pushbuttonIsr s pc else none
  | .timer0Isr pc => if s.cpu = .timer0Isr pc then some (timer0Isr s pc) else none

/-! ## Start-up -/

def reset (switches : BitVec 8) : System where
  pushbuttons := ⟨0#4, 0#4⟩
  timer := ⟨false, false⟩
  leds := 0#8
  hex0 := 0#7
  switches := switches
  arrayIdx := 0#16
  cpu := .mainLoop

/-- `alt_sys_init` starts the timer as the system clock: `ITO`, `CONT` and `START`. -/
def altSysInit (s : System) : System :=
  { s with timer := s.timer.write 1#3 0x0007#16 }

/-- `main` up to its loop.  The second `|=` meets the period register of the timer,
which reads as zero. -/
def main (s : System) : System :=
  { s with
    hex0 := (hexValues.get ⟨0, by decide⟩).setWidth 7
    pushbuttons := s.pushbuttons.write interruptOffset
      (s.pushbuttons.irqMask.setWidth 32 ||| 0x02#32)
    timer := s.timer.write 2#3 (0x0000#16 ||| 0x0002#16) }

/-- The end of `main`'s initialisation, with no key edge captured and no time-out
pending. -/
structure Start (s : System) : Prop where
  cpu : s.cpu = .mainLoop
  arrayIdx : s.arrayIdx = 0#16
  hex0 : hexValues[0]? = some (s.hex0.setWidth 8)
  timeoutOccurred : s.timer.timeoutOccurred = false
  controlRegister : s.timer.controlRegister = true
  edgeCapture : s.pushbuttons.edgeCapture = 0#4
  irqMask : s.pushbuttons.irqMask = 2#4

theorem start_main (switches : BitVec 8) : Start (main (altSysInit (reset switches))) where
  cpu := rfl
  arrayIdx := rfl
  hex0 := rfl
  timeoutOccurred := rfl
  controlRegister := rfl
  edgeCapture := rfl
  irqMask := show ((0#4).setWidth 32 ||| 0x02#32).setWidth 4 = 2#4 by decide

end Esd1.Lab3
