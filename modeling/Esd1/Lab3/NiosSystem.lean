import Esd1.Clocked.Machine

/-!
# The peripherals of `nios_system`

The parallel port `nios_system_pushbuttons.v` and the interval timer
`nios_system_timer_0.v`, one clock cycle at a time, and under them what software
sees of each: the registers that the bus reads and writes, with one operation an
event.  `Proofs/NiosSystem.lean` shows that a cycle of the hardware is a sequence
of those events.
-/

namespace Esd1.Lab3

structure Bus (a w : Nat) where
  address : BitVec a
  chipselect : Bool
  writeN : Bool
  writedata : BitVec w
  deriving DecidableEq, Repr

def Bus.write {a w : Nat} (b : Bus a w) : Bool := b.chipselect && !b.writeN

def Bus.wrStrobe {a w : Nat} (b : Bus a w) (k : BitVec a) : Bool := b.write && b.address == k

/-! ## `nios_system_pushbuttons.v` -/

namespace NiosSystemPushbuttons

structure Registers where
  edgeCapture : BitVec 4
  irqMask : BitVec 4
  d1DataIn : BitVec 4
  d2DataIn : BitVec 4
  readdata : BitVec 32
  deriving DecidableEq, Repr

structure Inputs where
  bus : Bus 2 32
  inPort : BitVec 4
  deriving DecidableEq, Repr

def edgeDetect (r : Registers) : BitVec 4 := ~~~r.d1DataIn &&& r.d2DataIn

def readMuxOut (r : Registers) (i : Inputs) : BitVec 4 :=
  (if i.bus.address = 0#2 then i.inPort else 0#4) |||
    (if i.bus.address = 2#2 then r.irqMask else 0#4) |||
    (if i.bus.address = 3#2 then r.edgeCapture else 0#4)

def irq (r : Registers) : Bool := (r.edgeCapture &&& r.irqMask) != 0#4

/-- One rising edge of `clk`.  The four blocks of `edge_capture` are alike: the
write strobe clears the bit, whatever is written, and comes before `edge_detect`. -/
def edge (r : Registers) (i : Inputs) : Registers where
  edgeCapture := if i.bus.wrStrobe 3#2 then 0#4 else r.edgeCapture ||| edgeDetect r
  irqMask := if i.bus.wrStrobe 2#2 then i.bus.writedata.setWidth 4 else r.irqMask
  d1DataIn := i.inPort
  d2DataIn := r.d1DataIn
  readdata := (readMuxOut r i).setWidth 32

def machine : Clocked.Machine Registers Inputs where
  reset := ⟨0#4, 0#4, 0#4, 0#4, 0#32⟩
  edge := edge

end NiosSystemPushbuttons

/-- What software sees of `nios_system_pushbuttons`. -/
structure Pushbuttons where
  edgeCapture : BitVec 4
  irqMask : BitVec 4
  deriving DecidableEq, Repr

namespace Pushbuttons

def captured (p : Pushbuttons) (k : Fin 4) : Bool := p.edgeCapture.getLsbD k

def irq (p : Pushbuttons) : Bool := (p.edgeCapture &&& p.irqMask) != 0#4

def fallingEdge (p : Pushbuttons) (k : Fin 4) : Pushbuttons :=
  { p with edgeCapture := p.edgeCapture ||| BitVec.twoPow 4 k }

/-- A write on the bus: address 2 is the mask, address 3 clears all edges. -/
def write (p : Pushbuttons) (address : BitVec 2) (writedata : BitVec 32) : Pushbuttons :=
  if address = 2#2 then { p with irqMask := writedata.setWidth 4 }
  else if address = 3#2 then { p with edgeCapture := 0#4 }
  else p

inductive Event where
  | fallingEdge (k : Fin 4)
  | write (address : BitVec 2) (writedata : BitVec 32)
  deriving DecidableEq, Repr

def act (p : Pushbuttons) : Pushbuttons.Event → Pushbuttons
  | .fallingEdge k => p.fallingEdge k
  | .write address writedata => p.write address writedata

end Pushbuttons

/-! ## `nios_system_timer_0.v` -/

namespace NiosSystemTimer0

structure Registers where
  internalCounter : BitVec 23
  forceReload : Bool
  counterIsRunning : Bool
  delayedCounterIsZero : Bool
  timeoutOccurred : Bool
  controlRegister : Bool
  readdata : BitVec 16
  deriving DecidableEq, Repr

def counterLoadValue : BitVec 23 := 0x4C4B3F#23

def counterIsZero (r : Registers) : Bool := r.internalCounter == 0#23

def timeoutEvent (r : Registers) : Bool := counterIsZero r && !r.delayedCounterIsZero

def readMuxOut (r : Registers) (b : Bus 3 16) : BitVec 16 :=
  (if b.address = 1#3 then (BitVec.ofBool r.controlRegister).setWidth 16 else 0#16) |||
    (if b.address = 0#3 then
      (BitVec.ofBool r.counterIsRunning ++ BitVec.ofBool r.timeoutOccurred).setWidth 16
    else 0#16)

def irq (r : Registers) : Bool := r.timeoutOccurred && r.controlRegister

/-- One rising edge of `clk`; `do_start_counter` is tied to 1 and
`do_stop_counter` to 0. -/
def edge (r : Registers) (b : Bus 3 16) : Registers where
  internalCounter :=
    if r.counterIsRunning || r.forceReload then
      if counterIsZero r || r.forceReload then counterLoadValue else r.internalCounter - 1#23
    else r.internalCounter
  forceReload := b.wrStrobe 3#3 || b.wrStrobe 2#3
  counterIsRunning := true
  delayedCounterIsZero := counterIsZero r
  timeoutOccurred :=
    if b.wrStrobe 0#3 then false else if timeoutEvent r then true else r.timeoutOccurred
  controlRegister := if b.wrStrobe 1#3 then b.writedata.getLsbD 0 else r.controlRegister
  readdata := readMuxOut r b

def machine : Clocked.Machine Registers (Bus 3 16) where
  reset := ⟨counterLoadValue, false, false, false, false, false, 0#16⟩
  edge := edge

end NiosSystemTimer0

/-- What software sees of `nios_system_timer_0`. -/
structure Timer where
  timeoutOccurred : Bool
  controlRegister : Bool
  deriving DecidableEq, Repr

namespace Timer

def irq (t : Timer) : Bool := t.timeoutOccurred && t.controlRegister

def timeOut (t : Timer) : Timer := { t with timeoutOccurred := true }

/-- A write on the bus: address 0 is the status and address 1 the control
register.  The period registers at 2 and 3 hold no data, a write restarts the
counter. -/
def write (t : Timer) (address : BitVec 3) (writedata : BitVec 16) : Timer :=
  if address = 0#3 then { t with timeoutOccurred := false }
  else if address = 1#3 then { t with controlRegister := writedata.getLsbD 0 }
  else t

inductive Event where
  | timeOut
  | write (address : BitVec 3) (writedata : BitVec 16)
  deriving DecidableEq, Repr

def act (t : Timer) : Timer.Event → Timer
  | .timeOut => t.timeOut
  | .write address writedata => t.write address writedata

end Timer

end Esd1.Lab3
