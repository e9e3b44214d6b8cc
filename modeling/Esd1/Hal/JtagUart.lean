import Esd1.Interleaving.Runs
import Esd1.Circular.Buffer

/-!
# The JTAG UART and its driver

The interrupt driven version of `altera_avalon_jtag_uart_init.c`, `_read.c` and
`_write.c`, one access to shared memory or to the device at a time, over the registers
of `nios_system_jtag_uart_0.v`.  No operating system runs: the calls come from one
thread, which the interrupt routine and the alarm may stop between any two accesses,
and the host works at its end of the FIFOs at any time.
-/

namespace Esd1.Hal

open Interleaving Circular

abbrev Byte := BitVec 8

/-! ## `nios_system_jtag_uart_0.v` -/

/-- `lpm_numwords` of both FIFOs. -/
def fifoDepth : Nat := 64

/-- `fifo_AE` and `fifo_AF` are functions of the FIFOs here.  The hardware registers them,
which no access can tell from a host that is a cycle later. -/
structure JtagUart where
  wfifo : List Byte
  rfifo : List Byte
  fifoRdata : Byte
  rvalid : Bool
  woverflow : Bool
  ac : Bool
  pauseIrq : Bool
  ienAE : Bool
  ienAF : Bool
  deriving DecidableEq, Repr

namespace JtagUart

def reset : JtagUart := ⟨[], [], 0#8, false, false, false, false, false, false⟩

def ipenAE (u : JtagUart) : Bool := u.ienAE && decide (u.wfifo.length ≤ 8)

def ipenAF (u : JtagUart) : Bool :=
  u.ienAF && (u.pauseIrq || decide (fifoDepth - u.rfifo.length ≤ 8))

def avIrq (u : JtagUart) : Bool := u.ipenAE || u.ipenAF

/-- Bits 15 to 8 of either register. -/
def status (u : JtagUart) : BitVec 8 :=
  BitVec.ofBool u.rvalid ++ BitVec.ofBool u.woverflow ++
    BitVec.ofBool (decide (u.wfifo.length < fifoDepth)) ++ BitVec.ofBool (!u.rfifo.isEmpty) ++
    0#1 ++ BitVec.ofBool u.ac ++ BitVec.ofBool u.ipenAE ++ BitVec.ofBool u.ipenAF

/-- `av_readdata` for the control register. -/
def controlWord (u : JtagUart) : BitVec 32 :=
  0#9 ++ (0x40#7 - BitVec.ofNat 7 u.wfifo.length) ++ u.status ++ 0#6 ++
    BitVec.ofBool u.ienAE ++ BitVec.ofBool u.ienAF

/-- `av_readdata` after an access of the data register. -/
def dataWord (u : JtagUart) : BitVec 32 :=
  0#9 ++ BitVec.ofNat 7 u.rfifo.length ++ u.status ++ u.fifoRdata

/-- A read of the data register.  The host may write to the FIFO in the same cycle: the
byte counts in `rfifo_used`, and it does not make an empty FIFO valid. -/
def loadData (u : JtagUart) (late : Option Byte) : JtagUart :=
  { u with
    rfifo := u.rfifo.tail ++ late.toList
    fifoRdata := u.rfifo.headD u.fifoRdata
    rvalid := !u.rfifo.isEmpty
    pauseIrq := false
    ac := u.ac || late.isSome }

def storeData (u : JtagUart) (writedata : BitVec 32) : JtagUart :=
  if u.wfifo.length < fifoDepth then
    { u with wfifo := u.wfifo ++ [writedata.setWidth 8], woverflow := false }
  else { u with woverflow := true }

def storeControl (u : JtagUart) (writedata : BitVec 32) : JtagUart :=
  { u with
    ienAF := writedata.getLsbD 0
    ienAE := writedata.getLsbD 1
    ac := u.ac && !writedata.getLsbD 10 }

/-- `r_ena`: the host takes the next byte. -/
def hostTake (u : JtagUart) : JtagUart := { u with wfifo := u.wfifo.tail }

/-- `t_ena`. -/
def hostGive (u : JtagUart) (b : Byte) : JtagUart :=
  { u with rfifo := u.rfifo ++ [b], ac := true }

/-- `t_pause`: the host has nothing more to send for now. -/
def hostPause (u : JtagUart) : JtagUart :=
  { u with pauseIrq := u.pauseIrq || !u.rfifo.isEmpty, ac := true }

end JtagUart

/-! ## `altera_avalon_jtag_uart.h` -/

def dataRvalidMsk : BitVec 32 := 0x00008000#32
def dataRavailMsk : BitVec 32 := 0xFFFF0000#32
def dataRavailOfst : Nat := 16
def dataDataMsk : BitVec 32 := 0x000000FF#32
def controlReMsk : BitVec 32 := 0x00000001#32
def controlWeMsk : BitVec 32 := 0x00000002#32
def controlRiMsk : BitVec 32 := 0x00000100#32
def controlWiMsk : BitVec 32 := 0x00000200#32
def controlAcMsk : BitVec 32 := 0x00000400#32
def controlWspaceMsk : BitVec 32 := 0xFFFF0000#32
def controlWspaceOfst : Nat := 16

/-- `ALTERA_AVALON_JTAG_UART_BUF_LEN`. -/
def bufLen : Nat := 2048

/-- `ALTERA_AVALON_JTAG_UART_DEFAULT_TIMEOUT`. -/
def defaultTimeout : Nat := 10

def intMax : Nat := 0x7FFFFFFF

def ewouldblock : Int := 11

def eio : Int := 5

/-- `altera_avalon_jtag_uart_state`, with `alarm` for whether the alarm was started. -/
structure Driver where
  timeout : Nat
  alarm : Bool
  irqEnable : BitVec 32
  hostInactive : Nat
  rx : Buffer Byte
  tx : Buffer Byte

/-- The arguments of `altera_avalon_jtag_uart_write`, and `done` for `ptr - start`. -/
structure WriteCall where
  data : List Byte
  nonblock : Bool
  done : Nat
  deriving DecidableEq, Repr

def WriteCall.count (c : WriteCall) : Nat := c.data.length - c.done

/-- The next access of `altera_avalon_jtag_uart_write`, with the locals live there. -/
inductive WritePc where
  | loadOut
  | copy (inIdx outIdx n i : Nat)
  | kick (outIdx : Nat)
  | waitOut (outIdx : Nat)
  | waitHost (outIdx : Nat)
  | checkHost
  | ret
  deriving DecidableEq, Repr

/-- The arguments of `altera_avalon_jtag_uart_read` with the bytes that were copied to
the caller's buffer, and `done` for `ptr - buffer`. -/
structure ReadCall where
  space : Nat
  nonblock : Bool
  buffer : List Byte
  done : Nat
  deriving DecidableEq, Repr

inductive ReadPc where
  | loadIn
  | copy (inIdx outIdx n i : Nat)
  | waitIn (inIdx : Nat)
  | waitHost (inIdx : Nat)
  | recheck (inIdx : Nat)
  | kick
  | ret
  deriving DecidableEq, Repr

inductive ClosePc where
  | loadTx
  | loadHost
  | ret (rc : Int)
  deriving DecidableEq, Repr

inductive Thread where
  | idle
  | write (c : WriteCall) (pc : WritePc)
  | read (c : ReadCall) (pc : ReadPc)
  | close (nonblock : Bool) (pc : ClosePc)
  deriving DecidableEq, Repr

inductive IrqPc where
  | loadControl
  | rxLoop (control data : BitVec 32)
  | rxDone (control data : BitVec 32)
  | txLoop (space : Nat)
  deriving DecidableEq, Repr

inductive TimeoutPc where
  | loadControl
  | storeControl
  deriving DecidableEq, Repr

inductive Isr where
  | idle
  | irq (pc : IrqPc)
  | timeout (pc : TimeoutPc)
  deriving DecidableEq, Repr

structure System where
  core : JtagUart
  driver : Driver
  thread : Thread
  isr : Isr

/-! ## The calls -/

/-- Enter the loop `while (count > 0)` or leave it for the critical section. -/
def WriteCall.next (c : WriteCall) (outIdx : Nat) : WritePc :=
  if 0 < c.count then .loadOut else .kick outIdx

/-- `irq_enable |= mask` and the write to the device, with interrupts disabled. -/
def System.enable (s : System) (mask : BitVec 32) (thread : Thread) : System :=
  { s with
    core := s.core.storeControl (s.driver.irqEnable ||| mask)
    driver.irqEnable := s.driver.irqEnable ||| mask
    thread := thread }

/-- One access of `altera_avalon_jtag_uart_write`.  An access out of bounds has no
successor. -/
def write (s : System) (c : WriteCall) : WritePc → Option System
  | .loadOut =>
      let inIdx := s.driver.tx.inIdx
      let outIdx := s.driver.tx.outIdx
      let n := freeRun bufLen inIdx outIdx
      if n = 0 then some { s with thread := .write c (.kick outIdx) }
      else some { s with thread := .write c (.copy inIdx outIdx (min n c.count) 0) }
  | .copy inIdx outIdx n i =>
      if i < n then
        if inIdx + i < bufLen then
          c.data[c.done + i]?.map fun b =>
            { s with
              driver.tx := s.driver.tx.store (inIdx + i) b
              thread := .write c (.copy inIdx outIdx n (i + 1)) }
        else none
      else
        let c' := { c with done := c.done + n }
        some { s with
          driver.tx := { s.driver.tx with inIdx := (inIdx + n) % bufLen }
          thread := .write c' (c'.next outIdx) }
  | .kick outIdx =>
      some (s.enable controlWeMsk
        (.write c (if 0 < c.count ∧ c.nonblock = false then .waitOut outIdx else .ret)))
  | .waitOut outIdx =>
      if outIdx = s.driver.tx.outIdx then some { s with thread := .write c (.waitHost outIdx) }
      else some { s with thread := .write c .checkHost }
  | .waitHost outIdx =>
      if s.driver.hostInactive < s.driver.timeout then
        some { s with thread := .write c (.waitOut outIdx) }
      else some { s with thread := .write c .checkHost }
  | .checkHost =>
      if s.driver.hostInactive ≠ 0 then some { s with thread := .write c .ret }
      else some { s with thread := .write c .loadOut }
  | .ret => none

def WriteCall.result (c : WriteCall) : Int :=
  if c.done ≠ 0 then c.done else if c.nonblock then -ewouldblock else -eio

def ReadCall.afterCopy (c : ReadCall) (inIdx : Nat) : ReadPc :=
  if c.done ≠ 0 then .kick else if c.nonblock then .ret else .waitIn inIdx

/-- One access of `altera_avalon_jtag_uart_read`. -/
def read (s : System) (c : ReadCall) : ReadPc → Option System
  | .loadIn =>
      let inIdx := s.driver.rx.inIdx
      let outIdx := s.driver.rx.outIdx
      let n := usedRun bufLen inIdx outIdx
      if n = 0 then some { s with thread := .read c (c.afterCopy inIdx) }
      else some { s with thread := .read c (.copy inIdx outIdx (min n (c.space - c.done)) 0) }
  | .copy inIdx outIdx n i =>
      if i < n then
        if outIdx + i < bufLen ∧ c.buffer.length < c.space then
          let c' := { c with buffer := c.buffer ++ [s.driver.rx.cell (outIdx + i)] }
          some { s with thread := .read c' (.copy inIdx outIdx n (i + 1)) }
        else none
      else
        let c' := { c with done := c.done + n }
        some { s with
          driver.rx := { s.driver.rx with outIdx := (outIdx + n) % bufLen }
          thread := .read c' (if c'.done < c'.space then .loadIn else c'.afterCopy inIdx) }
  | .waitIn inIdx =>
      if inIdx = s.driver.rx.inIdx then some { s with thread := .read c (.waitHost inIdx) }
      else some { s with thread := .read c (.recheck inIdx) }
  | .waitHost inIdx =>
      if s.driver.hostInactive < s.driver.timeout then
        some { s with thread := .read c (.waitIn inIdx) }
      else some { s with thread := .read c (.recheck inIdx) }
  | .recheck inIdx =>
      if inIdx = s.driver.rx.inIdx then some { s with thread := .read c .ret }
      else some { s with thread := .read c .loadIn }
  | .kick => some (s.enable controlReMsk (.read c .ret))
  | .ret => none

def ReadCall.result (c : ReadCall) : Int :=
  if c.done ≠ 0 then c.done else if c.nonblock then -ewouldblock else -eio

/-- One access of `altera_avalon_jtag_uart_close`. -/
def close (s : System) (nonblock : Bool) : ClosePc → Option System
  | .loadTx =>
      if s.driver.tx.outIdx = s.driver.tx.inIdx then
        some { s with thread := .close nonblock (.ret 0) }
      else some { s with thread := .close nonblock .loadHost }
  | .loadHost =>
      if s.driver.hostInactive < s.driver.timeout then
        some { s with
          thread := .close nonblock (if nonblock then .ret (-ewouldblock) else .loadTx) }
      else some { s with thread := .close nonblock (.ret 0) }
  | .ret _ => none

def thread (s : System) : Option System :=
  match s.thread with
  | .idle => none
  | .write c pc => write s c pc
  | .read c pc => read s c pc
  | .close nonblock pc => close s nonblock pc

/-! ## The interrupt routine and the alarm -/

def afterRx (control : BitVec 32) : IrqPc :=
  if control &&& controlWiMsk ≠ 0#32 then
    .txLoop ((control &&& controlWspaceMsk) >>> controlWspaceOfst).toNat
  else .loadControl

def System.disable (s : System) (mask : BitVec 32) (pc : IrqPc) : System :=
  { s with
    core := s.core.storeControl (s.driver.irqEnable &&& ~~~mask)
    driver.irqEnable := s.driver.irqEnable &&& ~~~mask
    isr := .irq pc }

/-- One access of `altera_avalon_jtag_uart_irq`. -/
def irq (s : System) (late : Option Byte) : IrqPc → Option System
  | .loadControl =>
      let control := s.core.controlWord
      if control &&& (controlRiMsk ||| controlWiMsk) = 0#32 then some { s with isr := .idle }
      else if control &&& controlRiMsk ≠ 0#32 then
        some { s with isr := .irq (.rxLoop control (1#32 <<< dataRavailOfst)) }
      else some { s with isr := .irq (afterRx control) }
  | .rxLoop control data =>
      if (s.driver.rx.inIdx + 1) % bufLen = s.driver.rx.outIdx then
        some { s with isr := .irq (.rxDone control data) }
      else
        let core := s.core.loadData late
        if core.dataWord &&& dataRvalidMsk = 0#32 then
          some { s with core := core, isr := .irq (.rxDone control core.dataWord) }
        else if s.driver.rx.inIdx < bufLen then
          some { s with
            core := core
            driver.rx :=
              (s.driver.rx.store s.driver.rx.inIdx
                ((core.dataWord &&& dataDataMsk).setWidth 8)).publish bufLen 1
            isr := .irq (.rxLoop control core.dataWord) }
        else none
  | .rxDone control data =>
      if data &&& dataRavailMsk ≠ 0#32 then some (s.disable controlReMsk (afterRx control))
      else some { s with isr := .irq (afterRx control) }
  | .txLoop space =>
      if 0 < space ∧ s.driver.tx.outIdx ≠ s.driver.tx.inIdx then
        if s.driver.tx.outIdx < bufLen then
          some { s with
            core := s.core.storeData ((s.driver.tx.cell s.driver.tx.outIdx).signExtend 32)
            driver.tx := s.driver.tx.release bufLen 1
            isr := .irq (.txLoop (space - 1)) }
        else none
      else if 0 < space then some (s.disable controlWeMsk .loadControl)
      else some { s with isr := .irq .loadControl }

/-- One access of `altera_avalon_jtag_uart_timeout`. -/
def timeout (s : System) : TimeoutPc → System
  | .loadControl =>
      if s.core.controlWord &&& controlAcMsk ≠ 0#32 then { s with isr := .timeout .storeControl }
      else if s.driver.hostInactive < intMax - 2 then
        { s with driver.hostInactive := s.driver.hostInactive + 1, isr := .idle }
      else { s with isr := .idle }
  | .storeControl =>
      { s with
        core := s.core.storeControl (s.driver.irqEnable ||| controlAcMsk)
        driver.hostInactive := 0
        isr := .idle }

/-! ## The system -/

/-- A return carries its call.  `irq late` is an access of the interrupt routine, with the
byte of the host that comes in the cycle in which it reads the data register. -/
inductive Event where
  | write (data : List Byte) (nonblock : Bool)
  | read (space : Nat) (nonblock : Bool)
  | close (nonblock : Bool)
  | thread
  | returnWrite (c : WriteCall)
  | returnRead (c : ReadCall)
  | returnClose (rc : Int)
  | enterIrq
  | irq (late : Option Byte)
  | enterTimeout
  | timeout
  | hostTake (b : Byte)
  | hostGive (b : Byte)
  | hostPause
  deriving DecidableEq, Repr

def System.readsData (s : System) : Bool :=
  match s.isr with
  | .irq (.rxLoop _ _) => decide ((s.driver.rx.inIdx + 1) % bufLen ≠ s.driver.rx.outIdx)
  | _ => false

/-- A byte comes in the cycle of a read only if there is one, and if the FIFO has room. -/
def System.admits (s : System) (late : Option Byte) : Prop :=
  late = none ∨ s.readsData = true ∧ s.core.rfifo.length < fifoDepth

instance (s : System) (late : Option Byte) : Decidable (s.admits late) :=
  inferInstanceAs (Decidable (_ ∨ _))

def step (s : System) : Event → Option System
  | .write data nonblock =>
      if s.thread = .idle ∧ s.isr = .idle then
        let c : WriteCall := ⟨data, nonblock, 0⟩
        some { s with thread := .write c (c.next 0) }
      else none
  | .read space nonblock =>
      if s.thread = .idle ∧ s.isr = .idle then
        some { s with
          thread := .read ⟨space, nonblock, [], 0⟩ (if 0 < space then .loadIn else .ret) }
      else none
  | .close nonblock =>
      if s.thread = .idle ∧ s.isr = .idle then
        some { s with thread := .close nonblock .loadTx }
      else none
  | .thread => if s.isr = .idle then thread s else none
  | .returnWrite c =>
      if s.thread = .write c .ret ∧ s.isr = .idle then some { s with thread := .idle } else none
  | .returnRead c =>
      if s.thread = .read c .ret ∧ s.isr = .idle then some { s with thread := .idle } else none
  | .returnClose rc =>
      if (s.thread = .close false (.ret rc) ∨ s.thread = .close true (.ret rc)) ∧
          s.isr = .idle then
        some { s with thread := .idle }
      else none
  | .enterIrq =>
      if s.isr = .idle ∧ s.core.avIrq = true then some { s with isr := .irq .loadControl }
      else none
  | .irq late =>
      match s.isr with
      | .irq pc => if s.admits late then irq s late pc else none
      | _ => none
  | .enterTimeout =>
      if s.isr = .idle ∧ s.driver.alarm = true then
        some { s with isr := .timeout .loadControl }
      else none
  | .timeout =>
      match s.isr with
      | .timeout pc => some (timeout s pc)
      | _ => none
  | .hostTake b =>
      if s.core.wfifo.head? = some b then some { s with core := s.core.hostTake } else none
  | .hostGive b =>
      if s.core.rfifo.length < fifoDepth then some { s with core := s.core.hostGive b } else none
  | .hostPause => some { s with core := s.core.hostPause }

/-- `altera_avalon_jtag_uart_init` after reset.  If the alarm cannot be started the host
counts as present for ever. -/
def init (alarm : Bool) : System where
  core := JtagUart.reset.storeControl controlReMsk
  driver :=
    { timeout := if alarm then defaultTimeout else intMax
      alarm := alarm
      irqEnable := controlReMsk
      hostInactive := 0
      rx := ⟨0, 0, fun _ => 0#8⟩
      tx := ⟨0, 0, fun _ => 0#8⟩ }
  thread := .idle
  isr := .idle

/-! ## What the calls and the host have seen -/

def hostReceived (es : List Event) : List Byte :=
  es.flatMap fun
    | .hostTake b => [b]
    | _ => []

def hostSent (es : List Event) : List Byte :=
  es.flatMap fun
    | .hostGive b => [b]
    | .irq late => late.toList
    | _ => []

def accepted (es : List Event) : List Byte :=
  es.flatMap fun
    | .returnWrite c => c.data.take c.result.toNat
    | _ => []

def delivered (es : List Event) : List Byte :=
  es.flatMap fun
    | .returnRead c => c.buffer.take c.result.toNat
    | _ => []

def Thread.accepted : Thread → List Byte
  | .write c _ => c.data.take c.done
  | _ => []

def Thread.delivered : Thread → List Byte
  | .read c _ => c.buffer.take c.done
  | _ => []

/-- The host sends a byte, a call reads it and another sends it back, and a close waits
until it has left. -/
def echo : List Event :=
  [ .hostGive 0x41#8, .hostPause, .enterIrq, .irq none, .irq none, .irq none, .irq none, .irq none,
    .read 4 false, .thread, .thread, .thread, .thread, .thread,
    .returnRead ⟨4, false, [0x41#8], 1⟩,
    .write [0x41#8] false, .thread, .thread, .thread, .thread,
    .returnWrite ⟨[0x41#8], false, 1⟩,
    .close false, .thread, .thread,
    .enterIrq, .irq none, .irq none, .irq none, .irq none,
    .thread, .hostTake 0x41#8, .returnClose 0 ]

def waiting : List Event := [.read 4 false, .thread]

end Esd1.Hal
