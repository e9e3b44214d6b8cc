import Esd1.Hal.JtagUart
import Esd1.Lab3.Part3

/-!
# Start-up and interrupt dispatch

What runs under `Part3.c`: `alt_main` with its device initialisation, the registration of
the routines, and the exception entry with the scan of `alt_irq_handler`.  `Part3.lean`
takes for granted that one routine runs at a time, while its interrupt line is high.
Here the lines go through `nios_system_irq_mapper.sv` into `ipending`, and the routines
are the ones that the table holds at that moment.
-/

namespace Esd1.Lab3.AltIrq

inductive Handler where
  | altAvalonTimerScIrq
  | alteraAvalonJtagUartIrq
  | pushbuttonIsr
  | timer0Isr
  deriving DecidableEq, Repr

inductive Context where
  | null
  | timer0
  | jtagUart0
  deriving DecidableEq, Repr

structure IrqHandler where
  handler : Option Handler
  context : Context
  deriving DecidableEq, Repr

def nirq : Nat := 32

/-- The arguments of `alt_ic_isr_register`. -/
structure Registration where
  irq : Nat
  isr : Option Handler
  isrContext : Context
  deriving DecidableEq, Repr

/-- The next step of `alt_iic_isr_register`, and in it of `alt_irq_enable` or
`alt_irq_disable`, with the saved values of `PIE`. -/
inductive RegisterPc where
  | disableAll
  | setHandler (status : Bool)
  | setContext (status : Bool)
  | innerDisableAll (status : Bool)
  | setActive (status inner : Bool)
  | writeIenable (status inner : Bool)
  | innerEnableAll (status inner : Bool)
  | enableAll (status : Bool)
  deriving DecidableEq, Repr

/-- What `alt_main` and `main` do to the processor and the devices, in order. -/
inductive MainOp where
  | writeIenable
  | enableInterrupts
  | storeTimerControl
  | storeJtagControl
  | alarmStart
  | storeHex
  | loadMask
  | storeMask
  | loadPeriod
  | storePeriod
  | register (r : Registration)
  deriving DecidableEq, Repr

def timerScInit : Registration := ⟨0, some .altAvalonTimerScIrq, .timer0⟩

def jtagUartInit : Registration := ⟨2, some .alteraAvalonJtagUartIrq, .jtagUart0⟩

def registerPushbuttons : Registration := ⟨1, some .pushbuttonIsr, .null⟩

def registerTimer0 : Registration := ⟨0, some .timer0Isr, .null⟩

/-- `alt_irq_init`, `alt_sys_init` and `main`, up to its loop. -/
def altMain : List MainOp :=
  [ .writeIenable, .enableInterrupts,
    .storeTimerControl, .register timerScInit,
    .storeJtagControl, .register jtagUartInit, .alarmStart,
    .storeHex, .loadMask, .storeMask, .loadPeriod, .storePeriod,
    .register registerPushbuttons, .register registerTimer0 ]

/-- What is left to do, with the register of `|=` and the place in the registration. -/
structure Main where
  todo : List MainOp
  value : BitVec 32
  registerPc : RegisterPc
  deriving DecidableEq, Repr

/-- The next step of `alt_irq_entry` and `alt_irq_handler`, or the routine that runs.
`tick` and `callback` are inside `alt_avalon_timer_sc_irq`. -/
inductive Exception where
  | none
  | entry
  | pending
  | scan (active mask : BitVec 32) (i : Nat)
  | isr (h : Handler)
  | tick
  | callback
  | again
  deriving DecidableEq, Repr

structure State where
  pie : Bool
  estatus : Bool
  ienable : BitVec 32
  altIrqActive : BitVec 32
  altIrq : Nat → IrqHandler
  main : Main
  exception : Exception
  lab3 : System
  jtag : Hal.System

/-- `sender_irq` of `nios_system_irq_mapper`. -/
def State.senderIrq (s : State) : BitVec 32 :=
  0#29 ++ BitVec.ofBool s.jtag.core.avIrq ++ BitVec.ofBool s.lab3.pushbuttons.irq ++
    BitVec.ofBool s.lab3.timer.irq

def State.ipending (s : State) : BitVec 32 := s.senderIrq &&& s.ienable

/-! ## `alt_main` -/

def Main.next (m : Main) : Main := { m with todo := m.todo.tail, registerPc := .disableAll }

/-- One step of `alt_iic_isr_register`.  The source compares a signed `id` with `ALT_NIRQ`,
so it would take an `irq` from `2 ^ 31` on for one that is in the table. -/
def register (s : State) (r : Registration) : RegisterPc → State
  | .disableAll =>
      if r.irq < nirq then
        { s with pie := false, main.registerPc := .setHandler s.pie }
      else { s with main := s.main.next }
  | .setHandler status =>
      { s with
        altIrq := Function.update s.altIrq r.irq { s.altIrq r.irq with handler := r.isr }
        main.registerPc := .setContext status }
  | .setContext status =>
      { s with
        altIrq := Function.update s.altIrq r.irq { s.altIrq r.irq with context := r.isrContext }
        main.registerPc := .innerDisableAll status }
  | .innerDisableAll status =>
      { s with pie := false, main.registerPc := .setActive status s.pie }
  | .setActive status inner =>
      { s with
        altIrqActive :=
          if r.isr.isSome then s.altIrqActive ||| 1#32 <<< r.irq
          else s.altIrqActive &&& ~~~(1#32 <<< r.irq)
        main.registerPc := .writeIenable status inner }
  | .writeIenable status inner =>
      { s with ienable := s.altIrqActive, main.registerPc := .innerEnableAll status inner }
  | .innerEnableAll status inner =>
      { s with pie := inner, main.registerPc := .enableAll status }
  | .enableAll status => { s with pie := status, main := s.main.next }

theorem hexValues_pos : 0 < hexValues.length := by decide

def mainOp (s : State) : MainOp → State
  | .writeIenable => { s with ienable := 0#32, main := s.main.next }
  | .enableInterrupts => { s with pie := true, main := s.main.next }
  | .storeTimerControl => { s with lab3 := altSysInit s.lab3, main := s.main.next }
  | .storeJtagControl =>
      { s with
        jtag.core := s.jtag.core.storeControl Hal.controlReMsk
        jtag.driver.irqEnable := Hal.controlReMsk
        main := s.main.next }
  | .alarmStart => { s with jtag.driver.alarm := true, main := s.main.next }
  | .storeHex =>
      { s with
        lab3.hex0 := (hexValues.get ⟨0, hexValues_pos⟩).setWidth 7
        main := s.main.next }
  | .loadMask =>
      { s with main := { s.main.next with value := s.lab3.pushbuttons.irqMask.setWidth 32 } }
  | .storeMask =>
      { s with
        lab3.pushbuttons := s.lab3.pushbuttons.write interruptOffset (s.main.value ||| 0x02#32)
        main := s.main.next }
  | .loadPeriod => { s with main := { s.main.next with value := 0#32 } }
  | .storePeriod =>
      { s with
        lab3.timer := s.lab3.timer.write 2#3 ((s.main.value ||| 0x02#32).setWidth 16)
        main := s.main.next }
  | .register r => register s r s.main.registerPc

/-- The foreground; after the last operation it is `while(1)`. -/
def mainStep (s : State) : State :=
  match s.main.todo with
  | [] => s
  | op :: _ => mainOp s op

/-! ## `alt_irq_handler` -/

/-- One step of the entry code or of the scan.  With nothing pending the entry would take
the exception for an unknown one, which has no successor. -/
def dispatch (s : State) : Option State :=
  match s.exception with
  | .entry =>
      if s.estatus = true ∧ s.ipending ≠ 0#32 then some { s with exception := .pending } else none
  | .pending => some { s with exception := .scan s.ipending 1#32 0 }
  | .scan active mask i =>
      if active &&& mask = 0#32 then some { s with exception := .scan active (mask <<< 1) (i + 1) }
      else none
  | .again =>
      if s.ipending ≠ 0#32 then some { s with exception := .scan s.ipending 1#32 0 }
      else some { s with pie := s.estatus, exception := .none }
  | _ => none

/-- The entry of a routine.  The two drivers need their own context. -/
def enter (s : State) (h : Handler) (context : Context) : Option State :=
  match h with
  | .altAvalonTimerScIrq =>
      if context = .timer0 then some { s with exception := .isr h } else none
  | .alteraAvalonJtagUartIrq =>
      if context = .jtagUart0 then
        some { s with exception := .isr h, jtag.isr := .irq .loadControl }
      else none
  | .pushbuttonIsr =>
      some { s with exception := .isr h, lab3.cpu := .pushbuttonIsr .loadSwitches }
  | .timer0Isr => some { s with exception := .isr h, lab3.cpu := .timer0Isr .storeStatus }

/-- `alt_irq[i].handler(alt_irq[i].context)`. -/
def call (s : State) (h : Handler) : Option State :=
  match s.exception with
  | .scan active mask i =>
      if active &&& mask ≠ 0#32 ∧ i < nirq ∧ (s.altIrq i).handler = some h then
        enter s h (s.altIrq i).context
      else none
  | _ => none

/-! ## The system -/

inductive Event where
  | keyEdge (k : Fin 4)
  | timeOut
  | setSwitches (v : BitVec 8)
  | hostTake (b : Hal.Byte)
  | hostGive (b : Hal.Byte)
  | hostPause
  | main
  | interrupt
  | dispatch
  | call (h : Handler)
  | pushbuttonIsr (pc : PushbuttonPc)
  | timer0Isr (pc : Timer0Pc)
  | jtagUartIrq (late : Option Hal.Byte)
  | timerScIrq
  | tick (callback : Bool)
  | timeout
  deriving DecidableEq, Repr

def lab3Step (s : State) (e : Lab3.Event) : Option State :=
  (Lab3.step s.lab3 e).map fun lab3 => { s with lab3 := lab3 }

def jtagStep (s : State) (e : Hal.Event) : Option State :=
  (Hal.step s.jtag e).map fun jtag => { s with jtag := jtag }

/-- Go back to the scan when the routine has returned. -/
def State.returnIf (s : State) (returned : Bool) : State :=
  { s with exception := if returned then .again else s.exception }

def step (s : State) : Event → Option State
  | .keyEdge k => lab3Step s (.keyEdge k)
  | .timeOut => lab3Step s .timeOut
  | .setSwitches v => lab3Step s (.setSwitches v)
  | .hostTake b => jtagStep s (.hostTake b)
  | .hostGive b => jtagStep s (.hostGive b)
  | .hostPause => jtagStep s .hostPause
  | .main => if s.exception = .none then some (mainStep s) else none
  | .interrupt =>
      if s.exception = .none ∧ s.pie = true ∧ s.ipending ≠ 0#32 then
        some { s with pie := false, estatus := s.pie, exception := .entry }
      else none
  | .dispatch => dispatch s
  | .call h => call s h
  | .pushbuttonIsr pc =>
      if s.exception = .isr .pushbuttonIsr then
        (lab3Step s (.pushbuttonIsr pc)).map fun s' => s'.returnIf (s'.lab3.cpu = .mainLoop)
      else none
  | .timer0Isr pc =>
      if s.exception = .isr .timer0Isr then
        (lab3Step s (.timer0Isr pc)).map fun s' => s'.returnIf (s'.lab3.cpu = .mainLoop)
      else none
  | .jtagUartIrq late =>
      if s.exception = .isr .alteraAvalonJtagUartIrq then
        (jtagStep s (.irq late)).map fun s' => s'.returnIf (s'.jtag.isr = .idle)
      else none
  | .timerScIrq =>
      if s.exception = .isr .altAvalonTimerScIrq then
        some { s with lab3.timer := s.lab3.timer.write 0#3 0#16, exception := .tick }
      else none
  | .tick callback =>
      if s.exception = .tick then
        if callback then
          if s.jtag.driver.alarm = true then
            some { s with jtag.isr := .timeout .loadControl, exception := .callback }
          else none
        else some { s with exception := .again }
      else none
  | .timeout =>
      if s.exception = .callback then
        (jtagStep s .timeout).map fun s' => s'.returnIf (s'.jtag.isr = .idle)
      else none

def reset (switches : BitVec 8) : State where
  pie := false
  estatus := false
  ienable := 0#32
  altIrqActive := 0#32
  altIrq := fun _ => ⟨none, .null⟩
  main := ⟨altMain, 0#32, .disableAll⟩
  exception := .none
  lab3 := Lab3.reset switches
  jtag :=
    { core := Hal.JtagUart.reset
      driver :=
        { timeout := Hal.defaultTimeout
          alarm := false
          irqEnable := 0#32
          hostInactive := 0
          rx := ⟨0, 0, fun _ => 0#8⟩
          tx := ⟨0, 0, fun _ => 0#8⟩ }
      thread := .idle
      isr := .idle }

def startUp : List Event :=
  List.replicate 11 .main ++
    [ .timeOut, .interrupt, .dispatch, .dispatch, .call .altAvalonTimerScIrq, .timerScIrq,
      .tick false, .dispatch ] ++
    List.replicate 31 .main

def press : List Event :=
  [ .keyEdge key1, .interrupt, .dispatch, .dispatch, .dispatch, .timeOut,
    .call .pushbuttonIsr, .pushbuttonIsr .loadSwitches, .pushbuttonIsr (.updateIdx 1#8),
    .pushbuttonIsr .storeHex, .pushbuttonIsr .loadEdgeCapture,
    .pushbuttonIsr (.storeEdgeCapture 2#32), .dispatch,
    .call .timer0Isr, .timer0Isr .storeStatus, .timer0Isr .loadLeds, .timer0Isr (.storeLeds 0#8),
    .dispatch ]

end Esd1.Lab3.AltIrq
