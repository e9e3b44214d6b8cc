import Esd1.Clocked.Machine

/-!
# `servo_controller.vhd`

The registers of the servo controller and its processes, one definition a
process.  Ports and signals of type `std_logic` are modelled by the two values
`'0'` and `'1'`; `unsigned(31 downto 0)` is `BitVec 32`, whose order and
arithmetic are those of `numeric_std`.

All clocked processes read the signals as they stood before the edge, so `edge`
builds the new registers from the old ones only.
-/

namespace Esd1.Lab4

inductive StateType where
  | sweepR
  | intR
  | sweepL
  | intL
  deriving DecidableEq, Repr

/-- The input ports as a rising edge samples them. -/
structure Ports where
  we : Bool
  addr : Bool
  wData : BitVec 32
  deriving DecidableEq, Repr

/-- Every signal that a clocked process assigns. -/
structure Registers where
  currentState : StateType
  minAngle : BitVec 32
  maxAngle : BitVec 32
  angleCnt : BitVec 32
  periodCnt : BitVec 32
  outwave : Bool
  deriving DecidableEq, Repr

def period : BitVec 32 := 0x000F4240#32

def iteratorDefault : BitVec 12 := 0x1F4#12

/-- `numeric_std` extends the generic with zeros to the width of `angle_cnt`
before it adds or subtracts.  The processes below take the extended value. -/
def resize (iterator : BitVec 12) : BitVec 32 := iterator.setWidth 32

def comb (currentState : StateType) (we : Bool)
    (minAngle maxAngle angleCnt : BitVec 32) : StateType :=
  match currentState with
  | .sweepR => if angleCnt ≥ maxAngle then .intR else .sweepR
  | .intR => if we then .sweepL else .intR
  | .sweepL => if angleCnt ≤ minAngle then .intL else .sweepL
  | .intL => if we then .sweepR else .intL

/-- `reg`: the limit registers `(min_angle, max_angle)`. -/
def reg (minAngle maxAngle : BitVec 32) (p : Ports) : BitVec 32 × BitVec 32 :=
  if p.we then
    if p.addr then (minAngle, p.wData) else (p.wData, maxAngle)
  else (minAngle, maxAngle)

def counter (periodCnt : BitVec 32) : BitVec 32 :=
  if periodCnt = period then 0#32 else periodCnt + 1#32

/-- `angle_c`: the angle moves at the end of a frame, and only in a sweep. -/
def angleC (iterator : BitVec 32) (currentState : StateType)
    (periodCnt angleCnt : BitVec 32) : BitVec 32 :=
  match currentState with
  | .sweepR => if periodCnt = period then angleCnt + iterator else angleCnt
  | .sweepL => if periodCnt = period then angleCnt - iterator else angleCnt
  | .intR | .intL => angleCnt

def pwm (periodCnt angleCnt : BitVec 32) : Bool := decide (periodCnt ≤ angleCnt)

def irqP (currentState : StateType) : Bool :=
  match currentState with
  | .intR | .intL => true
  | .sweepR | .sweepL => false

/-- The branches `reset_n = '0'` of all clocked processes. -/
def reset : Registers where
  currentState := .sweepR
  minAngle := 0x0000C350#32
  maxAngle := 0x000186A0#32
  angleCnt := 0x0000C350#32
  periodCnt := 0#32
  outwave := false

/-- One rising edge with `reset_n` high. -/
def edge (iterator : BitVec 32) (r : Registers) (p : Ports) : Registers where
  currentState := comb r.currentState p.we r.minAngle r.maxAngle r.angleCnt
  minAngle := (reg r.minAngle r.maxAngle p).1
  maxAngle := (reg r.minAngle r.maxAngle p).2
  angleCnt := angleC iterator r.currentState r.periodCnt r.angleCnt
  periodCnt := counter r.periodCnt
  outwave := pwm r.periodCnt r.angleCnt

def Registers.irq (r : Registers) : Bool := irqP r.currentState

def servoController (iterator : BitVec 32) : Clocked.Machine Registers Ports where
  reset := reset
  edge := edge iterator

abbrev run (iterator : BitVec 32) (u : Nat → Ports) : Nat → Registers :=
  (servoController iterator).run u

/-- The inputs that the port map of `functional` in `Lab4.vhd` ties down, with
the constant on `w_data` as a parameter. -/
def lab4Ports (wData : BitVec 32) : Ports where
  we := true
  addr := false
  wData := wData

def wired (iterator wData : BitVec 32) : Nat → Registers :=
  run iterator (fun _ => lab4Ports wData)

/-- `functional : servo_controller` in `Lab4.vhd`, which leaves the generic at its
default. -/
def functional (wData : BitVec 32) : Nat → Registers :=
  wired (resize iteratorDefault) wData

def lab4Data : BitVec 32 := 0x0000C34F#32

def idle : Ports where
  we := false
  addr := false
  wData := 0#32

/-! ## One edge, register by register -/

section Edge

variable (iterator : BitVec 32) (r : Registers) (p : Ports)

@[simp] theorem edge_currentState : (edge iterator r p).currentState =
    comb r.currentState p.we r.minAngle r.maxAngle r.angleCnt := rfl

@[simp] theorem edge_minAngle : (edge iterator r p).minAngle =
    if p.we && !p.addr then p.wData else r.minAngle := by
  cases hw : p.we <;> cases ha : p.addr <;> simp [edge, reg, hw, ha]

@[simp] theorem edge_maxAngle : (edge iterator r p).maxAngle =
    if p.we && p.addr then p.wData else r.maxAngle := by
  cases hw : p.we <;> cases ha : p.addr <;> simp [edge, reg, hw, ha]

@[simp] theorem edge_angleCnt : (edge iterator r p).angleCnt =
    angleC iterator r.currentState r.periodCnt r.angleCnt := rfl

@[simp] theorem edge_periodCnt :
    (edge iterator r p).periodCnt = counter r.periodCnt := rfl

@[simp] theorem edge_outwave :
    (edge iterator r p).outwave = pwm r.periodCnt r.angleCnt := rfl

end Edge

@[simp] theorem run_zero (iterator : BitVec 32) (u : Nat → Ports) :
    run iterator u 0 = reset := rfl

theorem run_succ (iterator : BitVec 32) (u : Nat → Ports) (t : Nat) :
    run iterator u (t + 1) = edge iterator (run iterator u t) (u t) := rfl

theorem run_eq_runFrom (iterator : BitVec 32) (u : Nat → Ports) (t : Nat) :
    run iterator u t = (servoController iterator).runFrom reset u t := rfl

theorem runFrom_succ (iterator : BitVec 32) (r : Registers) (u : Nat → Ports) (t : Nat) :
    (servoController iterator).runFrom r u (t + 1) =
      edge iterator ((servoController iterator).runFrom r u t) (u t) := rfl

end Esd1.Lab4
