import Esd1.Interleaving.Runs
import Esd1.Linked.Ring

/-!
# Alarms

`alt_alarm_start`, `alt_alarm_stop` and the walk of `alt_tick` over the list of registered
alarms.  The walk runs at interrupt level, so between two of its steps nothing else happens,
except in a callback, which may start and stop alarms itself.
-/

namespace Esd1.Hal.Alarms

open Linked (Links)

/-- An `alt_llist*`: `&alt_alarm_list`, or an alarm. -/
inductive Ptr (α : Type) where
  | list
  | alarm (a : α)
  deriving DecidableEq

/-- The fields of `struct alt_alarm_s` besides its list entry and its callback. -/
structure Alarm where
  time : BitVec 32
  rollover : Bool
  deriving DecidableEq

/-- Where `alt_tick` stands: not running, at the head of its loop, or in a callback, with
the `next` it goes on with. -/
inductive Phase (α : Type) where
  | idle
  | walking (alarm : Ptr α)
  | calling (alarm : α) (next : Ptr α)
  deriving DecidableEq

structure System (α : Type) where
  tickRate : BitVec 32
  nticks : BitVec 32
  links : Links (Ptr α)
  alarms : α → Alarm
  phase : Phase α

inductive Errno where
  | ENOTSUP
  | EINVAL
  deriving DecidableEq

variable {α : Type} [DecidableEq α]

def altSysclkInit (s : System α) (nticks : BitVec 32) : System α :=
  if s.tickRate = 0#32 then { s with tickRate := nticks } else s

def altAlarmStart (s : System α) (alarm : Option α) (nticks : BitVec 32) :
    Option (Except Errno (System α)) :=
  if s.tickRate = 0#32 then some (.error .ENOTSUP)
  else
    match alarm with
    | none => some (.error .EINVAL)
    | some a =>
        let time := nticks + s.nticks + 1#32
        (s.links.insert .list (.alarm a)).map fun links =>
          .ok
            { s with
              links := links
              alarms := Function.update s.alarms a ⟨time, decide (time < s.nticks)⟩ }

def altAlarmStop (s : System α) (a : α) : Option (System α) :=
  (s.links.remove (.alarm a)).map fun links => { s with links := links }

/-! ## `alt_tick` -/

/-- The first lines of `alt_tick`. -/
def altTick (s : System α) : Option (System α) :=
  (s.links.next .list).map fun first =>
    { s with nticks := s.nticks + 1#32, phase := .walking first }

def Alarm.rollOver (alarm : Alarm) (nticks : BitVec 32) : Alarm :=
  if alarm.rollover = true ∧ nticks = 0#32 then { alarm with rollover := false } else alarm

def Alarm.expired (alarm : Alarm) (nticks : BitVec 32) : Bool :=
  decide (alarm.time ≤ nticks) && !alarm.rollover

/-- The loop's body, up to the callback. -/
def visit (s : System α) (a : α) : Option (System α) :=
  (s.links.next (.alarm a)).map fun next =>
    let alarm := (s.alarms a).rollOver s.nticks
    { s with
      alarms := Function.update s.alarms a alarm
      phase := if alarm.expired s.nticks then .calling a next else .walking next }

def Alarm.again (alarm : Alarm) (nticks nextCallback : BitVec 32) : Alarm :=
  let time := alarm.time + nextCallback
  ⟨time, alarm.rollover || decide (time < nticks)⟩

/-- The loop's body, from the callback on. -/
def answer (s : System α) (a : α) (next : Ptr α) (nextCallback : BitVec 32) :
    Option (System α) :=
  if nextCallback = 0#32 then
    (altAlarmStop s a).map fun s => { s with phase := .walking next }
  else
    some
      { s with
        alarms := Function.update s.alarms a ((s.alarms a).again s.nticks nextCallback)
        phase := .walking next }

/-! ## The system -/

inductive Event (α : Type) where
  | sysclkInit (nticks : BitVec 32)
  | start (alarm : Option α) (nticks : BitVec 32)
  | stop (alarm : α)
  | tick
  | visit (alarm : α)
  | answer (alarm : α) (nextCallback : BitVec 32)
  | finish
  deriving DecidableEq

def Phase.isWalking : Phase α → Bool
  | .walking _ => true
  | _ => false

def Phase.running : Phase α → Option α
  | .calling a _ => some a
  | _ => none

/-- The `next` that the walk goes on with when the callback has returned. -/
def Phase.saved : Phase α → Option (Ptr α)
  | .calling _ next => some next
  | _ => none

def step (s : System α) : Event α → Option (System α)
  | .sysclkInit nticks => if s.phase = .idle then some (altSysclkInit s nticks) else none
  | .start alarm nticks =>
      if s.phase.isWalking then none
      else
        (altAlarmStart s alarm nticks).map fun
          | .ok s' => s'
          | .error _ => s
  | .stop a => if s.phase.isWalking then none else altAlarmStop s a
  | .tick => if s.phase = .idle then altTick s else none
  | .visit a => if s.phase = .walking (.alarm a) then visit s a else none
  | .answer a nextCallback =>
      match s.phase with
      | .calling b next => if b = a then answer s a next nextCallback else none
      | _ => none
  | .finish => if s.phase = .walking .list then some { s with phase := .idle } else none

/-- The alarm was never started, or was taken out of the list. -/
def System.Free (s : System α) (a : α) : Prop :=
  s.links.next (.alarm a) = none ∨ s.links.next (.alarm a) = some (.alarm a)

instance (s : System α) (a : α) : Decidable (s.Free a) := by
  unfold System.Free
  infer_instance

/-- What the callers promise.  Only a free alarm is started, and not by its own callback.
An interval of all ones would come round to the tick it is started in, which is not seen as
a rollover.  A callback does not stop the alarm that the walk goes on with. -/
def Promised (s : System α) : Event α → Prop
  | .start (some a) nticks =>
      nticks ≠ BitVec.allOnes 32 ∧ s.Free a ∧ s.phase.running ≠ some a
  | .stop a => s.phase.saved ≠ some (.alarm a)
  | _ => True

instance (s : System α) (e : Event α) : Decidable (Promised s e) := by
  unfold Promised
  split <;> infer_instance

/-- Before `alt_sysclk_init`; the alarms are not in a list yet. -/
def init : System α where
  tickRate := 0#32
  nticks := 0#32
  links :=
    { next := fun p => if p = .list then some .list else none
      previous := fun p => if p = .list then some .list else none }
  alarms := fun _ => ⟨0#32, false⟩
  phase := .idle

/-! ## Their purpose -/

/-- The ticks so far, and the tick at which each registered alarm calls back, without the
bound of a 32-bit counter. -/
structure Schedule (α : Type) where
  ready : Bool
  clock : Nat
  due : α → Option Nat

/-- An alarm calls back `nticks + 1` ticks after its start, and then at the intervals that
the callback answers. -/
def Schedule.step (t : Schedule α) : Event α → Schedule α
  | .sysclkInit nticks => { t with ready := t.ready || decide (nticks ≠ 0#32) }
  | .start (some a) nticks =>
      if t.ready then
        { t with due := Function.update t.due a (some (t.clock + nticks.toNat + 1)) }
      else t
  | .start none _ => t
  | .stop a => { t with due := Function.update t.due a none }
  | .tick => { t with clock := t.clock + 1 }
  | .visit _ => t
  | .answer a nextCallback =>
      { t with
        due := Function.update t.due a
          (if nextCallback = 0#32 then none else (t.due a).map (· + nextCallback.toNat)) }
  | .finish => t

def schedule (es : List (Event α)) : Schedule α :=
  es.foldl Schedule.step ⟨false, 0, fun _ => none⟩

theorem schedule_snoc (es : List (Event α)) (e : Event α) :
    schedule (es ++ [e]) = (schedule es).step e :=
  List.foldl_concat ..

end Esd1.Hal.Alarms
