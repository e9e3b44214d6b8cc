import Esd1.Clocked.Reset
import Esd1.Lab4.ServoController

/-!
# `Lab4.vhd`

The board: `synchronizer.vhd` on the keys, with `KEY(0)` as the reset of the servo
controller, and the controller with its ports tied down.  The synchronizer has no reset
of its own, so a board starts from any contents of its flip-flops.

The controller is reset at once when `reset_n` falls, which is when an edge has loaded
the second flip-flop.  That edge may have been one of the controller too, but what it did
does not last.
-/

namespace Esd1.Lab4

structure Synchronizer (size : Nat) where
  flop1 : BitVec size
  flop2 : BitVec size
  deriving DecidableEq, Repr

namespace Synchronizer

variable {size : Nat}

def edge (s : Synchronizer size) (asyncIn : BitVec size) : Synchronizer size where
  flop1 := asyncIn
  flop2 := s.flop1

def syncOut (s : Synchronizer size) : BitVec size := s.flop2

end Synchronizer

structure Board where
  syncKeys : Synchronizer 4
  functional : Registers
  deriving DecidableEq, Repr

namespace Board

/-- `reset_n <= KEY_sync(0)`. -/
def resetN (b : Board) : Bool := b.syncKeys.syncOut.getLsbD 0

/-- `GPIO_0(3)`. -/
def gpio3 (b : Board) : Bool := b.functional.outwave

/-- One rising edge of `CLOCK_50`, with the keys as it samples them. -/
def edge (b : Board) (key : BitVec 4) : Board :=
  let syncKeys := b.syncKeys.edge key
  { syncKeys := syncKeys
    functional := (servoController (resize iteratorDefault)).asyncEdge b.resetN
      (syncKeys.syncOut.getLsbD 0) b.functional (lab4Ports lab4Data) }

end Board

def lab4 (powerUp : Board) : Clocked.Machine Board (BitVec 4) where
  reset := powerUp
  edge := Board.edge

end Esd1.Lab4
