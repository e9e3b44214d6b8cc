import Esd1.Lab3.Part3
import Esd1.Lab3.PreLab

/-!
# `pushbutton_isr` on a stream of samples

The interrupt version of the display, fed with the samples that the polling version
consumes.  A falling edge of KEY1 between two samples is captured by the port and
served at once: the handler runs from its entry to its return.
-/

namespace Esd1.Lab3

def hexStore (s : System) : PushbuttonPc → List (BitVec 8)
  | .storeHex => hexValues[s.arrayIdx.toNat]?.toList
  | _ => []

/-- Run `pushbutton_isr` to its return, `fuel` accesses at most, and append what it
stores to `HexPtr` to `hex`. -/
def returnIsr : Nat → System → List (BitVec 8) → Option (System × List (BitVec 8))
  | 0, _, _ => none
  | fuel + 1, s, hex =>
      match s.cpu with
      | .pushbuttonIsr pc =>
          (pushbuttonIsr s pc).bind fun s' => returnIsr fuel s' (hex ++ hexStore s pc)
      | _ => some (s, hex)

structure Serving where
  system : System
  wasReleased : Bool
  hex : List (BitVec 8)
  deriving DecidableEq, Repr

/-- The keys and switches change to the sample, and the routine is invoked if KEY1
has just been pressed. -/
def serve (q : Serving) (x : Sample) : Option Serving :=
  (step q.system (.setSwitches x.switches)).bind fun s =>
    if x.Pressed ∧ q.wasReleased then
      ((step s (.keyEdge key1)).bind (step · .enterPushbuttonIsr)).bind fun s' =>
        (returnIsr 6 s' q.hex).map fun (s'', hex) => ⟨s'', false, hex⟩
    else some ⟨s, !x.Pressed, q.hex⟩

def Serving.start (s₀ : System) : Serving where
  system := s₀
  wasReleased := false
  hex := hexValues[0]?.toList

def serveAll (s₀ : System) (samples : List Sample) : Option Serving :=
  samples.foldlM serve (Serving.start s₀)

end Esd1.Lab3
