import Mathlib.Init

/-!
# `Pre-Lab.c`

The polling version of the display.  `main` looks at the keys and the switches once
in each pass of its outer loop and at the keys once in each pass of its inner loop;
here it consumes one sample a pass.
-/

namespace Esd1.Lab3

structure Sample where
  keys : BitVec 8
  switches : BitVec 8
  deriving DecidableEq, Repr

def Sample.Pressed (x : Sample) : Prop := x.keys &&& 0x02#8 = 0#8

instance (x : Sample) : Decidable x.Pressed := inferInstanceAs (Decidable (_ = _))

namespace PreLab

def hexValues : List (BitVec 8) :=
  [0x40#8, 0x79#8, 0x24#8, 0x30#8, 0x19#8, 0x12#8, 0x02#8, 0x78#8, 0x00#8, 0x18#8]

inductive Pc where
  | outer
  | inner (switchVal : BitVec 8)
  deriving DecidableEq, Repr

/-- The local variables of `main`, and all bytes stored to `HexPtr` so far. -/
structure State where
  arrayIdx : BitVec 16
  hex : List (BitVec 8)
  pc : Pc
  deriving DecidableEq, Repr

/-- `*HexPtr = hexValues[arrayIDX]`.  An access out of bounds has no successor. -/
def storeHex (s : State) : Option State :=
  hexValues[s.arrayIdx.toNat]?.map fun segments => { s with hex := s.hex ++ [segments] }

def updateIdx (s : State) (switchVal : BitVec 8) : Option State :=
  if switchVal = 0x00#8 then
    if s.arrayIdx = 0#16 then some s
    else storeHex { s with arrayIdx := s.arrayIdx - 1#16 }
  else if switchVal = 0x01#8 then
    if s.arrayIdx = 9#16 then some s
    else storeHex { s with arrayIdx := s.arrayIdx + 1#16 }
  else some s

/-- The end of an outer pass in which the key was pressed. -/
def released (s : State) (switchVal : BitVec 8) : Option State :=
  (updateIdx s switchVal).map fun s => { s with pc := .outer }

/-- One pass.  The `break` of the inner loop compares the masked byte with 1. -/
def step (s : State) (x : Sample) : Option State :=
  match s.pc with
  | .outer => if x.Pressed then some { s with pc := .inner x.switches } else some s
  | .inner switchVal =>
      if x.keys &&& 0x02#8 = 1#8 then released s switchVal
      else if x.Pressed then some s
      else released s switchVal

def start : State where
  arrayIdx := 0#16
  hex := [hexValues.get ⟨0, by decide⟩]
  pc := .outer

def main (samples : List Sample) : Option State := samples.foldlM step start

end PreLab

end Esd1.Lab3
