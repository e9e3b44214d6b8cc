import Esd1.Clocked.Machine

/-!
# `altera_avalon_sc_fifo`

The FIFO of the response path, which `nios_system` builds from registers: a shift register
whose slots have a bit each that says whether they are occupied.  Here for any depth, and for
an empty latency of one or, with lookahead, of zero.  The packet signals only make the payload
wider; nothing uses the fill level or store and forward.
-/

namespace Esd1.Merlin.ScFifo

structure Params where
  depth : Nat
  lookahead : Bool
  deriving DecidableEq, Repr

structure Registers (w : Nat) where
  mem : Nat → BitVec w
  memUsed : Nat → Bool

structure Inputs (w : Nat) where
  inPayload : BitVec w
  inValid : Bool
  outReady : Bool
  deriving DecidableEq, Repr

section Wires

variable {w : Nat} (p : Params) (r : Registers w) (i : Inputs w)

def empty : Bool := if p.lookahead then !r.memUsed 0 && !i.inValid else !r.memUsed 0

def outValid : Bool := !empty p r i

def outPayload : BitVec w :=
  if p.lookahead && !r.memUsed 0 && i.inValid then i.inPayload else r.mem 0

def internalOutReady : Bool := i.outReady || !outValid p r i

def read : Bool := internalOutReady p r i && outValid p r i

/-- In a single slot, reading clears the full status immediately. -/
def full : Bool :=
  if p.depth = 1 then r.memUsed 0 && !read p r i else r.memUsed (p.depth - 1)

def inReady : Bool := !full p r i

def write : Bool := inReady p r i && i.inValid

def memEdge (j : Nat) : BitVec w :=
  if j + 1 < p.depth then
    if read p r i || !r.memUsed j then
      if !r.memUsed (j + 1) then i.inPayload else r.mem (j + 1)
    else r.mem j
  else if p.depth = 1 then
    if write p r i then i.inPayload else r.mem j
  else if !r.memUsed j then i.inPayload
  else r.mem j

def memUsedEdge (j : Nat) : Bool :=
  if write p r i ^^ read p r i then
    if j = 0 then
      if write p r i then true else if 1 < p.depth then r.memUsed 1 else false
    else if j + 1 = p.depth then
      if write p r i then r.memUsed (p.depth - 2) else false
    else if write p r i then r.memUsed (j - 1)
    else r.memUsed (j + 1)
  else r.memUsed j

def edge : Registers w := ⟨memEdge p r i, memUsedEdge p r i⟩

end Wires

def machine (w : Nat) (p : Params) : Clocked.Machine (Registers w) (Inputs w) where
  reset := ⟨fun _ => 0#w, fun _ => false⟩
  edge := edge p

/-! ## What goes through -/

variable {w : Nat} (p : Params)

/-- The occupied slots, the oldest entry first. -/
def contents (r : Registers w) : List (BitVec w) :=
  ((List.range p.depth).filter r.memUsed).map r.mem

def accepted (u : Nat → Inputs w) (n : Nat) : List (BitVec w) :=
  (List.range n).flatMap fun t =>
    if write p ((machine w p).run u t) (u t) then [(u t).inPayload] else []

def delivered (u : Nat → Inputs w) (n : Nat) : List (BitVec w) :=
  (List.range n).flatMap fun t =>
    if outValid p ((machine w p).run u t) (u t) && (u t).outReady then
      [outPayload p ((machine w p).run u t) (u t)]
    else []

end Esd1.Merlin.ScFifo
