import Esd1.Clocked.Machine

/-!
# `altera_merlin_arbitrator`

The arbitrator of the interconnect, for any number of requesters and in each of its
schemes.  The requesters are the bits of a vector, the lowest one first.
-/

namespace Esd1.Merlin

/-! ## `altera_merlin_arb_adder` -/

section Adder

variable {w : Nat} (a b : BitVec w)

/-- One stage of `full_adder`, with `cout[i-1]` to `cout[i]` and `sum[i]`. -/
def fullAdderStage (i : Fin w) (cout : Bool) : Bool × Bool :=
  let x := a.getLsbD i
  let y := b.getLsbD i
  if i.val = 0 then (x && y, x ^^ y) else (x && y || cout && (x ^^ y), (x ^^ y) ^^ cout)

def fullAdder : BitVec w := (BitVec.iunfoldr (fullAdderStage a b) false).2

/-- `carry_chain`: `sum_lint` is one bit wider. -/
def carryChain : BitVec w :=
  let sumLint := a.setWidth (w + 1) + b.setWidth (w + 1)
  sumLint.setWidth w

def arbAdder : BitVec w := if w ≤ 8 then fullAdder a b else carryChain a b

end Adder

/-! ## `altera_merlin_arbitrator` -/

inductive Scheme where
  | roundRobin
  | fixedPriority
  | noArb
  deriving DecidableEq, Repr

structure Params where
  scheme : Scheme
  pipeline : Bool
  deriving DecidableEq, Repr

namespace Arbitrator

structure Inputs (n : Nat) where
  request : BitVec n
  incrementTopPriority : Bool
  saveTopPriority : Bool
  deriving DecidableEq, Repr

variable {n : Nat}

def topPriority (p : Params) (topPriorityReg : BitVec n) : BitVec n :=
  if p.scheme = .roundRobin ∧ 1 < n then topPriorityReg else 1#n

def grant (p : Params) (topPriorityReg request : BitVec n) : BitVec n :=
  let result := arbAdder (~~~request ++ ~~~request) (0#n ++ topPriority p topPriorityReg)
  match p.scheme with
  | .noArb => request
  | _ =>
      let grantDoubleVector := (request ++ request) &&& result
      grantDoubleVector.extractLsb' 0 n ||| grantDoubleVector.extractLsb' n n

/-- One rising edge of `clk`; the register is `top_priority_reg`. -/
def edge (p : Params) (topPriorityReg : BitVec n) (i : Inputs n) : BitVec n :=
  let g := grant p topPriorityReg i.request
  if p.pipeline then
    if i.incrementTopPriority then
      if i.request ≠ 0#n then g.rotateLeft 1 else topPriorityReg
    else topPriorityReg
  else if i.incrementTopPriority then
    if i.request ≠ 0#n then g.rotateLeft 1 else topPriorityReg.rotateLeft 1
  else if i.saveTopPriority then g
  else topPriorityReg

def machine (n : Nat) (p : Params) : Clocked.Machine (BitVec n) (Inputs n) where
  reset := 1#n
  edge := edge p

end Arbitrator

end Esd1.Merlin
