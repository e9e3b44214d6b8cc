import Esd1.NiosII.Isa

/-!
# Programs on a bus

Byte accesses that bypass the cache.  Every instruction is one event.  A load reports the
byte that the bus answered, so a run ranges over all answers of the devices and the memory.

The program counter counts instructions, as nothing here computes a code address.
-/

namespace Esd1.NiosII

inductive BusOp where
  | ldbio (b : Reg) (offset : BitVec 16) (a : Reg)
  | stbio (b : Reg) (offset : BitVec 16) (a : Reg)

namespace Line

variable {L : Type*}

def ldbio (b : Reg) (offset : BitVec 16) (a : Reg) : Line BusOp L :=
  .instr (.other (.ldbio b offset a))

def stbio (b : Reg) (offset : BitVec 16) (a : Reg) : Line BusOp L :=
  .instr (.other (.stbio b offset a))

end Line

structure State where
  pc : Nat
  regs : Regs

/-- What an instruction does on the bus.  A load and a store name the register that
holds the base address. -/
inductive Access where
  | internal
  | load (base : Reg) (addr : Word) (value : Byte)
  | store (base : Reg) (addr : Word) (value : Byte)
  deriving DecidableEq, Repr

section Step

variable {L : Type*} [DecidableEq L]

/-- One instruction.  A byte is extended by its sign when it is loaded. -/
def step (prog : List (Line BusOp L)) (s : State) (e : Access) : Option State :=
  match (code prog)[s.pc]?, e with
  | some (.alu op b a imm), .internal =>
      some ⟨s.pc + 1, s.regs.write b (op.eval (s.regs.read a) imm)⟩
  | some (.branch c a b target), .internal =>
      some ⟨if c.Holds (s.regs.read a) (s.regs.read b) then address prog target
        else s.pc + 1, s.regs⟩
  | some (.other (.ldbio b offset a)), .load base addr value =>
      if base = a ∧ addr = s.regs.read a + offset.signExtend 32 then
        some ⟨s.pc + 1, s.regs.write b (value.signExtend 32)⟩
      else none
  | some (.other (.stbio b offset a)), .store base addr value =>
      if base = a ∧ addr = s.regs.read a + offset.signExtend 32 ∧
          value = (s.regs.read b).setWidth 8 then
        some ⟨s.pc + 1, s.regs⟩
      else none
  | _, _ => none

end Step

end Esd1.NiosII
