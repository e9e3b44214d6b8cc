import Mathlib.Algebra.Group.Nat.Defs
import Esd1.NiosII.Isa
import Esd1.Programs.Total

/-!
# A Nios II with memory

Word and byte accesses, arithmetic on two registers, signed comparisons, and calls, over
a memory of bytes in which the least significant comes first.  The instructions are kept
apart from the data: a program that writes over itself is not one of these.

The program counter counts instructions.  A call puts a code address into `ra`, so a
program has an address for its first instruction.
-/

namespace Esd1.NiosII

namespace Machine

/-! ## Memory -/

def Aligned (a : Word) : Prop := a &&& 3#32 = 0#32

instance (a : Word) : Decidable (Aligned a) := inferInstanceAs (Decidable (_ = _))

theorem aligned_iff {a : Word} : Aligned a ↔ a.toNat % 4 = 0 := by
  have hand : (a &&& 3#32).toNat = a.toNat % 4 := by
    rw [BitVec.toNat_and]
    exact Nat.and_two_pow_sub_one_eq_mod a.toNat 2
  constructor
  · intro h
    rw [← hand, h]
    rfl
  · intro h
    apply BitVec.eq_of_toNat_eq
    rw [hand, h]
    rfl

theorem Aligned.add {a b : Word} (ha : Aligned a) (hb : Aligned b) : Aligned (a + b) := by
  rw [aligned_iff] at *
  rw [BitVec.toNat_add]
  omega

theorem aligned_ofNat (j : Nat) : Aligned (BitVec.ofNat 32 (4 * j)) := by
  rw [aligned_iff, BitVec.toNat_ofNat]
  omega

abbrev Memory := Word → Byte

namespace Memory

def loadWord (μ : Memory) (a : Word) : Word := μ (a + 3#32) ++ μ (a + 2#32) ++ μ (a + 1#32) ++ μ a

def storeByte (μ : Memory) (a : Word) (b : Byte) : Memory := fun a' => if a' = a then b else μ a'

/-- Byte `i` of the word goes to the address `a + i`. -/
def storeWord (μ : Memory) (a w : Word) : Memory := fun a' =>
  if (a' - a).toNat < 4 then w.extractLsb' (8 * (a' - a).toNat) 8 else μ a'

theorem storeByte_self (μ : Memory) (a : Word) (b : Byte) : μ.storeByte a b a = b := if_pos rfl

theorem storeByte_of_ne (μ : Memory) {a a' : Word} (b : Byte) (h : a' ≠ a) :
    μ.storeByte a b a' = μ a' := if_neg h

theorem storeWord_add (μ : Memory) (a w : Word) {i : Word} (h : i.toNat < 4) :
    μ.storeWord a w (a + i) = w.extractLsb' (8 * i.toNat) 8 := by
  have hoffset : a + i - a = i := by rw [BitVec.add_comm, BitVec.add_sub_cancel]
  rw [storeWord, hoffset, if_pos h]

theorem loadWord_storeWord (μ : Memory) (a w : Word) : (μ.storeWord a w).loadWord a = w := by
  have h0 := μ.storeWord_add a w (i := 0#32) (by decide)
  rw [BitVec.add_zero] at h0
  rw [loadWord, h0, storeWord_add _ _ _ (by decide), storeWord_add _ _ _ (by decide),
    storeWord_add _ _ _ (by decide)]
  rw [BitVec.extractLsb'_append_extractLsb'_eq_extractLsb' (by decide),
    BitVec.extractLsb'_append_extractLsb'_eq_extractLsb' (by decide),
    BitVec.extractLsb'_append_extractLsb'_eq_extractLsb' (by decide)]
  exact BitVec.extractLsb'_eq_self

end Memory

/-! ## Instructions -/

/-- `%hiadj`: what stands in the upper half before `%lo` is added as a signed number. -/
def hiadj (w : Word) : BitVec 16 := hi w + (BitVec.ofBool (lo w).msb).setWidth 16

/-- `orhi` and `addi` together load a word. -/
theorem addi_orhi (w : Word) :
    AluOp.addi.eval (AluOp.orhi.eval 0#32 (hiadj w)) (lo w) = w := by
  have hw := w.isLt
  have hmsb : (lo w).msb = decide (2 ^ 15 ≤ w.toNat % 2 ^ 16) := by
    rw [BitVec.msb_eq_decide, lo, BitVec.extractLsb'_toNat]
    rfl
  have hlo : (lo w).toNat = w.toNat % 2 ^ 16 := by
    rw [lo, BitVec.extractLsb'_toNat]
    rfl
  have hhi : (hi w).toNat = w.toNat / 2 ^ 16 := by
    rw [hi, BitVec.extractLsb'_toNat, Nat.shiftRight_eq_div_pow, Nat.mod_eq_of_lt]
    omega
  apply BitVec.eq_of_toNat_eq
  simp only [AluOp.eval, BitVec.zero_or, BitVec.toNat_add, BitVec.toNat_signExtend,
    BitVec.toNat_shiftLeft, BitVec.toNat_setWidth, hiadj, hmsb, hlo, hhi]
  by_cases hsign : 2 ^ 15 ≤ w.toNat % 2 ^ 16
  · have hbit : (BitVec.ofBool true).toNat = 1 := rfl
    simp only [hsign, decide_true, if_true, hbit, Nat.shiftLeft_eq]
    omega
  · have hbit : (BitVec.ofBool false).toNat = 0 := rfl
    simp only [hsign, decide_false, Bool.false_eq_true, if_false, hbit, Nat.shiftLeft_eq]
    omega

theorem addi_four (w : Word) : AluOp.addi.eval w 4 = w + 4#32 := by
  have hext : (4 : BitVec 16).signExtend 32 = 4#32 := by decide
  rw [AluOp.eval, hext]

inductive RegOp where
  | add
  | sub
  deriving DecidableEq, Repr

def RegOp.eval : RegOp → Word → Word → Word
  | .add, x, y => x + y
  | .sub, x, y => x - y

/-- The instructions beside immediate arithmetic and branches. -/
inductive Op (L : Type*) where
  | reg (op : RegOp) (c a b : Reg)
  | ldw (b : Reg) (offset : BitVec 16) (a : Reg)
  | stw (b : Reg) (offset : BitVec 16) (a : Reg)
  | stb (b : Reg) (offset : BitVec 16) (a : Reg)
  | call (target : L)
  | ret

end Machine

namespace Line

open Machine

variable {L : Type*}

def sub (c a b : Reg) : Line (Op L) L := .instr (.other (.reg .sub c a b))

/-- `mov` is assembled as `add` with `r0`. -/
def mov (c a : Reg) : Line (Op L) L := .instr (.other (.reg .add c a .r0))

def ldw (b : Reg) (offset : BitVec 16) (a : Reg) : Line (Op L) L :=
  .instr (.other (.ldw b offset a))

def stw (b : Reg) (offset : BitVec 16) (a : Reg) : Line (Op L) L :=
  .instr (.other (.stw b offset a))

def stb (b : Reg) (offset : BitVec 16) (a : Reg) : Line (Op L) L :=
  .instr (.other (.stb b offset a))

def call (target : L) : Line (Op L) L := .instr (.other (.call target))

def ret : Line (Op L) L := .instr (.other .ret)

end Line

namespace Machine

structure Program (L : Type*) where
  base : Word
  lines : List (Line (Op L) L)

namespace Program

variable {L : Type*}

def code (p : Program L) : List (Instr (Op L) L) := NiosII.code p.lines

def address [DecidableEq L] (p : Program L) (l : L) : Nat := NiosII.address p.lines l

def codeAddress (p : Program L) (k : Nat) : Word := p.base + BitVec.ofNat 32 (4 * k)

end Program

/-! ## Execution -/

structure State where
  pc : Nat
  regs : Regs
  mem : Memory

section Step

variable {L : Type*} [DecidableEq L]

/-- One instruction.  A word access or a return to an address that is not a multiple of
four is an exception, which has no successor here. -/
def step (p : Program L) (s : State) : Option State :=
  match p.code[s.pc]? with
  | some (.alu op b a imm) =>
      some { s with pc := s.pc + 1, regs := s.regs.write b (op.eval (s.regs.read a) imm) }
  | some (.branch c a b target) =>
      some { s with
        pc := if c.Holds (s.regs.read a) (s.regs.read b) then p.address target else s.pc + 1 }
  | some (.other (.reg op c a b)) =>
      some { s with
        pc := s.pc + 1
        regs := s.regs.write c (op.eval (s.regs.read a) (s.regs.read b)) }
  | some (.other (.ldw b offset a)) =>
      let addr := s.regs.read a + offset.signExtend 32
      if Aligned addr then
        some { s with pc := s.pc + 1, regs := s.regs.write b (s.mem.loadWord addr) }
      else none
  | some (.other (.stw b offset a)) =>
      let addr := s.regs.read a + offset.signExtend 32
      if Aligned addr then
        some { s with pc := s.pc + 1, mem := s.mem.storeWord addr (s.regs.read b) }
      else none
  | some (.other (.stb b offset a)) =>
      let addr := s.regs.read a + offset.signExtend 32
      some { s with pc := s.pc + 1, mem := s.mem.storeByte addr ((s.regs.read b).setWidth 8) }
  | some (.other (.call target)) =>
      some { s with
        pc := p.address target
        regs := s.regs.write .ra (p.codeAddress (s.pc + 1)) }
  | some (.other .ret) =>
      let offset := s.regs.read .ra - p.base
      if Aligned offset then some { s with pc := (offset >>> 2).toNat } else none
  | none => none

end Step

/-! ## Rules -/

section Rules

open Programs

variable {L : Type*} [DecidableEq L] {p : Program L} {Q : State → Prop} {k : Nat} {ρ : Regs}
  {μ : Memory} {a b c : Reg} {imm : BitVec 16} {target : L}

theorem will_alu {op : AluOp} (hcode : p.code[k]? = some (.alu op b a imm))
    (h : Will (step p) Q ⟨k + 1, ρ.write b (op.eval (ρ.read a) imm), μ⟩) :
    Will (step p) Q ⟨k, ρ, μ⟩ := by
  apply Will.step _ h
  simp only [step, hcode]

theorem will_branch_taken {cond : Cond} (hcode : p.code[k]? = some (.branch cond a b target))
    (hc : cond.Holds (ρ.read a) (ρ.read b)) (h : Will (step p) Q ⟨p.address target, ρ, μ⟩) :
    Will (step p) Q ⟨k, ρ, μ⟩ := by
  apply Will.step _ h
  simp only [step, hcode]
  rw [if_pos hc]

theorem will_branch_not_taken {cond : Cond} (hcode : p.code[k]? = some (.branch cond a b target))
    (hc : ¬ cond.Holds (ρ.read a) (ρ.read b)) (h : Will (step p) Q ⟨k + 1, ρ, μ⟩) :
    Will (step p) Q ⟨k, ρ, μ⟩ := by
  apply Will.step _ h
  simp only [step, hcode]
  rw [if_neg hc]

theorem will_br (hcode : p.code[k]? = some (.branch .always a b target))
    (h : Will (step p) Q ⟨p.address target, ρ, μ⟩) : Will (step p) Q ⟨k, ρ, μ⟩ :=
  will_branch_taken hcode trivial h

theorem will_reg {op : RegOp} (hcode : p.code[k]? = some (.other (.reg op c a b)))
    (h : Will (step p) Q ⟨k + 1, ρ.write c (op.eval (ρ.read a) (ρ.read b)), μ⟩) :
    Will (step p) Q ⟨k, ρ, μ⟩ := by
  apply Will.step _ h
  simp only [step, hcode]

theorem will_ldw (hcode : p.code[k]? = some (.other (.ldw b imm a)))
    (haligned : Aligned (ρ.read a + imm.signExtend 32))
    (h : Will (step p) Q
      ⟨k + 1, ρ.write b (μ.loadWord (ρ.read a + imm.signExtend 32)), μ⟩) :
    Will (step p) Q ⟨k, ρ, μ⟩ := by
  apply Will.step _ h
  simp only [step, hcode]
  rw [if_pos haligned]

theorem will_stw (hcode : p.code[k]? = some (.other (.stw b imm a)))
    (haligned : Aligned (ρ.read a + imm.signExtend 32))
    (h : Will (step p) Q
      ⟨k + 1, ρ, μ.storeWord (ρ.read a + imm.signExtend 32) (ρ.read b)⟩) :
    Will (step p) Q ⟨k, ρ, μ⟩ := by
  apply Will.step _ h
  simp only [step, hcode]
  rw [if_pos haligned]

theorem will_stb (hcode : p.code[k]? = some (.other (.stb b imm a)))
    (h : Will (step p) Q
      ⟨k + 1, ρ, μ.storeByte (ρ.read a + imm.signExtend 32) ((ρ.read b).setWidth 8)⟩) :
    Will (step p) Q ⟨k, ρ, μ⟩ := by
  apply Will.step _ h
  simp only [step, hcode]

theorem will_call (hcode : p.code[k]? = some (.other (.call target)))
    (h : Will (step p) Q ⟨p.address target, ρ.write .ra (p.codeAddress (k + 1)), μ⟩) :
    Will (step p) Q ⟨k, ρ, μ⟩ := by
  apply Will.step _ h
  simp only [step, hcode]

theorem will_ret {j : Nat} (hcode : p.code[k]? = some (.other .ret)) (hra : ρ.read .ra = p.codeAddress j)
    (hj : 4 * j < 2 ^ 32) (h : Will (step p) Q ⟨j, ρ, μ⟩) : Will (step p) Q ⟨k, ρ, μ⟩ := by
  apply Will.step _ h
  have hoffset : ρ.read .ra - p.base = BitVec.ofNat 32 (4 * j) := by
    rw [hra, Program.codeAddress, BitVec.add_comm, BitVec.add_sub_cancel]
  have hindex : (BitVec.ofNat 32 (4 * j) >>> 2).toNat = j := by
    rw [BitVec.toNat_ushiftRight, BitVec.toNat_ofNat, Nat.mod_eq_of_lt hj, Nat.shiftRight_eq_div_pow]
    omega
  simp only [step, hcode]
  rw [hoffset, if_pos (aligned_ofNat j), hindex]

theorem halted_br (hcode : p.code[k]? = some (.branch .always .r0 .r0 target))
    (hself : p.address target = k) : Halted (step p) ⟨k, ρ, μ⟩ := by
  unfold Halted
  simp only [step, hcode]
  rw [if_pos (show Cond.always.Holds _ _ from trivial), hself]

end Rules

end Machine

end Esd1.NiosII
