import Mathlib.Tactic.SplitIfs
import Esd1.Words.Bits

/-!
# A fragment of the Nios II instruction set

Registers, immediate arithmetic and branches, with the labels and the mnemonics of the
assembler.  What a program does beside that depends on the machine, so the instructions
are over the further ones `X` that a machine has.
-/

namespace Esd1.NiosII

abbrev Word := BitVec 32

abbrev Byte := BitVec 8

inductive Reg where
  | r0 | r1 | r2 | r3 | r4 | r5 | r6 | r7 | r8 | r9 | r10 | r11 | r12 | r13 | r14 | r15
  | r16 | r17 | r18 | r19 | r20 | r21 | r22 | r23 | et | bt | gp | sp | fp | ea | ba | ra
  deriving DecidableEq, Repr

abbrev Regs := Reg → Word

namespace Regs

/-- `r0` reads as zero, whatever is written to it. -/
def read (ρ : Regs) (r : Reg) : Word := if r = .r0 then 0#32 else ρ r

def write (ρ : Regs) (r : Reg) (w : Word) : Regs := fun r' => if r' = r then w else ρ r'

@[simp] theorem read_r0 (ρ : Regs) : ρ.read .r0 = 0#32 := rfl

theorem read_write_self (ρ : Regs) {r : Reg} (w : Word) (h : r ≠ .r0) :
    (ρ.write r w).read r = w := by
  rw [read, if_neg h, write, if_pos rfl]

@[simp] theorem write_write (ρ : Regs) (r : Reg) (v w : Word) :
    (ρ.write r v).write r w = ρ.write r w := by
  funext r'
  unfold write
  split_ifs <;> rfl

theorem read_write_of_ne (ρ : Regs) {r r' : Reg} (w : Word) (h : r' ≠ r) :
    (ρ.write r w).read r' = ρ.read r' := by
  rw [read, read, write, if_neg h]

end Regs

/-! ## Instructions -/

inductive AluOp where
  | addi
  | andi
  | ori
  | orhi
  deriving DecidableEq, Repr

namespace AluOp

/-- `addi` extends its immediate by the sign, the others by zeros. -/
def eval : AluOp → Word → BitVec 16 → Word
  | .addi, x, imm => x + imm.signExtend 32
  | .andi, x, imm => x &&& imm.setWidth 32
  | .ori, x, imm => x ||| imm.setWidth 32
  | .orhi, x, imm => x ||| imm.setWidth 32 <<< 16

end AluOp

/-- `%hi`: the upper half of a word. -/
def hi (w : Word) : BitVec 16 := w.extractLsb' 16 16

def lo (w : Word) : BitVec 16 := w.extractLsb' 0 16

/-- `movhi` and `ori` together load a word. -/
theorem ori_orhi (w : Word) :
    AluOp.ori.eval (AluOp.orhi.eval 0#32 (hi w)) (lo w) = w := by
  apply BitVec.eq_of_getLsbD_eq
  intro i hi
  simp only [AluOp.eval, NiosII.hi, lo, BitVec.getLsbD_or, BitVec.getLsbD_zero,
    BitVec.getLsbD_shiftLeft, BitVec.getLsbD_setWidth, BitVec.getLsbD_extractLsb']
  by_cases h : i < 16
  · simp [h, hi]
  · have hlow : i - 16 < 16 := by omega
    have hshift : 16 + (i - 16) = i := by omega
    have hword : i - 16 < 32 := by omega
    simp [hi, h, hlow, hword, hshift]

@[simp] theorem add_signExtend_zero (w : Word) : w + (0 : BitVec 16).signExtend 32 = w :=
  BitVec.add_zero w

/-- Masking one bit of a loaded byte. -/
theorem andi_signExtend_eq_zero_iff (value : Byte) (i : Nat) (hi : i < 8) :
    AluOp.andi.eval (value.signExtend 32) (BitVec.twoPow 16 i) = 0#32 ↔
      value.getLsbD i = false := by
  have h32 : i < 32 := by omega
  have hbit : (value.signExtend 32).getLsbD i = value.getLsbD i := by
    rw [BitVec.getLsbD_signExtend, if_pos hi, decide_eq_true h32, Bool.true_and]
  rw [AluOp.eval, Words.setWidth_twoPow (by omega) h32, Words.and_twoPow_eq_zero_iff h32, hbit]

/-- The comparisons of the branches; `ge` and `lt` are signed. -/
inductive Cond where
  | eq
  | ne
  | ge
  | lt
  | always
  deriving DecidableEq, Repr

namespace Cond

def Holds : Cond → Word → Word → Prop
  | .eq, x, y => x = y
  | .ne, x, y => x ≠ y
  | .ge, x, y => y.sle x = true
  | .lt, x, y => x.slt y = true
  | .always, _, _ => True

instance (c : Cond) (x y : Word) : Decidable (c.Holds x y) :=
  match c with
  | .eq => inferInstanceAs (Decidable (x = y))
  | .ne => inferInstanceAs (Decidable (x ≠ y))
  | .ge => inferInstanceAs (Decidable (y.sle x = true))
  | .lt => inferInstanceAs (Decidable (x.slt y = true))
  | .always => inferInstanceAs (Decidable True)

end Cond

/-- Instructions that branch to labels `L`.  Operands stand in the order of the
assembler. -/
inductive Instr (X L : Type*) where
  | alu (op : AluOp) (b a : Reg) (imm : BitVec 16)
  | branch (c : Cond) (a b : Reg) (target : L)
  | other (x : X)

inductive Line (X L : Type*) where
  | label (l : L)
  | instr (i : Instr X L)

namespace Line

variable {X L : Type*}

def addi (b a : Reg) (imm : BitVec 16) : Line X L := .instr (.alu .addi b a imm)

/-- `subi` is assembled as `addi` of the negated immediate. -/
def subi (b a : Reg) (imm : BitVec 16) : Line X L := .instr (.alu .addi b a (-imm))

def andi (b a : Reg) (imm : BitVec 16) : Line X L := .instr (.alu .andi b a imm)

def ori (b a : Reg) (imm : BitVec 16) : Line X L := .instr (.alu .ori b a imm)

/-- `movhi` and `movi` are assembled as `orhi` and `addi` with `r0`. -/
def movhi (b : Reg) (imm : BitVec 16) : Line X L := .instr (.alu .orhi b .r0 imm)

def movi (b : Reg) (imm : BitVec 16) : Line X L := .instr (.alu .addi b .r0 imm)

def beq (a b : Reg) (target : L) : Line X L := .instr (.branch .eq a b target)

def bne (a b : Reg) (target : L) : Line X L := .instr (.branch .ne a b target)

def bge (a b : Reg) (target : L) : Line X L := .instr (.branch .ge a b target)

def blt (a b : Reg) (target : L) : Line X L := .instr (.branch .lt a b target)

def br (target : L) : Line X L := .instr (.branch .always .r0 .r0 target)

def instr? : Line X L → Option (Instr X L)
  | .label _ => none
  | .instr i => some i

end Line

section Program

variable {X L : Type*}

def code (prog : List (Line X L)) : List (Instr X L) := prog.filterMap Line.instr?

/-- The number of instructions before a label. -/
def address [DecidableEq L] (prog : List (Line X L)) (l : L) : Nat :=
  (code (prog.takeWhile fun
    | .label l' => l' ≠ l
    | .instr _ => true)).length

end Program

end Esd1.NiosII
