import Esd1.NiosII.Machine
import Mathlib.Order.Bounds.Basic

/-!
# `find_max.s`

The program that looks for the largest of a list of integers, for every list.  The
variables follow the instructions in memory, so their addresses are known once that of
the first instruction is.
-/

namespace Esd1.ExampleCode.FindMax

open NiosII (Word Byte Reg Regs AluOp Line hi lo)
open NiosII.Machine Programs

inductive Label where
  | main
  | loop
  | done
  | stop
  deriving DecidableEq, Repr

/-- `RESULT`, after the fourteen instructions. -/
def result (base : Word) : Word := base + 56#32

def movia (reg : Reg) (addr : Word) : List (Line (Op Label) Label) :=
  [.movhi reg (hi addr), .ori reg reg (lo addr)]

def findMax (base : Word) : Program Label where
  base := base
  lines :=
    [Line.label .main] ++
    movia .r8 (result base) ++
    [ .ldw .r4 4 .r8,
      .addi .r5 .r8 8,
      .ldw .r2 0 .r5,
      .label .loop,
      .subi .r4 .r4 1,
      .beq .r4 .r0 .done,
      .addi .r5 .r5 4,
      .ldw .r6 0 .r5,
      .bge .r2 .r6 .loop,
      .mov .r2 .r6,
      .br .loop,
      .label .done,
      .stw .r2 0 .r8,
      .label .stop,
      .br .stop ]

theorem codeAddress_length (base : Word) :
    (findMax base).codeAddress (findMax base).code.length = result base := rfl

def entries (base : Word) (μ : Memory) : Word := μ.loadWord (result base + 4#32)

def number (base : Word) (μ : Memory) (i : Nat) : Word :=
  μ.loadWord (result base + 8#32 + BitVec.ofNat 32 (4 * i))

/-- How many numbers the loop reads.  The counter is tested after it has been decremented,
so zero counts as the whole range of a word. -/
def count (base : Word) (μ : Memory) : Nat :=
  if entries base μ = 0#32 then 2 ^ 32 else (entries base μ).toNat

theorem count_pos (base : Word) (μ : Memory) : 0 < count base μ := by
  unfold count
  split
  · decide
  · next hne => exact Nat.pos_of_ne_zero fun hzero => hne (BitVec.toNat_inj.mp hzero)

/-! ## The largest number -/

/-- The largest of `f 0, ..., f j`, as `bge` compares them. -/
def largest (f : Nat → Word) : Nat → Word
  | 0 => f 0
  | j + 1 => if (f (j + 1)).sle (largest f j) then largest f j else f (j + 1)

theorem isGreatest_largest (f : Nat → Word) (j : Nat) :
    IsGreatest {x | ∃ i ≤ j, x = (f i).toInt} (largest f j).toInt := by
  induction j with
  | zero =>
      refine ⟨⟨0, Nat.le_refl 0, rfl⟩, ?_⟩
      rintro x ⟨i, hi, rfl⟩
      rw [Nat.le_zero.mp hi]
      exact le_refl _
  | succ j ih =>
      obtain ⟨⟨i, hi, hmem⟩, hbound⟩ := ih
      rw [largest]
      split
      · next hle =>
          refine ⟨⟨i, Nat.le_succ_of_le hi, hmem⟩, ?_⟩
          rintro x ⟨i', hi', rfl⟩
          rcases Nat.le_succ_iff.mp hi' with hlt | rfl
          · exact hbound ⟨i', hlt, rfl⟩
          · exact BitVec.sle_iff_toInt_le.mp hle
      · next hlt =>
          have hle : (largest f j).toInt ≤ (f (j + 1)).toInt := by
            rw [BitVec.sle_iff_toInt_le] at hlt
            exact (not_le.mp hlt).le
          refine ⟨⟨j + 1, Nat.le_refl _, rfl⟩, ?_⟩
          rintro x ⟨i', hi', rfl⟩
          rcases Nat.le_succ_iff.mp hi' with hlt' | rfl
          · exact (hbound ⟨i', hlt', rfl⟩).trans hle
          · exact le_refl _

/-! ## The loop -/

/-- At `loop` with `j` numbers behind the first, and `d` to go. -/
structure Looking (base : Word) (μ : Memory) (j d : Nat) (ρ : Regs) : Prop where
  count : j + d + 1 = count base μ
  r4 : ρ.read .r4 = entries base μ - BitVec.ofNat 32 j
  r5 : ρ.read .r5 = result base + 8#32 + BitVec.ofNat 32 (4 * j)
  r2 : ρ.read .r2 = largest (number base μ) j
  r8 : ρ.read .r8 = result base

def AtLoop (base : Word) (μ : Memory) (d : Nat) (s : State) : Prop :=
  ∃ j ρ, s = ⟨5, ρ, μ⟩ ∧ Looking base μ j d ρ

variable {base : Word} {μ : Memory} {d : Nat}

theorem Looking.next {j : Nat} {ρ ρ' : Regs} (h : Looking base μ j (d + 1) ρ)
    (h4 : ρ'.read .r4 = ρ.read .r4 - 1#32) (h5 : ρ'.read .r5 = ρ.read .r5 + 4#32)
    (h2 : ρ'.read .r2 = if (number base μ (j + 1)).sle (ρ.read .r2) then ρ.read .r2
      else number base μ (j + 1)) (h8 : ρ'.read .r8 = ρ.read .r8) :
    Looking base μ (j + 1) d ρ' where
  count := by
    rw [← h.count]
    omega
  r4 := by
    rw [h4, h.r4, BitVec.sub_sub, ← BitVec.ofNat_add]
  r5 := by
    have hnext : 4 * (j + 1) = 4 * j + 4 := Nat.mul_succ 4 j
    rw [h5, h.r5, BitVec.add_assoc, hnext, BitVec.ofNat_add]
  r2 := by
    rw [h2, h.r2]
    rfl
  r8 := h8.trans h.r8

theorem Looking.counter {j : Nat} {ρ : Regs} (h : Looking base μ j d ρ) :
    ρ.read .r4 - 1#32 = 0#32 ↔ d = 0 := by
  have hcount := h.count
  have hlt := (entries base μ).isLt
  have hindex : BitVec.ofNat 32 j + 1#32 = BitVec.ofNat 32 (j + 1) := (BitVec.ofNat_add j 1).symm
  rw [h.r4, BitVec.sub_sub, hindex, BitVec.sub_eq_iff_eq_add, BitVec.zero_add,
    ← BitVec.toNat_inj, BitVec.toNat_ofNat]
  unfold FindMax.count at hcount
  split at hcount
  · next hzero =>
      rw [hzero]
      change 0 = (j + 1) % 2 ^ 32 ↔ d = 0
      omega
  · next hne =>
      have hpos : (entries base μ).toNat ≠ 0 := by
        intro hzero
        exact hne (BitVec.toNat_inj.mp hzero)
      omega

theorem addi_neg_one (w : Word) : AluOp.addi.eval w (-1) = w - 1#32 := by
  have hext : (-1 : BitVec 16).signExtend 32 = -1#32 := by decide
  rw [AluOp.eval, hext, BitVec.add_neg_eq_sub]

theorem aligned_number (hbase : Aligned base) (j : Nat) :
    Aligned (result base + 8#32 + BitVec.ofNat 32 (4 * j)) :=
  ((hbase.add (by decide)).add (by decide)).add (aligned_ofNat j)

theorem loop_body (hbase : Aligned base) (d : Nat) :
    Triple (step (findMax base)) (AtLoop base μ (d + 1)) (AtLoop base μ d) := by
  rintro _ ⟨j, ρ, rfl, h⟩
  have hcounter := mt h.counter.mp (Nat.succ_ne_zero d)
  have hnext : ρ.read .r5 + 4#32 = result base + 8#32 + BitVec.ofNat 32 (4 * (j + 1)) := by
    rw [h.r5, Nat.mul_succ, BitVec.ofNat_add, BitVec.add_assoc]
  apply will_alu rfl
  rw [addi_neg_one]
  apply will_branch_not_taken rfl
  · rw [Regs.read_write_self _ _ (by decide), Regs.read_r0]
    exact hcounter
  apply will_alu rfl
  rw [addi_four, Regs.read_write_of_ne _ _ (by decide), hnext]
  apply will_ldw rfl
  · rw [Regs.read_write_self _ _ (by decide), NiosII.add_signExtend_zero]
    exact aligned_number hbase (j + 1)
  rw [Regs.read_write_self _ _ (by decide), NiosII.add_signExtend_zero]
  change Will (step (findMax base)) _ ⟨9, Regs.write _ .r6 (number base μ (j + 1)), μ⟩
  have hsame (w₁ w₂ w₃ : Word) : Regs.read (((ρ.write .r4 w₁).write .r5 w₂).write .r6 w₃) .r2 =
      ρ.read .r2 := rfl
  by_cases hge : (number base μ (j + 1)).sle (ρ.read .r2) = true
  · apply will_branch_taken rfl
    · rw [Regs.read_write_self _ _ (by decide), hsame]
      exact hge
    apply Will.now
    refine ⟨j + 1, _, rfl, ?_⟩
    apply h.next
    · rfl
    · rw [hnext]
      rfl
    · rw [if_pos hge]
      rfl
    · rfl
  · apply will_branch_not_taken rfl
    · rw [Regs.read_write_self _ _ (by decide), hsame]
      exact hge
    apply will_reg rfl
    apply will_br rfl
    apply Will.now
    refine ⟨j + 1, _, rfl, ?_⟩
    apply h.next
    · rfl
    · rw [hnext]
      rfl
    · rw [if_neg hge]
      exact BitVec.add_zero _
    · rfl

/-- The last pass leaves the loop, stores the number and stops. -/
theorem loop_end (hbase : Aligned base) :
    Triple (step (findMax base)) (AtLoop base μ 0) fun t => ∃ ρ,
      t = ⟨13, ρ, μ.storeWord (result base) (largest (number base μ) (count base μ - 1))⟩ := by
  rintro _ ⟨j, ρ, rfl, h⟩
  have hcounter := h.counter.mpr rfl
  have hlast : count base μ - 1 = j := by
    rw [← h.count]
    rfl
  apply will_alu rfl
  rw [addi_neg_one]
  apply will_branch_taken rfl
  · rw [Regs.read_write_self _ _ (by decide), Regs.read_r0]
    exact hcounter
  apply will_stw rfl
  · rw [Regs.read_write_of_ne _ _ (by decide), h.r8, NiosII.add_signExtend_zero]
    exact hbase.add (by decide)
  rw [Regs.read_write_of_ne _ _ (by decide), h.r8, NiosII.add_signExtend_zero,
    Regs.read_write_of_ne _ _ (by decide), h.r2, hlast]
  exact Will.now ⟨_, rfl⟩

theorem start (hbase : Aligned base) (ρ : Regs) :
    Will (step (findMax base)) (AtLoop base μ (count base μ - 1)) ⟨0, ρ, μ⟩ := by
  apply will_alu rfl
  apply will_alu rfl
  rw [Regs.read_write_self _ _ (by decide), Regs.read_r0, NiosII.ori_orhi, Regs.write_write]
  apply will_ldw rfl
  · rw [Regs.read_write_self _ _ (by decide)]
    exact (hbase.add (by decide)).add (by decide)
  rw [Regs.read_write_self _ _ (by decide)]
  change Will (step (findMax base)) _ ⟨3, Regs.write _ .r4 (entries base μ), μ⟩
  apply will_alu rfl
  rw [Regs.read_write_of_ne _ _ (by decide), Regs.read_write_self _ _ (by decide)]
  apply will_ldw rfl
  · rw [Regs.read_write_self _ _ (by decide), NiosII.add_signExtend_zero]
    exact (hbase.add (by decide)).add (by decide)
  rw [Regs.read_write_self _ _ (by decide), NiosII.add_signExtend_zero]
  apply Will.now
  refine ⟨0, _, rfl, ?_, ?_, ?_, ?_, ?_⟩
  · have hpos := count_pos base μ
    omega
  · exact (BitVec.sub_zero _).symm
  · exact (BitVec.add_zero _).symm
  · change μ.loadWord _ = number base μ 0
    rw [number, BitVec.add_zero]
    rfl
  · rfl

/-- The program stops for every contents of memory, with the largest of the numbers, as
signed words, in `RESULT`, and nothing else changed. -/
theorem findMax_total (hbase : Aligned base) (ρ : Regs) (μ : Memory) :
    ∃ t m, Reaches (step (findMax base)) ⟨0, ρ, μ⟩ t ∧ Halted (step (findMax base)) t ∧
      t.mem = μ.storeWord (result base) m ∧
      IsGreatest {x | ∃ i < count base μ, x = (number base μ i).toInt} m.toInt := by
  obtain ⟨t, hreach, ρ', rfl⟩ :=
    ((start hbase ρ).bind (Triple.loop (loop_body hbase) _)).bind (loop_end (μ := μ) hbase)
  refine ⟨_, _, hreach, halted_br rfl rfl, rfl, ?_⟩
  have hgreatest := isGreatest_largest (number base μ) (count base μ - 1)
  have hset : {x | ∃ i ≤ count base μ - 1, x = (number base μ i).toInt} =
      {x | ∃ i < count base μ, x = (number base μ i).toInt} := by
    ext x
    simp only [Nat.le_sub_one_iff_lt (count_pos base μ)]
  rw [hset] at hgreatest
  exact hgreatest

def words : List Word := [0#32, 7#32, 4#32, 5#32, 3#32, 6#32, 1#32, 8#32, 2#32]

def image (base : Word) : Memory := fun a =>
  let offset := (a - result base).toNat
  (words.getD (offset / 4) 0#32).extractLsb' (8 * (offset % 4)) 8

theorem findMax_total_image : ∃ t,
    Reaches (step (findMax 0x8000#32)) ⟨0, fun _ => 0#32, image 0x8000#32⟩ t ∧
      t.mem.loadWord (result 0x8000#32) = 8#32 := by
  obtain ⟨t, m, hreach, -, hmem, hgreatest⟩ :=
    @findMax_total 0x8000#32 (by decide) (fun _ => 0#32) (image 0x8000#32)
  have hcount : count 0x8000#32 (image 0x8000#32) = 7 := by decide +kernel
  have height : IsGreatest {x | ∃ i < 7, x = (number 0x8000#32 (image 0x8000#32) i).toInt} 8 := by
    refine ⟨⟨5, by decide, by decide +kernel⟩, ?_⟩
    rintro x ⟨i, hi, rfl⟩
    have hall : ∀ i : Fin 7, (number 0x8000#32 (image 0x8000#32) i).toInt ≤ 8 := by
      decide +kernel
    exact hall ⟨i, hi⟩
  rw [hcount] at hgreatest
  have hm : m = 8#32 := BitVec.eq_of_toInt_eq (hgreatest.unique height)
  refine ⟨t, hreach, ?_⟩
  rw [hmem, Memory.loadWord_storeWord, hm]

end Esd1.ExampleCode.FindMax
