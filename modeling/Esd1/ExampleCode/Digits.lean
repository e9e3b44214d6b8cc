import Esd1.NiosII.Machine

/-!
# `digits.s`

The decimal digits of a number, by a subroutine that divides by subtracting.  The two
variables follow the instructions in memory.
-/

namespace Esd1.ExampleCode.Digits

open NiosII (Word Byte Reg Regs AluOp Line hi lo)
open NiosII.Machine Programs

inductive Label where
  | main
  | endLoop
  | divide
  | cont
  | divEnd
  deriving DecidableEq, Repr

def n (base : Word) : Word := base + 64#32

def digits (base : Word) : Word := n base + 4#32

def movia (reg : Reg) (addr : Word) : List (Line (Op Label) Label) :=
  [.movhi reg (hiadj addr), .addi reg reg (lo addr)]

def program (base : Word) : Program Label where
  base := base
  lines :=
    [Line.label .main] ++
    movia .r4 (n base) ++
    [ .addi .r8 .r4 4,
      .ldw .r4 0 .r4,
      .call .divide,
      .stb .r3 1 .r8,
      .stb .r2 0 .r8,
      .label .endLoop,
      .br .endLoop,
      .label .divide,
      .mov .r2 .r4,
      .movi .r5 10,
      .movi .r3 0,
      .label .cont,
      .blt .r2 .r5 .divEnd,
      .sub .r2 .r2 .r5,
      .addi .r3 .r3 1,
      .br .cont,
      .label .divEnd,
      .ret ]

theorem codeAddress_length (base : Word) :
    (program base).codeAddress (program base).code.length = n base := rfl

/-! ## `DIVIDE` -/

/-- How often the divisor can be subtracted: `blt` compares signed words. -/
def quotient (w : Word) : Nat := if w.msb then 0 else w.toNat / 10

def remainder (w : Word) : Word := w - BitVec.ofNat 32 (10 * quotient w)

/-- At `cont` with `d` subtractions to go. -/
structure Dividing (w : Word) (ρ₀ : Regs) (d : Nat) (ρ : Regs) : Prop where
  counts : ∃ k, k + d = quotient w ∧ ρ.read .r2 = w - BitVec.ofNat 32 (10 * k) ∧
    ρ.read .r3 = BitVec.ofNat 32 k
  r5 : ρ.read .r5 = 10#32
  same : ∀ r, r ≠ .r2 → r ≠ .r3 → r ≠ .r5 → ρ.read r = ρ₀.read r

def AtCont (w : Word) (μ : Memory) (ρ₀ : Regs) (d : Nat) (s : State) : Prop :=
  ∃ ρ, s = ⟨11, ρ, μ⟩ ∧ Dividing w ρ₀ d ρ

variable {base w : Word} {μ : Memory} {ρ₀ : Regs} {d : Nat}

/-- The signed comparison of `blt` finds the end. -/
theorem slt_ten_iff {k d : Nat} (h : k + d = quotient w) :
    (w - BitVec.ofNat 32 (10 * k)).slt 10#32 = true ↔ d = 0 := by
  have hten : (10#32).toInt = 10 := rfl
  unfold quotient at h
  rw [BitVec.slt_iff_toInt_lt, hten]
  by_cases hneg : w.msb = true
  · rw [if_pos hneg] at h
    have hk : k = 0 := by omega
    have hw : w.toInt < 0 := BitVec.toInt_neg_of_msb_true hneg
    rw [hk, Nat.mul_zero, BitVec.sub_zero]
    omega
  · rw [if_neg hneg] at h
    have hsmall : w.toNat < 2 ^ 31 := by
      rw [BitVec.msb_eq_decide, decide_eq_true_eq] at hneg
      omega
    have hdiff : (w - BitVec.ofNat 32 (10 * k)).toNat = w.toNat - 10 * k := by
      rw [BitVec.toNat_sub, BitVec.toNat_ofNat]
      omega
    have hpos : (w - BitVec.ofNat 32 (10 * k)).msb = false := by
      rw [BitVec.msb_eq_decide, hdiff, decide_eq_false_iff_not]
      omega
    rw [BitVec.toInt_eq_toNat_of_msb hpos, hdiff]
    omega

theorem cont_body (d : Nat) :
    Triple (step (program base)) (AtCont w μ ρ₀ (d + 1)) (AtCont w μ ρ₀ d) := by
  rintro _ ⟨ρ, rfl, h⟩
  obtain ⟨k, hk, h2, h3⟩ := h.counts
  have hlt := mt (slt_ten_iff hk).mp (Nat.succ_ne_zero d)
  apply will_branch_not_taken rfl
  · rw [h2, h.r5]
    exact hlt
  apply will_reg rfl
  apply will_alu rfl
  apply will_br rfl
  apply Will.now
  refine ⟨_, rfl, ⟨k + 1, ?_, ?_, ?_⟩, ?_, ?_⟩
  · omega
  · change ρ.read .r2 - ρ.read .r5 = _
    rw [h2, h.r5, BitVec.sub_sub, ← BitVec.ofNat_add, Nat.mul_succ]
  · change ρ.read .r3 + 1#32 = _
    rw [h3, ← BitVec.ofNat_add]
  · exact h.r5
  · intro r hr2 hr3 hr5
    rw [Regs.read_write_of_ne _ _ hr3, Regs.read_write_of_ne _ _ hr2]
    exact h.same r hr2 hr3 hr5

/-- A call of the subroutine comes back with the quotient and the remainder, and has used
no register but `r5` beside theirs. -/
theorem divide_returns {j : Nat} (hra : ρ₀.read .ra = (program base).codeAddress j)
    (hj : 4 * j < 2 ^ 32) (h4 : ρ₀.read .r4 = w) :
    Will (step (program base))
      (fun t => ∃ ρ, t = ⟨j, ρ, μ⟩ ∧ ρ.read .r2 = remainder w ∧
        ρ.read .r3 = BitVec.ofNat 32 (quotient w) ∧ ρ.read .r8 = ρ₀.read .r8)
      ⟨8, ρ₀, μ⟩ := by
  have hstart : Will (step (program base)) (AtCont w μ ρ₀ (quotient w)) ⟨8, ρ₀, μ⟩ := by
    apply will_reg rfl
    apply will_alu rfl
    apply will_alu rfl
    apply Will.now
    refine ⟨_, rfl, ⟨0, Nat.zero_add _, ?_, ?_⟩, ?_, ?_⟩
    · change ρ₀.read .r4 + 0#32 = _
      rw [h4, BitVec.add_zero, Nat.mul_zero, BitVec.sub_zero]
    · rfl
    · rfl
    · intro r hr2 hr3 hr5
      rw [Regs.read_write_of_ne _ _ hr3, Regs.read_write_of_ne _ _ hr5,
        Regs.read_write_of_ne _ _ hr2]
  have hend : Triple (step (program base)) (AtCont w μ ρ₀ 0) fun t => ∃ ρ, t = ⟨j, ρ, μ⟩ ∧
      ρ.read .r2 = remainder w ∧ ρ.read .r3 = BitVec.ofNat 32 (quotient w) ∧
      ρ.read .r8 = ρ₀.read .r8 := by
    rintro _ ⟨ρ, rfl, h⟩
    obtain ⟨k, hk, h2, h3⟩ := h.counts
    have hlt := (slt_ten_iff hk).mpr rfl
    obtain rfl : k = quotient w := hk
    apply will_branch_taken rfl
    · rw [h2, h.r5]
      exact hlt
    apply will_ret rfl ((h.same .ra (by decide) (by decide) (by decide)).trans hra) hj
    apply Will.now
    exact ⟨ρ, rfl, h2, h3, h.same .r8 (by decide) (by decide) (by decide)⟩
  exact (hstart.bind (Triple.loop cont_body _)).bind hend

theorem toNat_remainder (h : w.msb = false) : (remainder w).toNat = w.toNat % 10 := by
  have hw := w.isLt
  rw [remainder, quotient, if_neg (by rw [h]; exact Bool.false_ne_true), BitVec.toNat_sub,
    BitVec.toNat_ofNat]
  omega

/-- The program stops for every number in `N`.  It has stored the quotient and the remainder
of a division by ten, each cut to a byte, and nothing else; a negative number is its own
remainder.  Up to 99 these are the two digits. -/
theorem digits_total (hbase : Aligned base) (ρ : Regs) (μ : Memory) :
    ∃ t, Reaches (step (program base)) ⟨0, ρ, μ⟩ t ∧ Halted (step (program base)) t ∧
      t.mem = (μ.storeByte (digits base + 1#32)
          (BitVec.ofNat 8 (quotient (μ.loadWord (n base))))).storeByte (digits base)
            ((remainder (μ.loadWord (n base))).setWidth 8) ∧
      ((μ.loadWord (n base)).toNat ≤ 99 →
        (t.mem (digits base + 1#32)).toNat = (μ.loadWord (n base)).toNat / 10 ∧
          (t.mem (digits base)).toNat = (μ.loadWord (n base)).toNat % 10) := by
  have hrun : Will (step (program base)) (fun t => ∃ ρ', t = ⟨7, ρ',
      (μ.storeByte (digits base + 1#32)
        (BitVec.ofNat 8 (quotient (μ.loadWord (n base))))).storeByte (digits base)
          ((remainder (μ.loadWord (n base))).setWidth 8)⟩) ⟨0, ρ, μ⟩ := by
    apply will_alu rfl
    apply will_alu rfl
    rw [Regs.read_write_self _ _ (by decide), Regs.read_r0, addi_orhi, Regs.write_write]
    apply will_alu rfl
    rw [Regs.read_write_self _ _ (by decide), addi_four]
    apply will_ldw rfl
    · rw [Regs.read_write_of_ne _ _ (by decide), Regs.read_write_self _ _ (by decide),
        NiosII.add_signExtend_zero]
      exact hbase.add (by decide)
    rw [Regs.read_write_of_ne _ _ (by decide), Regs.read_write_self _ _ (by decide),
      NiosII.add_signExtend_zero]
    apply will_call rfl
    apply Will.bind (divide_returns (j := 5) rfl (by decide) rfl)
    rintro _ ⟨ρ', rfl, h2, h3, h8⟩
    have h8 : ρ'.read .r8 = digits base := h8
    apply will_stb rfl
    apply will_stb rfl
    have hone : (1 : BitVec 16).signExtend 32 = 1#32 := by decide
    rw [h8, h3, h2, NiosII.add_signExtend_zero, hone, BitVec.setWidth_ofNat_of_le (by decide)]
    exact Will.now ⟨ρ', rfl⟩
  obtain ⟨t, hreach, ρ', rfl⟩ := hrun
  refine ⟨_, hreach, halted_br rfl rfl, rfl, fun hsmall => ?_⟩
  have hpos : (μ.loadWord (n base)).msb = false := by
    rw [BitVec.msb_eq_decide, decide_eq_false_iff_not]
    omega
  have hne : digits base + 1#32 ≠ digits base := by
    intro heq
    have hone := BitVec.add_right_eq_self.mp heq
    cases hone
  dsimp only
  constructor
  · rw [Memory.storeByte_of_ne _ _ hne, Memory.storeByte_self, quotient,
      if_neg (by rw [hpos]; exact Bool.false_ne_true), BitVec.toNat_ofNat]
    omega
  · rw [Memory.storeByte_self, BitVec.toNat_setWidth, toNat_remainder hpos]
    omega

/-- `N: .word 76`. -/
def image (base : Word) : Memory := fun a => if a = n base then 76#8 else 0#8

theorem digits_total_image : ∃ t,
    Reaches (step (program 0x8000#32)) ⟨0, fun _ => 0#32, image 0x8000#32⟩ t ∧
      (t.mem (digits 0x8000#32 + 1#32)).toNat = 7 ∧ (t.mem (digits 0x8000#32)).toNat = 6 := by
  obtain ⟨t, hreach, -, -, hdigits⟩ :=
    @digits_total 0x8000#32 (by decide) (fun _ => 0#32) (image 0x8000#32)
  have hn : ((image 0x8000#32).loadWord (n 0x8000#32)).toNat = 76 := by decide +kernel
  rw [hn] at hdigits
  exact ⟨t, hreach, hdigits (by decide)⟩

end Esd1.ExampleCode.Digits
