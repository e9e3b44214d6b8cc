import Mathlib.Data.List.Basic
import Esd1.Interleaving.CutPoints
import Esd1.NiosII.Bus

/-!
# Rules for programs annotated at labels

The cut points of a program are some of its labels.  There is one inversion lemma for
each kind of instruction, and from it a rule that moves the obligation `Within` over an
instruction between two cut points.
-/

namespace Esd1.NiosII

open Esd1.Interleaving

variable {L : Type*} [DecidableEq L] {prog : List (Line BusOp L)} {k : Nat} {ρ : Regs}
  {a b : Reg} {imm : BitVec 16} {e : Access} {s' : State}

/-! ## What an instruction can do -/

theorem step_alu {op : AluOp} (hcode : (code prog)[k]? = some (.alu op b a imm))
    (h : step prog ⟨k, ρ⟩ e = some s') :
    e = .internal ∧ s' = ⟨k + 1, ρ.write b (op.eval (ρ.read a) imm)⟩ := by
  cases e <;> simp only [step, hcode, reduceCtorEq, Option.some.injEq] at h
  exact ⟨rfl, h.symm⟩

theorem step_ldbio (hcode : (code prog)[k]? = some (.other (.ldbio b imm a)))
    (h : step prog ⟨k, ρ⟩ e = some s') :
    ∃ value, e = .load a (ρ.read a + imm.signExtend 32) value ∧
      s' = ⟨k + 1, ρ.write b (value.signExtend 32)⟩ := by
  cases e with
  | internal => simp only [step, hcode, reduceCtorEq] at h
  | store base addr value => simp only [step, hcode, reduceCtorEq] at h
  | load base addr value =>
      simp only [step, hcode, Option.ite_none_right_eq_some, Option.some.injEq] at h
      obtain ⟨⟨rfl, rfl⟩, rfl⟩ := h
      exact ⟨value, rfl, rfl⟩

theorem step_stbio (hcode : (code prog)[k]? = some (.other (.stbio b imm a)))
    (h : step prog ⟨k, ρ⟩ e = some s') :
    e = .store a (ρ.read a + imm.signExtend 32) ((ρ.read b).setWidth 8) ∧
      s' = ⟨k + 1, ρ⟩ := by
  cases e with
  | internal => simp only [step, hcode, reduceCtorEq] at h
  | load base addr value => simp only [step, hcode, reduceCtorEq] at h
  | store base addr value =>
      simp only [step, hcode, Option.ite_none_right_eq_some, Option.some.injEq] at h
      obtain ⟨⟨rfl, rfl, rfl⟩, rfl⟩ := h
      exact ⟨rfl, rfl⟩

theorem step_branch {c : Cond} {target : L}
    (hcode : (code prog)[k]? = some (.branch c a b target))
    (h : step prog ⟨k, ρ⟩ e = some s') :
    e = .internal ∧
      s' = ⟨if c.Holds (ρ.read a) (ρ.read b) then address prog target else k + 1, ρ⟩ := by
  cases e <;> simp only [step, hcode, reduceCtorEq, Option.some.injEq] at h
  exact ⟨rfl, h.symm⟩

/-! ## The environment -/

/-- The bus answers every load and accepts everything else. -/
structure Responsive (ok : State → Access → Prop) : Prop where
  internal : ∀ s, ok s .internal
  load : ∀ s base addr, ∃ value, ok s (.load base addr value)
  store : ∀ s base addr value, ok s (.store base addr value)

variable {ok : State → Access → Prop}

theorem Responsive.canStep (hok : Responsive ok) {i : Instr BusOp L}
    (hcode : (code prog)[k]? = some i) : CanStep (step prog) ok ⟨k, ρ⟩ := by
  cases i with
  | alu op b a imm =>
      exact ⟨.internal, ⟨k + 1, ρ.write b (op.eval (ρ.read a) imm)⟩, hok.internal _,
        by simp only [step, hcode]⟩
  | branch c a b target =>
      exact ⟨.internal, _, hok.internal _, by simp only [step, hcode]; rfl⟩
  | other x =>
      cases x with
      | ldbio b offset a =>
          obtain ⟨value, hvalue⟩ := hok.load ⟨k, ρ⟩ a (ρ.read a + offset.signExtend 32)
          exact ⟨_, ⟨k + 1, ρ.write b (value.signExtend 32)⟩, hvalue,
            by simp only [step, hcode, and_self, if_true]⟩
      | stbio b offset a =>
          exact ⟨.store a (ρ.read a + offset.signExtend 32) ((ρ.read b).setWidth 8),
            ⟨k + 1, ρ⟩, hok.store _ _ _ _, by simp only [step, hcode, and_self, if_true]⟩

/-! ## The rules -/

def AtLabel (prog : List (Line BusOp L)) (cuts : List L) (s : State) : Prop :=
  (cuts.map (address prog)).contains s.pc = true

theorem atLabel_of_mem {cuts : List L} {l : L} (h : l ∈ cuts) :
    AtLabel prog cuts ⟨address prog l, ρ⟩ := by
  rw [AtLabel, List.contains_iff_mem]
  exact List.mem_map_of_mem h

theorem not_atLabel {cuts : List L} (h : (cuts.map (address prog)).contains k = false) :
    ¬ AtLabel prog cuts ⟨k, ρ⟩ := by
  rw [AtLabel, h]
  exact Bool.false_ne_true

section Rules

variable {cuts : List L} {A : List Access → State → Prop} {n : Nat} {es : List Access}

section

variable (hok : Responsive ok) (hcut : (cuts.map (address prog)).contains k = false)

include hok hcut

theorem within_alu {op : AluOp} (hcode : (code prog)[k]? = some (.alu op b a imm))
    (h : Within (step prog) ok (AtLabel prog cuts) A n (es ++ [Access.internal])
      ⟨k + 1, ρ.write b (op.eval (ρ.read a) imm)⟩) :
    Within (step prog) ok (AtLabel prog cuts) A (n + 1) es ⟨k, ρ⟩ := by
  apply Within.of_step (not_atLabel hcut) (hok.canStep hcode)
  intro e s' _ hs
  obtain ⟨rfl, rfl⟩ := step_alu hcode hs
  exact h

theorem within_stbio (hcode : (code prog)[k]? = some (.other (.stbio b imm a)))
    (h : Within (step prog) ok (AtLabel prog cuts) A n
      (es ++ [Access.store a (ρ.read a + imm.signExtend 32) ((ρ.read b).setWidth 8)])
      ⟨k + 1, ρ⟩) :
    Within (step prog) ok (AtLabel prog cuts) A (n + 1) es ⟨k, ρ⟩ := by
  apply Within.of_step (not_atLabel hcut) (hok.canStep hcode)
  intro e s' _ hs
  obtain ⟨rfl, rfl⟩ := step_stbio hcode hs
  exact h

theorem within_branch_taken {c : Cond} {target : L}
    (hcode : (code prog)[k]? = some (.branch c a b target))
    (hc : c.Holds (ρ.read a) (ρ.read b))
    (h : Within (step prog) ok (AtLabel prog cuts) A n (es ++ [Access.internal])
      ⟨address prog target, ρ⟩) :
    Within (step prog) ok (AtLabel prog cuts) A (n + 1) es ⟨k, ρ⟩ := by
  apply Within.of_step (not_atLabel hcut) (hok.canStep hcode)
  intro e s' _ hs
  obtain ⟨rfl, rfl⟩ := step_branch hcode hs
  rw [if_pos hc]
  exact h

theorem within_branch_not_taken {c : Cond} {target : L}
    (hcode : (code prog)[k]? = some (.branch c a b target))
    (hc : ¬ c.Holds (ρ.read a) (ρ.read b))
    (h : Within (step prog) ok (AtLabel prog cuts) A n (es ++ [Access.internal]) ⟨k + 1, ρ⟩) :
    Within (step prog) ok (AtLabel prog cuts) A (n + 1) es ⟨k, ρ⟩ := by
  apply Within.of_step (not_atLabel hcut) (hok.canStep hcode)
  intro e s' _ hs
  obtain ⟨rfl, rfl⟩ := step_branch hcode hs
  rw [if_neg hc]
  exact h

theorem within_br {target : L} (hcode : (code prog)[k]? = some (.branch .always a b target))
    (h : Within (step prog) ok (AtLabel prog cuts) A n (es ++ [Access.internal])
      ⟨address prog target, ρ⟩) :
    Within (step prog) ok (AtLabel prog cuts) A (n + 1) es ⟨k, ρ⟩ :=
  within_branch_taken hok hcut hcode trivial h

end

/-- Two branches on the same registers, of which one is taken. -/
theorem within_branches (hok : Responsive ok) {c c' : Cond} {target target' : L}
    (hcut : (cuts.map (address prog)).contains k = false)
    (hcut' : (cuts.map (address prog)).contains (k + 1) = false)
    (hcode : (code prog)[k]? = some (.branch c a b target))
    (hcode' : (code prog)[k + 1]? = some (.branch c' a b target'))
    (hc : ∀ x y, ¬ c.Holds x y → c'.Holds x y)
    (h : c.Holds (ρ.read a) (ρ.read b) →
      Within (step prog) ok (AtLabel prog cuts) A (n + 1) (es ++ [Access.internal])
        ⟨address prog target, ρ⟩)
    (h' : ¬ c.Holds (ρ.read a) (ρ.read b) →
      Within (step prog) ok (AtLabel prog cuts) A n (es ++ [Access.internal] ++ [Access.internal])
        ⟨address prog target', ρ⟩) :
    Within (step prog) ok (AtLabel prog cuts) A (n + 2) es ⟨k, ρ⟩ := by
  by_cases hx : c.Holds (ρ.read a) (ρ.read b)
  · exact within_branch_taken hok hcut hcode hx (h hx)
  · apply within_branch_not_taken hok hcut hcode hx
    exact within_branch_taken hok hcut' hcode' (hc _ _ hx) (h' hx)

/-- A register is masked, and then the masked bits decide between two branches. -/
theorem within_masked_branches (hok : Responsive ok) (hb : b ≠ .r0) {c c' : Cond}
    {target target' : L} {w : Word}
    (hcut : (cuts.map (address prog)).contains k = false)
    (hcut' : (cuts.map (address prog)).contains (k + 1) = false)
    (hcut'' : (cuts.map (address prog)).contains (k + 1 + 1) = false)
    (hcode : (code prog)[k]? = some (.alu .andi b b imm))
    (hcode' : (code prog)[k + 1]? = some (.branch c b .r0 target))
    (hcode'' : (code prog)[k + 1 + 1]? = some (.branch c' b .r0 target'))
    (hc : ∀ x y, ¬ c.Holds x y → c'.Holds x y)
    (h : c.Holds (AluOp.andi.eval w imm) 0#32 →
      Within (step prog) ok (AtLabel prog cuts) A (n + 1)
        (es ++ [Access.internal] ++ [Access.internal])
        ⟨address prog target, ρ.write b (AluOp.andi.eval w imm)⟩)
    (h' : ¬ c.Holds (AluOp.andi.eval w imm) 0#32 →
      Within (step prog) ok (AtLabel prog cuts) A n
        (es ++ [Access.internal] ++ [Access.internal] ++ [Access.internal])
        ⟨address prog target', ρ.write b (AluOp.andi.eval w imm)⟩) :
    Within (step prog) ok (AtLabel prog cuts) A (n + 3) es ⟨k, ρ.write b w⟩ := by
  apply within_alu hok hcut hcode
  rw [Regs.read_write_self _ _ hb, Regs.write_write]
  apply within_branches hok hcut' hcut'' hcode' hcode'' hc
  · rw [Regs.read_write_self _ _ hb, Regs.read_r0]
    exact h
  · rw [Regs.read_write_self _ _ hb, Regs.read_r0]
    exact h'

theorem within_movhi_ori (hok : Responsive ok) (hb : b ≠ .r0) {w : Word}
    (hcut : (cuts.map (address prog)).contains k = false)
    (hcut' : (cuts.map (address prog)).contains (k + 1) = false)
    (hcode : (code prog)[k]? = some (.alu .orhi b .r0 (hi w)))
    (hcode' : (code prog)[k + 1]? = some (.alu .ori b b (lo w)))
    (h : Within (step prog) ok (AtLabel prog cuts) A n
      (es ++ [Access.internal] ++ [Access.internal]) ⟨k + 2, ρ.write b w⟩) :
    Within (step prog) ok (AtLabel prog cuts) A (n + 2) es ⟨k, ρ⟩ := by
  apply within_alu hok hcut hcode
  apply within_alu hok hcut' hcode'
  rw [Regs.read_write_self _ _ hb, Regs.read_r0, ori_orhi, Regs.write_write]
  exact h

end Rules

end Esd1.NiosII
