import Mathlib.Data.Fin.Basic
import Mathlib.Tactic.SplitIfs

/-!
# The up/down display

What the keys and the switches of Lab 3 are for, without the program: a digit that
a press moves up or down by one, as the switches say, and that stays where it is at
either end.
-/

namespace Esd1.Lab3

abbrev Digit := Fin 10

namespace Digit

def up (d : Digit) : Digit := if h : d.val = 9 then d else ⟨d.val + 1, by omega⟩

def down (d : Digit) : Digit := ⟨d.val - 1, by omega⟩

def press (d : Digit) (switchVal : BitVec 8) : Digit :=
  if switchVal = 0x00#8 then d.down else if switchVal = 0x01#8 then d.up else d

def presses (switchVals : List (BitVec 8)) : Digit := switchVals.foldl press 0

theorem presses_append (switchVals : List (BitVec 8)) (switchVal : BitVec 8) :
    presses (switchVals ++ [switchVal]) = (presses switchVals).press switchVal := by
  rw [presses, List.foldl_append]
  rfl

theorem val_up_of_ne {d : Digit} (h : d.val ≠ 9) : d.up.val = d.val + 1 := by
  rw [up, dif_neg h]

theorem up_of_eq {d : Digit} (h : d.val = 9) : d.up = d := dif_pos h

theorem down_of_eq {d : Digit} (h : d.val = 0) : d.down = d := by
  ext
  change d.val - 1 = d.val
  omega

theorem down_ne {d : Digit} (h : d.val ≠ 0) : d.down ≠ d := by
  intro heq
  have hval := congrArg Fin.val heq
  simp only [down] at hval
  omega

theorem up_ne {d : Digit} (h : d.val ≠ 9) : d.up ≠ d := by
  intro heq
  have hval := congrArg Fin.val heq
  rw [val_up_of_ne h] at hval
  omega

@[simp] theorem press_zero (d : Digit) : d.press 0x00#8 = d.down := rfl

@[simp] theorem press_one (d : Digit) : d.press 0x01#8 = d.up := rfl

theorem press_other (d : Digit) {switchVal : BitVec 8} (h0 : switchVal ≠ 0x00#8)
    (h1 : switchVal ≠ 0x01#8) : d.press switchVal = d := by
  rw [press, if_neg h0, if_neg h1]

/-! ## A digit in sixteen bits -/

section Index

variable {i : BitVec 16} {d : Digit} (h : i.toNat = d.val)

include h

theorem index_eq_zero_iff : i = 0#16 ↔ d.val = 0 := by
  rw [← BitVec.toNat_inj, h]
  rfl

theorem index_eq_nine_iff : i = 9#16 ↔ d.val = 9 := by
  rw [← BitVec.toNat_inj, h]
  rfl

theorem index_sub_one (h0 : d.val ≠ 0) : (i - 1#16).toNat = d.down.val := by
  have hone : 1#16 ≤ i := by
    rw [BitVec.le_def, h]
    exact Nat.one_le_iff_ne_zero.mpr h0
  rw [BitVec.toNat_sub_of_le hone, h]
  rfl

theorem index_add_one (h9 : d.val ≠ 9) : (i + 1#16).toNat = d.up.val := by
  have hlt : d.val < 10 := d.isLt
  rw [BitVec.toNat_add_of_lt (by rw [h, BitVec.toNat_ofNat]; omega), h, val_up_of_ne h9]
  rfl

end Index

end Digit

/-- A digit, and all digits that were ever put on the display. -/
structure Display where
  digit : Digit
  shown : List Digit
  deriving DecidableEq, Repr

namespace Display

def start : Display where
  digit := 0
  shown := [0]

def press (d : Display) (switchVal : BitVec 8) : Display where
  digit := d.digit.press switchVal
  shown :=
    if d.digit.press switchVal = d.digit then d.shown
    else d.shown ++ [d.digit.press switchVal]

theorem press_of_eq {d : Display} {switchVal : BitVec 8}
    (h : d.digit.press switchVal = d.digit) : d.press switchVal = d := by
  rw [press, h, if_pos rfl]

end Display

end Esd1.Lab3
