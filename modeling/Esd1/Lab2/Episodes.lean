import Mathlib.Data.ZMod.Basic
import Mathlib.Tactic.Ring
import Esd1.Lab2.HexZero

/-!
# Press and release

What the counter is for, told by the bytes that its polling loops read: a press of
KEY1 is a run of key reads with bit 1 clear, its release the read with bit 1 set that
ends the run, and the switch read that follows says in which direction to count.  The
position is counted modulo ten.
-/

namespace Esd1.Lab2

open Esd1.NiosII

inductive Read where
  | keys (value : Byte)
  | switches (value : Byte)
  deriving DecidableEq, Repr

def Down (value : Byte) : Prop := value.getLsbD 1 = false

instance (value : Byte) : Decidable (Down value) := inferInstanceAs (Decidable (_ = _))

/-- `r3` is the base of the keys, `r2` that of the switches. -/
def read? : Access → Option Read
  | .load .r3 _ value => some (.keys value)
  | .load .r2 _ value => some (.switches value)
  | _ => none

def history (es : List Access) : List Read := (es.filterMap read?).reverse

def keyReads (reads : List Read) : List Byte :=
  reads.filterMap fun
    | .keys value => some value
    | .switches _ => none

def switchReads (reads : List Read) : List Byte :=
  reads.filterMap fun
    | .keys _ => none
    | .switches value => some value

/-- The number of runs of key reads with bit 1 clear that a read with bit 1 set ended. -/
def releases : List Byte → Nat
  | value :: before :: values =>
      (if ¬ Down value ∧ Down before then 1 else 0) + releases (before :: values)
  | _ => 0

def Released : List Read → Prop
  | .keys value :: .keys before :: _ => ¬ Down value ∧ Down before
  | _ => False

instance : (reads : List Read) → Decidable (Released reads)
  | .keys value :: .keys before :: _ =>
      inferInstanceAs (Decidable (¬ Down value ∧ Down before))
  | [] | [.keys _] | .switches _ :: _ | .keys _ :: .switches _ :: _ =>
      inferInstanceAs (Decidable False)

def Pressed : List Read → Prop
  | .keys value :: _ => Down value
  | _ => False

def Idle (reads : List Read) : Prop := ∀ value ∈ (keyReads reads).head?, ¬ Down value

/-- The switch reads that follow a release at once, the last one first. -/
def episodes : List Read → List Byte
  | [] => []
  | .keys _ :: reads => episodes reads
  | .switches value :: reads =>
      if Released reads then value :: episodes reads else episodes reads

section Reads

variable {reads : List Read} {value : Byte} {values : List Byte}

theorem history_append (es : List Access) (e : Access) :
    history (es ++ [e]) = (read? e).toList ++ history es := by
  rw [history, history, List.filterMap_append, List.reverse_append]
  cases h : read? e <;> simp [h]

@[simp] theorem episodes_keys : episodes (.keys value :: reads) = episodes reads := rfl

theorem episodes_switches (h : Released reads) :
    episodes (.switches value :: reads) = value :: episodes reads := if_pos h

@[simp] theorem keyReads_keys : keyReads (.keys value :: reads) = value :: keyReads reads := rfl

@[simp] theorem keyReads_switches : keyReads (.switches value :: reads) = keyReads reads := rfl

@[simp] theorem switchReads_keys :
    switchReads (.keys value :: reads) = switchReads reads := rfl

@[simp] theorem switchReads_switches :
    switchReads (.switches value :: reads) = value :: switchReads reads := rfl

theorem Pressed.head? (h : Pressed reads) :
    ∃ before ∈ (keyReads reads).head?, Down before := by
  match reads, h with
  | .keys before :: _, h => exact ⟨before, rfl, h⟩

theorem Pressed.released (h : Pressed reads) (hvalue : ¬ Down value) :
    Released (.keys value :: reads) := by
  match reads, h with
  | .keys _ :: _, h => exact ⟨hvalue, h⟩

theorem Released.idle (h : Released reads) : Idle reads := by
  match reads, h with
  | .keys value :: .keys _ :: _, h =>
      intro value' hvalue'
      cases hvalue'
      exact h.1

theorem idle_keys (h : ¬ Down value) : Idle (.keys value :: reads) := by
  intro value' hvalue'
  cases hvalue'
  exact h

theorem releases_cons (value : Byte) (values : List Byte) :
    releases (value :: values) =
      (if ¬ Down value ∧ ∃ before ∈ values.head?, Down before then 1 else 0) +
        releases values := by
  cases values with
  | nil => simp [releases]
  | cons before values => simp [releases]

theorem releases_of_down (h : Down value) : releases (value :: values) = releases values := by
  rw [releases_cons, if_neg (fun hrel => hrel.1 h), Nat.zero_add]

theorem releases_of_idle (h : Idle reads) :
    releases (value :: keyReads reads) = releases (keyReads reads) := by
  rw [releases_cons, if_neg, Nat.zero_add]
  intro hrel
  obtain ⟨before, hbefore, hdown⟩ := hrel.2
  exact h before hbefore hdown

theorem releases_of_pressed (h : Pressed reads) (hvalue : ¬ Down value) :
    releases (value :: keyReads reads) = 1 + releases (keyReads reads) := by
  rw [releases_cons, if_pos ⟨hvalue, h.head?⟩]

end Reads

/-! ## The cyclic counter -/

def ups (values : List Byte) : Nat := values.countP fun value => value.getLsbD 0

def downs (values : List Byte) : Nat := values.countP fun value => !value.getLsbD 0

def position (values : List Byte) : ZMod 10 := (ups values : ZMod 10) - (downs values : ZMod 10)

section Position

variable {value : Byte} {values : List Byte}

@[simp] theorem position_nil : position [] = 0 := sub_self 0

theorem position_cons_of_up (h : value.getLsbD 0 = true) :
    position (value :: values) = position values + 1 := by
  have hups : ups (value :: values) = ups values + 1 := List.countP_cons_of_pos h
  have hdowns : downs (value :: values) = downs values :=
    List.countP_cons_of_neg (by simp only [h, Bool.not_true, Bool.false_eq_true, not_false_eq_true])
  rw [position, position, hups, hdowns]
  push_cast
  ring

theorem position_cons_of_down (h : value.getLsbD 0 = false) :
    position (value :: values) = position values - 1 := by
  have hups : ups (value :: values) = ups values :=
    List.countP_cons_of_neg (by simp only [h, Bool.false_eq_true, not_false_eq_true])
  have hdowns : downs (value :: values) = downs values + 1 :=
    List.countP_cons_of_pos (by rw [h]; rfl)
  rw [position, position, hups, hdowns]
  push_cast
  ring

theorem val_position (values : List Byte) :
    ((position values).val : Int) = ((ups values : Int) - downs values) % 10 := by
  have hcast : position values = (((ups values : Int) - downs values : Int) : ZMod 10) := by
    rw [position]
    push_cast
    rfl
  rw [hcast, ZMod.val_intCast]
  rfl

end Position

/-! ## A pointer into the table -/

def pointer (hstart : Word) (x : ZMod 10) : Word := hstart + BitVec.ofNat 32 x.val

section Pointer

variable {hstart : Word} {x : ZMod 10}

@[simp] theorem pointer_zero : pointer hstart 0 = hstart := BitVec.add_zero hstart

theorem pointer_eq_first_iff : pointer hstart x = hstart ↔ x = 0 := by
  have hoffset : ∀ y : ZMod 10, BitVec.ofNat 32 y.val = 0#32 ↔ y = 0 := by decide
  rw [pointer, ← hoffset x, BitVec.add_right_eq_self]

theorem pointer_eq_last_iff : pointer hstart x = hstart + 9#32 ↔ x = 9 := by
  have hoffset : ∀ y : ZMod 10, BitVec.ofNat 32 y.val = 9#32 ↔ y = 9 := by decide
  rw [pointer, ← hoffset x, BitVec.add_right_inj]

theorem pointer_add_one (h : x ≠ 9) : pointer hstart x + 1#32 = pointer hstart (x + 1) := by
  have hoffset : ∀ y : ZMod 10, y ≠ 9 →
      BitVec.ofNat 32 y.val + 1#32 = BitVec.ofNat 32 (y + 1).val := by decide
  rw [pointer, pointer, BitVec.add_assoc, hoffset x h]

theorem pointer_sub_one (h : x ≠ 0) : pointer hstart x + -1#32 = pointer hstart (x - 1) := by
  have hoffset : ∀ y : ZMod 10, y ≠ 0 →
      BitVec.ofNat 32 y.val + -1#32 = BitVec.ofNat 32 (y - 1).val := by decide
  rw [pointer, pointer, BitVec.add_assoc, hoffset x h]

theorem pointer_wrap_last : pointer hstart 9 + -9#32 = pointer hstart (9 + 1) := by
  have hoffset : BitVec.ofNat 32 (9 : ZMod 10).val + -9#32 =
      BitVec.ofNat 32 (9 + 1 : ZMod 10).val := by decide
  rw [pointer, pointer, BitVec.add_assoc, hoffset]

theorem pointer_wrap_first : pointer hstart 0 + 9#32 = pointer hstart (0 - 1) := by
  have hoffset : BitVec.ofNat 32 (0 : ZMod 10).val + 9#32 =
      BitVec.ofNat 32 (0 - 1 : ZMod 10).val := by decide
  rw [pointer, pointer, BitVec.add_assoc, hoffset]

theorem toNat_pointer (hwrap : hstart.toNat + 9 < 2 ^ 32) :
    (pointer hstart x).toNat = hstart.toNat + x.val := by
  have hlt : x.val < 10 := x.val_lt
  rw [pointer, BitVec.toNat_add, BitVec.toNat_ofNat, Nat.mod_eq_of_lt (by omega : x.val < 2 ^ 32)]
  exact Nat.mod_eq_of_lt (by omega)

theorem tableAt_pointer : tableAt hstart (pointer hstart x) = table[x.val]? := by
  have hlt : x.val < 10 := x.val_lt
  rw [tableAt, pointer, BitVec.add_comm, BitVec.add_sub_cancel, BitVec.toNat_ofNat,
    Nat.mod_eq_of_lt (by omega)]

theorem exists_tableAt_pointer (hstart : Word) (x : ZMod 10) :
    ∃ b, tableAt hstart (pointer hstart x) = some b := by
  rw [tableAt_pointer]
  exact ⟨_, List.getElem?_eq_getElem x.val_lt⟩

end Pointer

end Esd1.Lab2
