import Mathlib.Data.Nat.Bitwise
import Esd1.Clocked.Reset
import Esd1.NiosII.Rules

/-!
# The lights

Both parts of the first lab: `lightsNoNios.vhd`, where a counter blinks an LED, and the
program `lights.s`, which shows the switches on the LEDs.
-/

namespace Esd1.Lab1

/-! ## `lightsNoNios.vhd` -/

open Clocked

/-- `syncCntr_proc` with `reset_n` high. -/
def syncCntr : Machine (BitVec 26) Unit where
  reset := 0#26
  edge cntr _ := cntr + 1#26

structure LightsNoNios where
  key0D1 : Bool
  key0D2 : Bool
  key0D3 : Bool
  cntr : BitVec 26
  deriving DecidableEq, Repr

namespace LightsNoNios

def resetN (b : LightsNoNios) : Bool := b.key0D3

def ledr (b : LightsNoNios) : BitVec 10 :=
  let led0 := b.cntr.getLsbD 25
  let ledNios := 0b10101#5
  ledNios ++ (0xF#4 ++ BitVec.ofBool led0)

def edge (b : LightsNoNios) (key : BitVec 4) : LightsNoNios where
  key0D1 := key.getLsbD 0
  key0D2 := b.key0D1
  key0D3 := b.key0D2
  cntr := syncCntr.syncEdge b.resetN b.cntr ()

end LightsNoNios

def lightsNoNios (powerUp : LightsNoNios) : Machine LightsNoNios (BitVec 4) where
  reset := powerUp
  edge := LightsNoNios.edge

theorem syncCntr_run (n : Nat) : syncCntr.run (fun _ => ()) n = BitVec.ofNat 26 n := by
  induction n with
  | zero => rfl
  | succ n ih =>
      change syncCntr.run (fun _ => ()) n + 1#26 = BitVec.ofNat 26 (n + 1)
      rw [ih, ← BitVec.ofNat_add]

theorem resetN_run (powerUp : LightsNoNios) (key : Nat → BitVec 4) (t : Nat) :
    ((lightsNoNios powerUp).run key (t + 3)).resetN = (key t).getLsbD 0 :=
  @delay_three _ (fun t => (key t).getLsbD 0)
    (fun t => ((lightsNoNios powerUp).run key t).key0D1)
    (fun t => ((lightsNoNios powerUp).run key t).key0D2)
    (fun t => ((lightsNoNios powerUp).run key t).key0D3)
    (fun _ => rfl) (fun _ => rfl) (fun _ => rfl) t

/-- Whatever the flip-flops held at power-up, four edges after the last sample that found
`KEY(0)` down `LEDR(0)` is dark, and it changes every `2 ^ 25` edges while the key stays up.
The other LEDs never change. -/
theorem ledr_run (powerUp : LightsNoNios) (key : Nat → BitVec 4) {m : Nat}
    (hlow : (key m).getLsbD 0 = false) (n : Nat)
    (hhigh : ∀ j < n, (key (m + 1 + j)).getLsbD 0 = true) :
    ((lightsNoNios powerUp).run key (m + 4 + n)).ledr =
      0b10101#5 ++ (0xF#4 ++ BitVec.ofBool (decide (n / 2 ^ 25 % 2 = 1))) := by
  have hsync : syncCntr.SyncReset (fun t => ((lightsNoNios powerUp).run key t).cntr)
      (fun t => ((lightsNoNios powerUp).run key t).resetN) (fun _ => ()) := fun _ => rfl
  have hcntr : ((lightsNoNios powerUp).run key (m + 4 + n)).cntr = BitVec.ofNat 26 n := by
    rw [← syncCntr_run]
    apply hsync.eq_run
    · rw [resetN_run, hlow]
    · intro j hj
      rw [show m + 3 + 1 + j = m + 1 + j + 3 by omega, resetN_run]
      exact hhigh j hj
  rw [LightsNoNios.ledr, hcntr, BitVec.getLsbD_ofNat, Nat.testBit_eq_decide_div_mod_eq]
  rfl

/-! ## `lights.s` -/

open NiosII Interleaving

inductive Label where
  | main
  | loop
  deriving DecidableEq, Repr

def switches : Word := 0x11010#32

def leds : Word := 0x11000#32

def lights : List (Line BusOp Label) := [
  .label .main,
  .movhi .r2 (hi switches),
  .ori .r2 .r2 (lo switches),
  .movhi .r3 (hi leds),
  .ori .r3 .r3 (lo leds),
  .label .loop,
  .ldbio .r4 0 .r2,
  .stbio .r4 0 .r3,
  .br .loop ]

def bus (es : List Access) : List Access := es.filter (· ≠ .internal)

def echo (values : List Byte) : List Access :=
  values.flatMap fun value => [.load .r2 switches value, .store .r3 leds value]

structure Assertion (es : List Access) (s : State) : Prop where
  pc : s.pc = address lights .loop
  r2 : s.regs.read .r2 = switches
  r3 : s.regs.read .r3 = leds
  bus : ∃ values, bus es = echo values

theorem echo_append (values : List Byte) (value : Byte) :
    echo (values ++ [value]) =
      echo values ++ [.load .r2 switches value, .store .r3 leds value] := by
  rw [echo, List.flatMap_append, List.flatMap_singleton, ← echo]

section Run

variable {ok : State → Access → Prop} (hok : Responsive ok)

include hok

theorem within_main (ρ : Regs) :
    Within (step lights) ok (AtLabel lights [.loop]) Assertion 4 []
      ⟨address lights .main, ρ⟩ := by
  apply within_movhi_ori hok (by decide) rfl rfl rfl rfl
  apply within_movhi_ori hok (by decide) rfl rfl rfl rfl
  apply Within.of_cut (atLabel_of_mem (l := Label.loop) (List.mem_singleton.mpr rfl))
  exact ⟨rfl, rfl, rfl, [], rfl⟩

theorem annotated : Annotated (step lights) ok (AtLabel lights [.loop]) Assertion 4 where
  canStep es s _ h := by
    obtain ⟨pc, ρ⟩ := s
    obtain rfl : pc = address lights .loop := h.pc
    exact hok.canStep (i := .other (.ldbio .r4 0 .r2)) rfl
  next es s e s' _ h _ hs := by
    obtain ⟨pc, ρ⟩ := s
    obtain rfl : pc = address lights .loop := h.pc
    have hr2 : ρ.read .r2 = switches := h.r2
    have hr3 : ρ.read .r3 = leds := h.r3
    obtain ⟨values, hvalues⟩ := h.bus
    obtain ⟨value, rfl, rfl⟩ := step_ldbio (b := .r4) (a := .r2) rfl hs
    apply within_stbio hok rfl rfl
    apply within_br hok rfl rfl
    apply Within.of_cut (atLabel_of_mem (l := Label.loop) (List.mem_singleton.mpr rfl))
    rw [Regs.read_write_of_ne _ _ (by decide), Regs.read_write_self _ _ (by decide), hr2, hr3,
      add_signExtend_zero, add_signExtend_zero, Words.setWidth_signExtend _ (by decide)]
    refine ⟨rfl, hr2, hr3, values ++ [value], ?_⟩
    rw [echo_append, ← hvalues]
    simp [bus]

/-- In every run the program reads the switches and stores what they returned to the LEDs,
in turns, and does nothing else on the bus; and it goes on for ever. -/
theorem lights_echo {es : List Access} {s : State} (ρ : Regs)
    (hruns : Runs (step lights) ok ⟨address lights .main, ρ⟩ es s) :
    CanStep (step lights) ok s ∧ ∃ values, bus es <+: echo values := by
  have hannotated := annotated hok
  refine ⟨hannotated.canStep_of_runs (within_main hok ρ) hruns, ?_⟩
  apply hannotated.events (within_main hok ρ) (fun es => ∃ values, bus es <+: echo values) _ _
    hruns
  · intro es s h
    obtain ⟨values, hvalues⟩ := h.bus
    exact ⟨values, hvalues ▸ List.prefix_rfl⟩
  · intro es fs h
    obtain ⟨values, hvalues⟩ := h
    refine ⟨values, List.IsPrefix.trans ?_ hvalues⟩
    rw [bus, bus, List.filter_append]
    exact List.prefix_append _ _

end Run

end Esd1.Lab1
