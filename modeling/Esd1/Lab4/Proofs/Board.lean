import Esd1.Lab4.Board
import Esd1.Lab4.Proofs.Orbit
import Esd1.Lab4.Proofs.Pwm

/-!
# What comes out of the board

The waveform of `GPIO_0(3)`, cycle by cycle, for every press of `KEY(0)` and from every
contents of the flip-flops at power-up.  It is a pulse a frame, and the lengths of the
pulses go up and down as a triangle wave.
-/

namespace Esd1.Lab4

open Clocked Triangle

def sweepAngle (n : Nat) : Nat := ((tick 49999 100000 500)^[n] ⟨true, 50000⟩).pos

/-- The output of the controller before edge `t` of the run from reset. -/
def waveform : Nat → Bool
  | 0 => false
  | t + 1 => decide (t % 1000001 ≤ sweepAngle (t / 1000001))

theorem angleCnt_frameStart (n : Nat) :
    (functional lab4Data (frameStart n)).angleCnt.toNat = sweepAngle n := by
  have hangle := @frameAngle_wired (resize iteratorDefault) lab4Data (by decide) (by decide)
    (by decide) n 0 (Nat.zero_le _)
  have hlimit : lab4Data.toNat = 49999 := by decide
  rw [iteratorDefault_toNat, hlimit, Nat.add_zero] at hangle
  exact hangle

theorem sweepAngle_mem (n : Nat) : 49500 ≤ sweepAngle n ∧ sweepAngle n ≤ 100000 := by
  have hmem := angleCnt_functional_mem (w := lab4Data) (by decide) (by decide) (frameStart n)
  have htrough : trough 500 lab4Data.toNat = 49500 := by decide
  rw [angleCnt_frameStart, htrough] at hmem
  exact hmem

theorem outwave_functional (t : Nat) : (functional lab4Data t).outwave = waveform t := by
  cases t with
  | zero => rfl
  | succ t =>
      have hsplit : frameStart (t / 1000001) + t % 1000001 = t := Nat.div_add_mod' t 1000001
      have hlt : t % 1000001 < 1000001 := Nat.mod_lt t (by decide)
      have hframe := isFrame (resize iteratorDefault) (fun _ => lab4Ports lab4Data) (t / 1000001)
      have hpulse := outwave_frame (resize iteratorDefault) (fun _ => lab4Ports lab4Data) hframe
        (t := t) (by omega) (by rw [period_toNat]; omega)
      have hoffset : t - frameStart (t / 1000001) = t % 1000001 := by omega
      rw [hoffset] at hpulse
      rw [waveform, ← angleCnt_frameStart]
      exact hpulse

/-! ## The reset -/

section Run

variable (powerUp : Board) (key : Nat → BitVec 4)

theorem resetN_run (t : Nat) :
    ((lab4 powerUp).run key (t + 2)).resetN = (key t).getLsbD 0 := by
  have hdelay := @delay_two _ key (fun t => ((lab4 powerUp).run key t).syncKeys.flop1)
    (fun t => ((lab4 powerUp).run key t).syncKeys.flop2)
    (fun _ => rfl) (fun _ => rfl) t
  exact congrArg (BitVec.getLsbD · 0) hdelay

theorem asyncReset_run : (servoController (resize iteratorDefault)).AsyncReset
    (fun t => ((lab4 powerUp).run key t).functional)
    (fun t => ((lab4 powerUp).run key t).resetN) (fun _ => lab4Ports lab4Data) :=
  fun _ => rfl

/-- Three edges after the last sample that found the button down the controller starts, and
runs until the button is down again. -/
theorem functional_run {m : Nat} (hlow : (key m).getLsbD 0 = false) (n : Nat)
    (hhigh : ∀ j ≤ n, (key (m + 1 + j)).getLsbD 0 = true) :
    ((lab4 powerUp).run key (m + 3 + n)).functional = functional lab4Data n := by
  apply (asyncReset_run powerUp key).eq_run
  · rw [resetN_run, hlow]
  · intro j hj
    have hindex : m + 2 + 1 + j = m + 1 + j + 2 := by omega
    rw [hindex, resetN_run]
    exact hhigh j hj

/-- Whatever the flip-flops held at power-up, the pin is low from two edges after the button
was down, and from the fourth on, while the button stays up, it carries a pulse in every
frame of 1000001 edges, which lasts as long as the triangle wave says, from 49501 to 100001
edges. -/
theorem pin_waveform :
    (∀ m, (key m).getLsbD 0 = false →
      ((lab4 powerUp).run key (m + 2)).gpio3 = false ∧
        ((lab4 powerUp).run key (m + 3)).gpio3 = false) ∧
    (∀ m n, (key m).getLsbD 0 = false → (∀ j ≤ n + 1, (key (m + 1 + j)).getLsbD 0 = true) →
      ((lab4 powerUp).run key (m + 4 + n)).gpio3 =
        decide (n % 1000001 ≤ sweepAngle (n / 1000001))) ∧
    ∀ n, 49500 ≤ sweepAngle n ∧ sweepAngle n ≤ 100000 := by
  refine ⟨?_, ?_, sweepAngle_mem⟩
  · intro m hlow
    have hdown : ((lab4 powerUp).run key (m + 2)).resetN = false := by
      rw [resetN_run, hlow]
    constructor
    · exact congrArg Registers.outwave ((asyncReset_run powerUp key).of_low_after hdown)
    · exact congrArg Registers.outwave ((asyncReset_run powerUp key).of_low hdown)
  · intro m n hlow hhigh
    have hindex : m + 4 + n = m + 3 + (n + 1) := by omega
    rw [hindex, Board.gpio3, functional_run powerUp key hlow (n + 1) hhigh, outwave_functional]
    rfl

end Run

def pressOnce (t : Nat) : BitVec 4 := if t = 0 then 0#4 else 15#4

def unknown : Board := ⟨⟨15#4, 0#4⟩, ⟨.intL, 7#32, 0#32, 9#32, 5#32, true⟩⟩

theorem pin_waveform_pressOnce :
    ((lab4 unknown).run pressOnce 3).gpio3 = false ∧
      ((lab4 unknown).run pressOnce 50004).gpio3 = true ∧
      ((lab4 unknown).run pressOnce 50005).gpio3 = false := by
  obtain ⟨hlow, hpulse, -⟩ := pin_waveform unknown pressOnce
  have hup (n : Nat) : ∀ j ≤ n + 1, (pressOnce (0 + 1 + j)).getLsbD 0 = true := by
    intro j _
    rw [pressOnce, if_neg (by omega)]
    rfl
  refine ⟨(hlow 0 rfl).2, ?_, ?_⟩
  · rw [show 50004 = 0 + 4 + 50000 from rfl, hpulse 0 50000 rfl (hup 50000)]
    decide
  · rw [show 50005 = 0 + 4 + 50001 from rfl, hpulse 0 50001 rfl (hup 50001)]
    decide

end Esd1.Lab4
