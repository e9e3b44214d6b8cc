import Esd1.Clocked.Machine

/-!
# Resets and input flip-flops

A design whose reset line is an input of the board starts from anything.  Once the line
has been low for one edge, all that came before is forgotten: from then on, and until the
line is low again, the registers are those of the run from reset.  The line usually comes
through a row of flip-flops.
-/

namespace Esd1.Clocked

namespace Machine

variable {σ ι : Type*} (M : Machine σ ι)

/-- An edge under a reset that acts at once.  The line is at `before` when the edge comes,
and at `after` when the flip-flops that drive it have changed. -/
def asyncEdge (before after : Bool) (s : σ) (i : ι) : σ :=
  if before && after then M.edge s i else M.reset

/-- An edge under a reset that is sampled with the other inputs. -/
def syncEdge (line : Bool) (s : σ) (i : ι) : σ := if line then M.edge s i else M.reset

/-- The registers `x` follow the design with the reset line `r` and the inputs `u`. -/
def AsyncReset (x : Nat → σ) (r : Nat → Bool) (u : Nat → ι) : Prop :=
  ∀ t, x (t + 1) = M.asyncEdge (r t) (r (t + 1)) (x t) (u t)

def SyncReset (x : Nat → σ) (r : Nat → Bool) (u : Nat → ι) : Prop :=
  ∀ t, x (t + 1) = M.syncEdge (r t) (x t) (u t)

variable {M} {x : Nat → σ} {r : Nat → Bool} {u : Nat → ι} {m : Nat}

theorem AsyncReset.of_low (h : M.AsyncReset x r u) (hlow : r m = false) :
    x (m + 1) = M.reset := by
  rw [h, asyncEdge, hlow]
  rfl

theorem AsyncReset.of_low_after (h : M.AsyncReset x r u) (hlow : r (m + 1) = false) :
    x (m + 1) = M.reset := by
  rw [h, asyncEdge, hlow, Bool.and_false]
  rfl

/-- After the line has come up the run is the one from reset. -/
theorem AsyncReset.eq_run (h : M.AsyncReset x r u) (hlow : r m = false) (n : Nat)
    (hhigh : ∀ j ≤ n, r (m + 1 + j) = true) :
    x (m + 1 + n) = M.run (fun t => u (m + 1 + t)) n := by
  induction n with
  | zero => exact h.of_low hlow
  | succ n ih =>
      have hbefore : r (m + 1 + n) = true := hhigh n (Nat.le_succ n)
      have hafter : r (m + 1 + n + 1) = true := hhigh (n + 1) (Nat.le_refl _)
      calc
        x (m + 1 + n + 1) = M.edge (x (m + 1 + n)) (u (m + 1 + n)) := by
          rw [h, asyncEdge, hbefore, hafter]
          rfl
        _ = M.edge (M.run (fun t => u (m + 1 + t)) n) (u (m + 1 + n)) := by
          rw [ih fun j hj => hhigh j (Nat.le_succ_of_le hj)]

theorem SyncReset.eq_run (h : M.SyncReset x r u) (hlow : r m = false) (n : Nat)
    (hhigh : ∀ j < n, r (m + 1 + j) = true) :
    x (m + 1 + n) = M.run (fun t => u (m + 1 + t)) n := by
  induction n with
  | zero =>
      change x (m + 1) = M.reset
      rw [h, syncEdge, hlow]
      rfl
  | succ n ih =>
      have hline : r (m + 1 + n) = true := hhigh n (Nat.lt_succ_self n)
      calc
        x (m + 1 + n + 1) = M.edge (x (m + 1 + n)) (u (m + 1 + n)) := by
          rw [h, syncEdge, hline]
          rfl
        _ = M.edge (M.run (fun t => u (m + 1 + t)) n) (u (m + 1 + n)) := by
          rw [ih fun j hj => hhigh j (Nat.lt_succ_of_lt hj)]

end Machine

/-- A row of two flip-flops hands its input on two edges later. -/
theorem delay_two {α : Type*} {d q₁ q₂ : Nat → α} (h₁ : ∀ t, q₁ (t + 1) = d t)
    (h₂ : ∀ t, q₂ (t + 1) = q₁ t) (t : Nat) : q₂ (t + 2) = d t := by
  rw [h₂, h₁]

theorem delay_three {α : Type*} {d q₁ q₂ q₃ : Nat → α} (h₁ : ∀ t, q₁ (t + 1) = d t)
    (h₂ : ∀ t, q₂ (t + 1) = q₁ t) (h₃ : ∀ t, q₃ (t + 1) = q₂ t) (t : Nat) :
    q₃ (t + 3) = d t := by
  rw [h₃, delay_two h₁ h₂]

end Esd1.Clocked
