import Esd1.Lab4.Proofs.Sweep

/-!
# The interrupt handshake

`IRQ` is high exactly in the two interrupt states.  A write made there leaves
the state on the same edge; a write made anywhere else only reaches the limit
registers.  Hence interrupts and acknowledgements pair off, and the ends of the
sweep take turns.
-/

namespace Esd1.Lab4

open Clocked

def assertions (r : Nat → Registers) (n : Nat) : Nat :=
  rises (fun t => (r t).irq) n

/-- The number of edges before `n` taken with `we = '1'` while `IRQ` is high. -/
def acknowledgements (r : Nat → Registers) (u : Nat → Ports) (n : Nat) : Nat :=
  Nat.count (fun t => (r t).irq = true ∧ (u t).we = true) n

def irqParity : StateType → Nat
  | .sweepR => 0
  | .intR => 1
  | .sweepL => 1
  | .intL => 0

section Edge

variable {iterator : BitVec 32} {r : Registers} {p : Ports}

theorem exists_int_of_irq (h : r.irq = true) : ∃ d : Dir, r.currentState = d.int := by
  obtain ⟨d, hs | hs⟩ := exists_dir r.currentState
  · simp [Registers.irq, hs] at h
  · exact ⟨d, hs⟩

theorem irq_edge_of_irq (h : r.irq = true) : (edge iterator r p).irq = !p.we := by
  obtain ⟨d, hs⟩ := exists_int_of_irq h
  rw [Registers.irq, int_currentState p hs]
  cases p.we <;> simp

theorem currentState_edge_of_irq (h : r.irq = true) (hw : p.we = false) :
    (edge iterator r p).currentState = r.currentState := by
  obtain ⟨d, hs⟩ := exists_int_of_irq h
  rw [int_currentState p hs, hs, hw]
  rfl

theorem angleCnt_edge_of_irq (h : r.irq = true) :
    (edge iterator r p).angleCnt = r.angleCnt := by
  obtain ⟨d, hs⟩ := exists_int_of_irq h
  exact int_angleCnt p hs

theorem currentState_edge_of_not_irq {d : Dir} (hs : r.currentState = d.sweep)
    (h : (edge iterator r p).irq = false) : (edge iterator r p).currentState = d.sweep := by
  rw [Registers.irq, sweep_currentState p hs] at h
  rw [sweep_currentState p hs]
  split
  · next hlim => simp [hlim] at h
  · rfl

theorem irqParity_edge : irqParity (edge iterator r p).currentState =
    (irqParity r.currentState +
      if r.irq = false ∧ (edge iterator r p).irq = true then 1 else 0) % 2 := by
  cases hs : r.currentState with
  | sweepR =>
      have hs' : r.currentState = Dir.right.sweep := hs
      simp only [Registers.irq, sweep_currentState p hs', hs]
      split <;> simp [irqParity, irqP, Dir.int, Dir.sweep]
  | intR =>
      have hs' : r.currentState = Dir.right.int := hs
      simp only [Registers.irq, int_currentState p hs', hs]
      cases p.we <;> simp [irqParity, irqP, Dir.int, Dir.flip, Dir.sweep]
  | sweepL =>
      have hs' : r.currentState = Dir.left.sweep := hs
      simp only [Registers.irq, sweep_currentState p hs', hs]
      split <;> simp [irqParity, irqP, Dir.int, Dir.sweep]
  | intL =>
      have hs' : r.currentState = Dir.left.int := hs
      simp only [Registers.irq, int_currentState p hs', hs]
      cases p.we <;> simp [irqParity, irqP, Dir.int, Dir.flip, Dir.sweep]

end Edge

section Run

variable (iterator : BitVec 32) (u : Nat → Ports)

theorem assertions_succ (n : Nat) : assertions (run iterator u) (n + 1) =
    assertions (run iterator u) n +
      if (run iterator u n).irq = false ∧ (run iterator u (n + 1)).irq = true
      then 1 else 0 :=
  rises_succ _ n

theorem assertions_mod_two (n : Nat) : assertions (run iterator u) n % 2 =
    irqParity (run iterator u n).currentState := by
  induction n with
  | zero => rfl
  | succ n ih =>
      rw [assertions_succ, run_succ, irqParity_edge, ← ih, Nat.mod_add_mod]

theorem acknowledgements_eq_falls (n : Nat) : acknowledgements (run iterator u) u n =
    falls (fun t => (run iterator u t).irq) n := by
  induction n with
  | zero => rfl
  | succ n ih =>
      rw [falls_succ, ← ih, acknowledgements, Nat.count_succ]
      cases h : (run iterator u n).irq with
      | false => simp [acknowledgements]
      | true => simp [acknowledgements, run_succ, irq_edge_of_irq h]

theorem assertions_eq (n : Nat) : assertions (run iterator u) n =
    acknowledgements (run iterator u) u n + (run iterator u n).irq.toNat := by
  calc
    assertions (run iterator u) n =
        falls (fun t => (run iterator u t).irq) n + (run iterator u n).irq.toNat :=
      rises_eq_falls_add _ rfl n
    _ = acknowledgements (run iterator u) u n + (run iterator u n).irq.toNat := by
      rw [acknowledgements_eq_falls]

/-- Ends of the sweep take turns, starting on the right. -/
theorem currentState_of_rise {t : Nat} (hlow : (run iterator u t).irq = false)
    (hhigh : (run iterator u (t + 1)).irq = true) :
    (run iterator u (t + 1)).currentState =
      if assertions (run iterator u) t % 2 = 0 then .intR else .intL := by
  have hparity := assertions_mod_two iterator u (t + 1)
  have hcount : assertions (run iterator u) (t + 1) = assertions (run iterator u) t + 1 := by
    rw [assertions_succ, if_pos ⟨hlow, hhigh⟩]
  rw [hcount] at hparity
  cases hs : (run iterator u (t + 1)).currentState with
  | sweepR => simp [Registers.irq, irqP, hs] at hhigh
  | sweepL => simp [Registers.irq, irqP, hs] at hhigh
  | intR =>
      simp only [hs, irqParity] at hparity
      rw [if_pos (by omega)]
  | intL =>
      simp only [hs, irqParity] at hparity
      rw [if_neg (by omega)]

theorem currentState_until_write {t n : Nat} (htn : t ≤ n)
    (hirq : (run iterator u t).irq = true)
    (hw : ∀ k, t ≤ k → k < n → (u k).we = false) :
    (run iterator u n).currentState = (run iterator u t).currentState := by
  induction n, htn using Nat.le_induction with
  | base => rfl
  | succ n hn ih =>
      have hprev := ih (fun k hk hkn => hw k hk (by omega))
      have hirq' : (run iterator u n).irq = true := by
        rw [Registers.irq, hprev]
        exact hirq
      rw [run_succ, currentState_edge_of_irq hirq' (hw n hn (by omega)), hprev]

/-- From an acknowledgement to the next interrupt the opposite sweep runs. -/
theorem sweep_after_acknowledgement {d : Dir} {t n : Nat} (htn : t < n)
    (hs : (run iterator u t).currentState = d.int) (hw : (u t).we = true)
    (hlow : ∀ k, t < k → k ≤ n → (run iterator u k).irq = false) :
    (run iterator u n).currentState = d.flip.sweep := by
  induction n, htn using Nat.le_induction with
  | base => rw [run_succ, int_currentState (u t) hs, hw, if_pos rfl]
  | succ n hn ih =>
      have hprev := ih (fun k hk hkn => hlow k hk (by omega))
      have hnext := hlow (n + 1) (by omega) le_rfl
      rw [run_succ] at hnext ⊢
      exact currentState_edge_of_not_irq hprev hnext

theorem angleCnt_after_acknowledgement {d : Dir} {t n : Nat} (htn : t < n)
    (hs : (run iterator u t).currentState = d.int) (hw : (u t).we = true)
    (hlow : ∀ k, t < k → k ≤ n → (run iterator u k).irq = false) :
    (run iterator u (n + 1)).angleCnt = (run iterator u n).angleCnt ∨
      (run iterator u (n + 1)).angleCnt =
        d.flip.move iterator (run iterator u n).angleCnt := by
  have hsweep := sweep_after_acknowledgement iterator u htn hs hw hlow
  rw [run_succ, sweep_angleCnt (u n) hsweep]
  split
  · exact Or.inr rfl
  · exact Or.inl rfl

/-- The handshake over a whole run: interrupts alternate between the right and
the left end, each is released by exactly one write and by nothing else, the
angle rests while `IRQ` is high, and after an acknowledgement it moves away from
the end until the next interrupt. -/
theorem interrupt_handshake :
    (∀ t, (run iterator u t).irq = false → (run iterator u (t + 1)).irq = true →
      (run iterator u (t + 1)).currentState =
        if assertions (run iterator u) t % 2 = 0 then .intR else .intL) ∧
    (∀ n, assertions (run iterator u) n =
      acknowledgements (run iterator u) u n +
        if (run iterator u n).irq = true then 1 else 0) ∧
    (∀ t, (run iterator u t).irq = true →
      ((run iterator u (t + 1)).irq = false ↔ (u t).we = true)) ∧
    (∀ t n, t ≤ n → (run iterator u t).irq = true →
      (∀ k, t ≤ k → k < n → (u k).we = false) →
      (run iterator u n).currentState = (run iterator u t).currentState) ∧
    (∀ t, (run iterator u t).irq = true →
      (run iterator u (t + 1)).angleCnt = (run iterator u t).angleCnt) ∧
    (∀ t n, t < n → (run iterator u t).currentState = .intR → (u t).we = true →
      (∀ k, t < k → k ≤ n → (run iterator u k).irq = false) →
      (run iterator u (n + 1)).angleCnt = (run iterator u n).angleCnt ∨
        (run iterator u (n + 1)).angleCnt = (run iterator u n).angleCnt - iterator) ∧
    (∀ t n, t < n → (run iterator u t).currentState = .intL → (u t).we = true →
      (∀ k, t < k → k ≤ n → (run iterator u k).irq = false) →
      (run iterator u (n + 1)).angleCnt = (run iterator u n).angleCnt ∨
        (run iterator u (n + 1)).angleCnt = (run iterator u n).angleCnt + iterator) := by
  refine ⟨fun t => currentState_of_rise iterator u, ?_, ?_,
    fun t n => currentState_until_write iterator u, ?_, ?_, ?_⟩
  · intro n
    rw [assertions_eq]
    cases (run iterator u n).irq <;> rfl
  · intro t hirq
    rw [run_succ, irq_edge_of_irq hirq]
    cases (u t).we <;> simp
  · intro t hirq
    rw [run_succ]
    exact angleCnt_edge_of_irq hirq
  · intro t n htn hs hw hlow
    exact angleCnt_after_acknowledgement (d := .right) iterator u htn hs hw hlow
  · intro t n htn hs hw hlow
    exact angleCnt_after_acknowledgement (d := .left) iterator u htn hs hw hlow

end Run

end Esd1.Lab4
