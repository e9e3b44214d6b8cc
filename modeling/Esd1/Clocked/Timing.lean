import Mathlib.Data.Nat.Count

/-!
# Elapsed edges and flags

How many edges ago something was started anew, and a flag that one line raises and another
one clears.  Times that are a whole number of periods after a start are at least a period
apart, and a flag that is cleared in time counts every time it is raised.
-/

namespace Esd1.Clocked

/-! ## Elapsed edges -/

/-- The edges since the last one that restarts, or since the first. -/
def elapsed (restart : Nat → Bool) : Nat → Nat
  | 0 => 0
  | t + 1 => if restart t then 1 else elapsed restart t + 1

section Elapsed

variable {restart : Nat → Bool} {s t : Nat}

theorem elapsed_restart (h : restart t = true) : elapsed restart (t + 1) = 1 := by
  rw [elapsed, if_pos h]

theorem elapsed_succ (h : restart t = false) :
    elapsed restart (t + 1) = elapsed restart t + 1 := by
  rw [elapsed, h, if_neg Bool.false_ne_true]

theorem elapsed_pos (t : Nat) : 0 < elapsed restart (t + 1) := by
  cases h : restart t with
  | true =>
      rw [elapsed_restart h]
      exact Nat.one_pos
  | false =>
      rw [elapsed_succ h]
      exact Nat.succ_pos _

theorem elapsed_add (n : Nat) (h : ∀ j < n, restart (s + j) = false) :
    elapsed restart (s + n) = elapsed restart s + n := by
  induction n with
  | zero => rfl
  | succ n ih =>
      calc elapsed restart (s + n + 1)
          = elapsed restart (s + n) + 1 := elapsed_succ (h n (Nat.lt_succ_self n))
        _ = elapsed restart s + n + 1 := by rw [ih fun j hj => h j (Nat.lt_succ_of_lt hj)]

theorem elapsed_add_or (n : Nat) :
    elapsed restart (s + n) = elapsed restart s + n ∨ elapsed restart (s + n) ≤ n := by
  induction n with
  | zero => exact Or.inl rfl
  | succ n ih =>
      rw [← Nat.add_assoc s n 1]
      cases h : restart (s + n) with
      | true =>
          rw [elapsed_restart h]
          exact Or.inr (Nat.le_add_left 1 n)
      | false =>
          rw [elapsed_succ h]
          exact ih.imp (congrArg (· + 1)) Nat.succ_le_succ

/-- Whole numbers of periods are at least a period apart. -/
theorem period_apart {m : Nat} (hst : s < t) (hs : m ∣ elapsed restart s)
    (ht : m ∣ elapsed restart t) : s + m ≤ t := by
  obtain ⟨n, rfl⟩ : ∃ n, t = s + (n + 1) := ⟨t - s - 1, by omega⟩
  apply Nat.add_le_add_left
  cases @elapsed_add_or restart s (n + 1) with
  | inl hadd =>
      rw [hadd, Nat.dvd_add_right hs] at ht
      exact Nat.le_of_dvd (Nat.succ_pos n) ht
  | inr hle =>
      have hpos : 0 < elapsed restart (s + (n + 1)) := elapsed_pos (s + n)
      exact (Nat.le_of_dvd hpos ht).trans hle

end Elapsed

/-! ## Flags -/

structure Flag (raised cleared flag : Nat → Bool) : Prop where
  zero : flag 0 = false
  succ : ∀ t, flag (t + 1) = if cleared t then false else raised t || flag t

namespace Flag

variable {raised cleared flag : Nat → Bool} (h : Flag raised cleared flag)

include h

theorem raised_before {t : Nat} (hflag : flag t = true) :
    ∃ s < t, raised s = true ∧ ∀ j, s < j → j < t → cleared j = false := by
  induction t with
  | zero =>
      rw [h.zero] at hflag
      contradiction
  | succ t ih =>
      rw [h.succ] at hflag
      cases hcleared : cleared t with
      | true =>
          rw [hcleared, if_pos rfl] at hflag
          contradiction
      | false =>
          rw [hcleared, if_neg Bool.false_ne_true, Bool.or_eq_true] at hflag
          rcases hflag with hraised | hflag
          · exact ⟨t, Nat.lt_succ_self t, hraised, fun j hj hjt => by omega⟩
          · obtain ⟨s, hs, hraised, hnone⟩ := ih hflag
            refine ⟨s, Nat.lt_succ_of_lt hs, hraised, fun j hj hjt => ?_⟩
            rcases Nat.lt_succ_iff_lt_or_eq.mp hjt with hlt | rfl
            · exact hnone j hj hlt
            · exact hcleared

theorem low_of_prompt {m t : Nat}
    (hapart : ∀ s < t, raised s = true → s + m ≤ t)
    (hprompt : ∀ s < t, raised s = true → ∃ j, s < j ∧ j < s + m ∧ cleared j = true) :
    flag t = false := by
  rw [← Bool.not_eq_true]
  intro hflag
  obtain ⟨s, hs, hraised, hnone⟩ := h.raised_before hflag
  obtain ⟨j, hj, hjm, hcleared⟩ := hprompt s hs hraised
  rw [hnone j hj (Nat.lt_of_lt_of_le hjm (hapart s hs hraised))] at hcleared
  exact Bool.false_ne_true hcleared

/-- A flag that is low whenever it is raised, and cleared only when it is high, counts. -/
theorem count_eq (n : Nat) (hlow : ∀ t < n, raised t = true → flag t = false)
    (hhigh : ∀ t < n, cleared t = true → flag t = true) :
    Nat.count (raised · = true) n = Nat.count (cleared · = true) n + (flag n).toNat := by
  induction n with
  | zero =>
      rw [h.zero]
      rfl
  | succ n ih =>
      have ih := ih (fun t ht => hlow t (Nat.lt_succ_of_lt ht))
        (fun t ht => hhigh t (Nat.lt_succ_of_lt ht))
      have hlow := hlow n (Nat.lt_succ_self n)
      have hhigh := hhigh n (Nat.lt_succ_self n)
      rw [Nat.count_succ, Nat.count_succ, h.succ, ih]
      cases hcleared : cleared n with
      | true =>
          have hflag := hhigh hcleared
          have hraised : raised n = false := by
            rw [← Bool.not_eq_true]
            intro hraised
            rw [hlow hraised] at hflag
            contradiction
          rw [hflag, hraised]
          rfl
      | false =>
          cases hraised : raised n with
          | true =>
              rw [hlow hraised]
              rfl
          | false => rfl

end Flag

end Esd1.Clocked
