import Mathlib.Data.List.Basic
import Mathlib.Logic.Function.Basic

/-!
# Circular buffers with two indices

A buffer of `N` cells between a producer, which owns the index `inIdx`, and a consumer,
which owns `outIdx`.  One cell stays free, so that equal indices mean an empty buffer.

The invariant speaks of the whole history: `log` is everything that was ever published
and `r` how much of it has been taken out.  Both only grow, so what one side once read
of the other side's index stays a safe estimate.
-/

namespace Esd1.Circular

variable {α : Type*} {N : Nat}

structure Buffer (α : Type*) where
  inIdx : Nat
  outIdx : Nat
  cell : Nat → α

namespace Buffer

/-- Write a cell without publishing it. -/
def store (b : Buffer α) (i : Nat) (x : α) : Buffer α :=
  { b with cell := Function.update b.cell i x }

def publish (N : Nat) (b : Buffer α) (n : Nat) : Buffer α :=
  { b with inIdx := (b.inIdx + n) % N }

def release (N : Nat) (b : Buffer α) (n : Nat) : Buffer α :=
  { b with outIdx := (b.outIdx + n) % N }

/-- What has been published and not released, the oldest entry first. -/
def contents (N : Nat) (b : Buffer α) : List α :=
  (List.range ((b.inIdx + N - b.outIdx) % N)).map fun i => b.cell ((b.outIdx + i) % N)

end Buffer

/-- The free cells from `inIdx` to the end of the array or to the cell before `outIdx`. -/
def freeRun (N inIdx outIdx : Nat) : Nat :=
  if inIdx < outIdx then outIdx - 1 - inIdx
  else if 0 < outIdx then N - inIdx
  else N - 1 - inIdx

def usedRun (N inIdx outIdx : Nat) : Nat :=
  if outIdx ≤ inIdx then inIdx - outIdx else N - outIdx

/-! ## Indices and counts -/

section Indices

variable {w r : Nat} (hle : r ≤ w) (hroom : w < r + N)

include hle hroom

/-- Two counts less than `N` apart: either in the same round or in consecutive ones. -/
theorem mod_cases :
    (r % N ≤ w % N ∧ w - r = w % N - r % N) ∨ (w % N < r % N ∧ w - r + r % N = w % N + N) := by
  have hN : 0 < N := by omega
  have hw := Nat.div_add_mod w N
  have hr := Nat.div_add_mod r N
  have hwlt := Nat.mod_lt w hN
  have hrlt := Nat.mod_lt r hN
  have hdiv : r / N ≤ w / N := Nat.div_le_div_right hle
  have hdiv' : w / N ≤ r / N + 1 := by
    have hsucc : w / N ≤ (r + N) / N := Nat.div_le_div_right (Nat.le_of_lt hroom)
    rwa [Nat.add_div_right r hN] at hsucc
  rcases (by omega : w / N = r / N ∨ w / N = r / N + 1) with h | h
  · rw [h] at hw
    omega
  · rw [h, Nat.mul_add, Nat.mul_one] at hw
    omega

theorem mod_eq_mod_iff : w % N = r % N ↔ w = r := by
  constructor
  · intro h
    rcases mod_cases hle hroom with hc | hc <;> omega
  · rintro rfl
    rfl

/-- A producer that finds `n` free cells can fill them. -/
theorem freeRun_spec :
    w % N + freeRun N (w % N) (r % N) ≤ N ∧ w + freeRun N (w % N) (r % N) < r + N ∧
      (freeRun N (w % N) (r % N) = 0 ↔ w + 1 = r + N) := by
  have hN : 0 < N := by omega
  have hwlt := Nat.mod_lt w hN
  have hrlt := Nat.mod_lt r hN
  unfold freeRun
  rcases mod_cases hle hroom with hc | hc
  · rw [if_neg (by omega)]
    split <;> omega
  · rw [if_pos hc.1]
    omega

/-- A consumer that finds `n` published cells can take them. -/
theorem usedRun_spec :
    r % N + usedRun N (w % N) (r % N) ≤ N ∧ r + usedRun N (w % N) (r % N) ≤ w ∧
      (usedRun N (w % N) (r % N) = 0 ↔ w = r) := by
  have hN : 0 < N := by omega
  have hwlt := Nat.mod_lt w hN
  have hrlt := Nat.mod_lt r hN
  unfold usedRun
  rcases mod_cases hle hroom with hc | hc
  · rw [if_pos hc.1]
    omega
  · rw [if_neg (by omega)]
    omega

theorem succ_mod_eq_iff : (w % N + 1) % N = r % N ↔ w + 1 = r + N := by
  have hN : 0 < N := by omega
  rw [Nat.mod_add_mod]
  constructor
  · intro h
    by_contra hne
    have heq := (mod_eq_mod_iff (N := N) (show r ≤ w + 1 by omega) (by omega)).mp h
    omega
  · intro h
    rw [h, Nat.add_mod_right]

theorem length_contents : (w % N + N - r % N) % N = w - r := by
  have hN : 0 < N := by omega
  have hrlt := Nat.mod_lt r hN
  have hwlt := Nat.mod_lt w hN
  rcases mod_cases hle hroom with hc | hc
  · rw [show w % N + N - r % N = w - r + N by omega, Nat.add_mod_right]
    exact Nat.mod_eq_of_lt (by omega)
  · rw [show w % N + N - r % N = w - r by omega]
    exact Nat.mod_eq_of_lt (by omega)

end Indices

/-! ## The invariant -/

/-- `log` has been published, and `r` entries of it have been released. -/
structure Holds (N : Nat) (b : Buffer α) (log : List α) (r : Nat) : Prop where
  inIdx_eq : b.inIdx = log.length % N
  outIdx_eq : b.outIdx = r % N
  released_le : r ≤ log.length
  room : log.length < r + N
  cell_eq : ∀ j (h : j < log.length), r ≤ j → b.cell (j % N) = log[j]

namespace Holds

variable {b : Buffer α} {log xs : List α} {r n i : Nat} {x : α}

theorem pos (h : Holds N b log r) : 0 < N := by
  have hroom := h.room
  have hle := h.released_le
  omega

theorem inIdx_lt (h : Holds N b log r) : b.inIdx < N := by
  rw [h.inIdx_eq]
  exact Nat.mod_lt _ h.pos

theorem outIdx_lt (h : Holds N b log r) : b.outIdx < N := by
  rw [h.outIdx_eq]
  exact Nat.mod_lt _ h.pos

theorem empty_iff (h : Holds N b log r) : b.inIdx = b.outIdx ↔ log.length = r := by
  rw [h.inIdx_eq, h.outIdx_eq]
  exact mod_eq_mod_iff h.released_le h.room

theorem full_iff (h : Holds N b log r) :
    (b.inIdx + 1) % N = b.outIdx ↔ log.length + 1 = r + N := by
  rw [h.inIdx_eq, h.outIdx_eq]
  exact succ_mod_eq_iff h.released_le h.room

/-- The contents of the buffer are the part of the log that was not released. -/
theorem contents_eq (h : Holds N b log r) : b.contents N = log.drop r := by
  have hlen : (b.inIdx + N - b.outIdx) % N = log.length - r := by
    rw [h.inIdx_eq, h.outIdx_eq]
    exact length_contents h.released_le h.room
  apply List.ext_getElem
  · rw [Buffer.contents, List.length_map, List.length_range, hlen, List.length_drop]
  · intro j hj _
    rw [Buffer.contents, List.length_map, List.length_range, hlen] at hj
    simp only [Buffer.contents, List.getElem_map, List.getElem_range, List.getElem_drop]
    rw [h.outIdx_eq, Nat.mod_add_mod]
    exact h.cell_eq (r + j) (by omega) (by omega)

/-- A cell of the published part, by its distance from `outIdx`. -/
theorem cell_outIdx (h : Holds N b log r) (hi : r + i < log.length)
    (hrun : b.outIdx + i < N) : b.cell (b.outIdx + i) = log[r + i] := by
  have hmod : b.outIdx + i = (r + i) % N := by
    rw [← Nat.mod_add_mod, ← h.outIdx_eq, Nat.mod_eq_of_lt hrun]
  rw [hmod]
  exact h.cell_eq (r + i) hi (by omega)

theorem store (h : Holds N b log r) (hi : log.length + i < r + N)
    (hrun : b.inIdx + i < N) : Holds N (b.store (b.inIdx + i) x) log r where
  inIdx_eq := h.inIdx_eq
  outIdx_eq := h.outIdx_eq
  released_le := h.released_le
  room := h.room
  cell_eq j hj hr := by
    have hmod : b.inIdx + i = (log.length + i) % N := by
      rw [← Nat.mod_add_mod, ← h.inIdx_eq, Nat.mod_eq_of_lt hrun]
    have hne : j % N ≠ b.inIdx + i := by
      intro heq
      rw [hmod] at heq
      have hsame := (mod_eq_mod_iff (N := N) (show j ≤ log.length + i by omega)
        (by omega)).mp heq.symm
      omega
    change Function.update b.cell (b.inIdx + i) x (j % N) = log[j]
    rw [Function.update_of_ne hne]
    exact h.cell_eq j hj hr

theorem publish (h : Holds N b log r) (hroom : log.length + xs.length < r + N)
    (hrun : b.inIdx + xs.length ≤ N)
    (hcell : ∀ j (hj : j < xs.length), b.cell (b.inIdx + j) = xs[j]) :
    Holds N (b.publish N xs.length) (log ++ xs) r where
  inIdx_eq := by
    rw [Buffer.publish, h.inIdx_eq, Nat.mod_add_mod, List.length_append]
  outIdx_eq := h.outIdx_eq
  released_le := by
    have hle := h.released_le
    rw [List.length_append]
    omega
  room := by rwa [List.length_append]
  cell_eq j hj hr := by
    by_cases hold : j < log.length
    · rw [List.getElem_append_left hold]
      exact h.cell_eq j hold hr
    · rw [List.length_append] at hj
      have hnew : j - log.length < xs.length := by omega
      rw [List.getElem_append_right (by omega), ← hcell _ hnew]
      have hmod : j % N = b.inIdx + (j - log.length) := by
        calc
          j % N = (log.length + (j - log.length)) % N := by
            rw [Nat.add_sub_cancel' (by omega)]
          _ = (b.inIdx + (j - log.length)) % N := by rw [h.inIdx_eq, Nat.mod_add_mod]
          _ = b.inIdx + (j - log.length) := Nat.mod_eq_of_lt (by omega)
      rw [Buffer.publish, hmod]

theorem release (h : Holds N b log r) (hn : r + n ≤ log.length) :
    Holds N (b.release N n) log (r + n) where
  inIdx_eq := h.inIdx_eq
  outIdx_eq := by rw [Buffer.release, h.outIdx_eq, Nat.mod_add_mod]
  released_le := hn
  room := by
    have hroom := h.room
    omega
  cell_eq j hj hr := h.cell_eq j hj (by omega)

theorem push (h : Holds N b log r) (hfull : (b.inIdx + 1) % N ≠ b.outIdx) :
    Holds N ((b.store b.inIdx x).publish N 1) (log ++ [x]) r := by
  have hroom : log.length + [x].length < r + N := by
    have hne := mt h.full_iff.mpr hfull
    have hlt := h.room
    rw [List.length_singleton]
    omega
  have hlt := h.inIdx_lt
  have hstored : Holds N (b.store b.inIdx x) log r := by
    apply h.store (i := 0) _ hlt
    rw [List.length_singleton] at hroom
    omega
  apply hstored.publish hroom
  · change b.inIdx + 1 ≤ N
    omega
  · intro j hj
    obtain rfl : j = 0 := by simpa using hj
    exact Function.update_self b.inIdx x b.cell

theorem cell_head (h : Holds N b log r) (hempty : b.outIdx ≠ b.inIdx) :
    ∃ hr : r < log.length, b.cell b.outIdx = log[r] := by
  have hr : r < log.length := by
    have hne := mt h.empty_iff.mpr hempty.symm
    have hle := h.released_le
    omega
  exact ⟨hr, h.cell_outIdx (i := 0) hr h.outIdx_lt⟩

end Holds

theorem holds_empty (hN : 0 < N) (cell : Nat → α) :
    Holds N (⟨0, 0, cell⟩ : Buffer α) [] 0 where
  inIdx_eq := (Nat.zero_mod N).symm
  outIdx_eq := (Nat.zero_mod N).symm
  released_le := Nat.le_refl 0
  room := by
    change 0 < 0 + N
    omega
  cell_eq j hj := absurd hj (Nat.not_lt_zero j)

end Esd1.Circular
