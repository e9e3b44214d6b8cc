import Mathlib.Init

/-!
# Clocked machines

A synchronous design seen at its rising edges: a register value after reset, and
what one edge makes of the registers and the input ports.  A run feeds one input
per edge; the value at `t` is what the registers hold before edge `t`.
-/

namespace Esd1.Clocked

/-- A synchronous design with registers `σ` and input ports `ι`. -/
structure Machine (σ ι : Type*) where
  reset : σ
  edge : σ → ι → σ

namespace Machine

variable {σ ι : Type*} (M : Machine σ ι)

/-- The registers before edge `t`, started from `s` with input `u t` at edge `t`. -/
def runFrom (s : σ) (u : Nat → ι) : Nat → σ
  | 0 => s
  | t + 1 => M.edge (runFrom s u t) (u t)

def run (u : Nat → ι) : Nat → σ := M.runFrom M.reset u

@[simp] theorem runFrom_zero (s : σ) (u : Nat → ι) : M.runFrom s u 0 = s := rfl

theorem runFrom_succ (s : σ) (u : Nat → ι) (t : Nat) :
    M.runFrom s u (t + 1) = M.edge (M.runFrom s u t) (u t) := rfl

@[simp] theorem run_zero (u : Nat → ι) : M.run u 0 = M.reset := rfl

theorem run_succ (u : Nat → ι) (t : Nat) :
    M.run u (t + 1) = M.edge (M.run u t) (u t) := rfl

theorem runFrom_add (s : σ) (u : Nat → ι) (m n : Nat) :
    M.runFrom s u (m + n) =
      M.runFrom (M.runFrom s u m) (fun t => u (m + t)) n := by
  induction n with
  | zero => rfl
  | succ n ih =>
      calc
        M.runFrom s u (m + n + 1) = M.edge (M.runFrom s u (m + n)) (u (m + n)) :=
          M.runFrom_succ s u (m + n)
        _ = M.edge (M.runFrom (M.runFrom s u m) (fun t => u (m + t)) n) (u (m + n)) := by
          rw [ih]

theorem run_add (u : Nat → ι) (m n : Nat) :
    M.run u (m + n) = M.runFrom (M.run u m) (fun t => u (m + t)) n :=
  M.runFrom_add M.reset u m n

/-- The invariant rule, with a rule `ok` on the inputs that may look at the
registers they meet.  Only the edges before `n` have to obey it. -/
theorem run_invariant (Inv : σ → Prop) (ok : σ → ι → Prop)
    (hreset : Inv M.reset)
    (hedge : ∀ s i, Inv s → ok s i → Inv (M.edge s i))
    (u : Nat → ι) (n : Nat) (hu : ∀ t < n, ok (M.run u t) (u t)) :
    Inv (M.run u n) := by
  induction n with
  | zero => exact hreset
  | succ n ih =>
      have hn : Inv (M.run u n) := ih (fun t ht => hu t (by omega))
      exact hedge _ _ hn (hu n (by omega))

/-- The rule for two runs: a relation that holds of the resets and is kept by every
pair of edges that `ok` admits holds between the runs.  Only the edges before `n` have
to be admitted. -/
theorem run_related {τ κ : Type*} (N : Machine τ κ) (R : σ → τ → Prop)
    (ok : σ → ι → τ → κ → Prop) (hreset : R M.reset N.reset)
    (hedge : ∀ s i t k, R s t → ok s i t k → R (M.edge s i) (N.edge t k))
    (u : Nat → ι) (v : Nat → κ) (n : Nat)
    (huv : ∀ t < n, ok (M.run u t) (u t) (N.run v t) (v t)) :
    R (M.run u n) (N.run v n) := by
  induction n with
  | zero => exact hreset
  | succ n ih =>
      have hn : R (M.run u n) (N.run v n) := ih (fun t ht => huv t (by omega))
      exact hedge _ _ _ _ hn (huv n (by omega))

/-- A view of the registers on which every edge acts as a list of events: the view of
a run is the fold of the events of its edges. -/
theorem run_view {τ ε : Type*} (π : σ → τ) (act : τ → ε → τ) (events : σ → ι → List ε)
    (hedge : ∀ s i, π (M.edge s i) = (events s i).foldl act (π s)) (u : Nat → ι) (n : Nat) :
    π (M.run u n) =
      ((List.range n).flatMap fun t => events (M.run u t) (u t)).foldl act (π M.reset) := by
  induction n with
  | zero => rfl
  | succ n ih =>
      rw [run_succ, hedge, ih, List.range_succ, List.flatMap_append, List.foldl_append,
        List.flatMap_singleton]

/-! ## Closed loops -/

def closed (f : σ → ι) : Nat → σ
  | 0 => M.reset
  | t + 1 => M.edge (closed f t) (f (closed f t))

def feedback (f : σ → ι) (t : Nat) : ι := f (M.closed f t)

theorem run_feedback (f : σ → ι) (t : Nat) : M.run (M.feedback f) t = M.closed f t := by
  induction t with
  | zero => rfl
  | succ t ih => rw [run_succ, ih, feedback, closed]

theorem feedback_eq (f : σ → ι) (t : Nat) :
    M.feedback f t = f (M.run (M.feedback f) t) := by
  rw [run_feedback, feedback]

theorem closed_invariant (Inv : σ → Prop) {f : σ → ι} (hreset : Inv M.reset)
    (hedge : ∀ s, Inv s → Inv (M.edge s (f s))) (n : Nat) :
    Inv (M.run (M.feedback f) n) := by
  refine M.run_invariant Inv (fun s i => i = f s) hreset ?_ _ n
    (fun t _ => M.feedback_eq f t)
  rintro s i hs rfl
  exact hedge s hs

/-- In the closed loop with `f`, a state with `P` is followed by one with `Q`. -/
def Leads (f : σ → ι) (P Q : σ → Prop) : Prop :=
  ∀ t, P (M.closed f t) → ∃ t', Q (M.closed f t')

variable {M} {f : σ → ι} {P Q R : σ → Prop}

theorem Leads.trans (h : M.Leads f P Q) (h' : M.Leads f Q R) : M.Leads f P R := by
  intro t ht
  obtain ⟨t', ht'⟩ := h t ht
  exact h' t' ht'

theorem leads_of_edge (h : ∀ s, P s → Q (M.edge s (f s))) : M.Leads f P Q := by
  intro t ht
  exact ⟨t + 1, h _ ht⟩

theorem leads_of_imp (h : ∀ s, P s → Q s) : M.Leads f P Q := by
  intro t ht
  exact ⟨t, h _ ht⟩

theorem leads_of_exists {α : Type*} {I : α → σ → Prop} (h : ∀ a, M.Leads f (I a) Q) :
    M.Leads f (fun s => ∃ a, I a s) Q := by
  rintro t ⟨a, ha⟩
  exact h a t ha

theorem leads_of_runFrom
    (h : ∀ s, P s → ∃ n, ∀ u : Nat → ι, (∀ k, ∃ r, u k = f r) → Q (M.runFrom s u n)) :
    M.Leads f P Q := by
  intro t ht
  obtain ⟨n, hn⟩ := h _ ht
  refine ⟨t + n, ?_⟩
  rw [← run_feedback, run_add, run_feedback]
  exact hn _ (fun k => ⟨_, rfl⟩)

/-- A family of states that leads down by one leads down to its end. -/
theorem Leads.countdown {I : Nat → σ → Prop} (h : ∀ k, M.Leads f (I (k + 1)) (I k))
    (n : Nat) : M.Leads f (I n) (I 0) := by
  induction n with
  | zero => exact leads_of_imp (fun _ hs => hs)
  | succ n ih => exact (h n).trans ih

theorem Leads.exists_run (h : M.Leads f P Q) (hreset : P M.reset) :
    ∃ n, Q (M.run (M.feedback f) n) := by
  obtain ⟨n, hn⟩ := h 0 hreset
  exact ⟨n, by rwa [run_feedback]⟩

end Machine

end Esd1.Clocked
