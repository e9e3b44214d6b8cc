import Esd1.Interleaving.Runs

/-!
# Assertions at cut points

A program is annotated at some of its states only, at least one in every loop.  If the
annotation at a cut point carries every continuation to the next cut point, at most
`n` steps away, it holds whenever a run meets a cut point, and no run ever gets stuck.
-/

namespace Esd1.Interleaving

variable {σ ε : Type*} (step : σ → ε → Option σ) (ok : σ → ε → Prop) (cut : σ → Prop)
  (A : List ε → σ → Prop)

def CanStep (s : σ) : Prop := ∃ e s', ok s e ∧ step s e = some s'

/-- All continuations meet a cut point within `n` steps, and the first that they meet
carries its annotation. -/
def Within : Nat → List ε → σ → Prop
  | 0, es, s => cut s ∧ A es s
  | n + 1, es, s =>
      (cut s ∧ A es s) ∨
        (¬ cut s ∧ CanStep step ok s ∧
          ∀ e s', ok s e → step s e = some s' → Within n (es ++ [e]) s')

/-- Every cut point leads to the next ones. -/
structure Annotated (n : Nat) : Prop where
  canStep : ∀ es s, cut s → A es s → CanStep step ok s
  next : ∀ es s e s', cut s → A es s → ok s e → step s e = some s' →
    Within step ok cut A n (es ++ [e]) s'

variable {step ok cut A} {n : Nat} {es : List ε} {s s₀ : σ}

namespace Within

theorem of_cut (hcut : cut s) (h : A es s) : Within step ok cut A n es s := by
  cases n with
  | zero => exact ⟨hcut, h⟩
  | succ n => exact Or.inl ⟨hcut, h⟩

theorem of_step (hcut : ¬ cut s) (hstep : CanStep step ok s)
    (h : ∀ e s', ok s e → step s e = some s' → Within step ok cut A n (es ++ [e]) s') :
    Within step ok cut A (n + 1) es s :=
  Or.inr ⟨hcut, hstep, h⟩

theorem succ (h : Within step ok cut A n es s) : Within step ok cut A (n + 1) es s := by
  induction n generalizing es s with
  | zero => exact Or.inl h
  | succ n ih =>
      rcases h with hA | ⟨hcut, hcan, hnext⟩
      · exact Or.inl hA
      · exact of_step hcut hcan (fun e s' hok hs => ih (hnext e s' hok hs))

theorem assertion (h : Within step ok cut A n es s) (hcut : cut s) : A es s := by
  cases n with
  | zero => exact h.2
  | succ n =>
      rcases h with hA | ⟨hnot, -, -⟩
      · exact hA.2
      · exact absurd hcut hnot

theorem exists_cut (h : Within step ok cut A n es s) :
    ∃ fs s', Runs step ok s fs s' ∧ cut s' ∧ A (es ++ fs) s' := by
  induction n generalizing es s with
  | zero => exact ⟨[], s, Runs.nil, h.1, by rw [List.append_nil]; exact h.2⟩
  | succ n ih =>
      rcases h with ⟨hcut, hA⟩ | ⟨-, ⟨e, s', hok, hs⟩, hnext⟩
      · exact ⟨[], s, Runs.nil, hcut, by rw [List.append_nil]; exact hA⟩
      · obtain ⟨fs, s'', hruns, hcut, hA⟩ := ih (hnext e s' hok hs)
        refine ⟨[e] ++ fs, s'', (Runs.nil.snoc hok hs).append hruns, hcut, ?_⟩
        rw [← List.append_assoc]
        exact hA

end Within

namespace Annotated

/-- The rule: a run is never far from its next cut point. -/
theorem within (h : Annotated step ok cut A n) (h₀ : Within step ok cut A n [] s₀)
    (hruns : Runs step ok s₀ es s) : Within step ok cut A n es s := by
  apply hruns.invariant (Within step ok cut A n) h₀
  intro es s e s' hw hok hs
  by_cases hcut : cut s
  · exact h.next es s e s' hcut (hw.assertion hcut) hok hs
  · cases n with
    | zero => exact absurd hw.1 hcut
    | succ n =>
        rcases hw with ⟨hc, -⟩ | ⟨-, -, hnext⟩
        · exact absurd hc hcut
        · -- the step brings the next cut point nearer than the bound asks for
          exact (hnext e s' hok hs).succ

theorem canStep_of_runs (h : Annotated step ok cut A n) (h₀ : Within step ok cut A n [] s₀)
    (hruns : Runs step ok s₀ es s) : CanStep step ok s := by
  have hw := h.within h₀ hruns
  by_cases hcut : cut s
  · exact h.canStep es s hcut (hw.assertion hcut)
  · cases n with
    | zero => exact absurd hw.1 hcut
    | succ n =>
        rcases hw with ⟨hc, -⟩ | ⟨-, hcan, -⟩
        · exact absurd hc hcut
        · exact hcan

/-- What every annotation says of the events so far, and what holds of a part of them
if it holds of all, holds at every moment of a run. -/
theorem events (h : Annotated step ok cut A n) (h₀ : Within step ok cut A n [] s₀)
    (P : List ε → Prop) (hA : ∀ es s, A es s → P es) (hpart : ∀ es fs, P (es ++ fs) → P es)
    (hruns : Runs step ok s₀ es s) : P es := by
  obtain ⟨fs, s', -, -, hA'⟩ := (h.within h₀ hruns).exists_cut
  exact hpart es fs (hA _ _ hA')

end Annotated

end Esd1.Interleaving
