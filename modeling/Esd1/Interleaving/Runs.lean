import Mathlib.Data.List.Basic

/-!
# Runs of a partial step function

A component that reacts to events is a function `step : σ → ε → Option σ`; an
event that is not enabled has no successor.  `Runs step ok s₀ es s` says that the
events `es`, each of them allowed by `ok` in the state it meets, lead from `s₀`
to `s`.  The guard `ok` is what the environment promises; a theorem about every
`Runs` holds for every interleaving the promise admits.

Invariants may speak of the events so far, so counting events against the state
is an invariant like any other.
-/

namespace Esd1.Interleaving

variable {σ ε : Type*}

inductive Runs (step : σ → ε → Option σ) (ok : σ → ε → Prop) (s₀ : σ) :
    List ε → σ → Prop
  | nil : Runs step ok s₀ [] s₀
  | snoc {es : List ε} {s s' : σ} {e : ε} :
      Runs step ok s₀ es s → ok s e → step s e = some s' → Runs step ok s₀ (es ++ [e]) s'

def Always (_ : σ) (_ : ε) : Prop := True

instance (s : σ) (e : ε) : Decidable (Always s e) := inferInstanceAs (Decidable True)

def exec (step : σ → ε → Option σ) (ok : σ → ε → Prop) [∀ s e, Decidable (ok s e)] :
    σ → List ε → Option σ
  | s, [] => some s
  | s, e :: es => if ok s e then (step s e).bind (exec step ok · es) else none

variable {step : σ → ε → Option σ} {ok ok' : σ → ε → Prop} {s₀ : σ}

namespace Runs

theorem append {es fs : List ε} {s t : σ} (h : Runs step ok s₀ es s)
    (h' : Runs step ok s fs t) : Runs step ok s₀ (es ++ fs) t := by
  induction h' with
  | nil => rwa [List.append_nil]
  | snoc _ hok hstep ih =>
      rw [← List.append_assoc]
      exact ih.snoc hok hstep

theorem split {es fs : List ε} {s : σ} (h : Runs step ok s₀ (es ++ fs) s) :
    ∃ t, Runs step ok s₀ es t ∧ Runs step ok t fs s := by
  generalize hall : es ++ fs = all at h
  induction h generalizing fs with
  | nil =>
      obtain ⟨rfl, rfl⟩ := List.append_eq_nil_iff.mp hall
      exact ⟨s₀, nil, nil⟩
  | @snoc gs s s' e hgs hok hstep ih =>
      cases List.eq_nil_or_concat fs with
      | inl hnil =>
          subst hnil
          rw [List.append_nil] at hall
          subst hall
          exact ⟨s', hgs.snoc hok hstep, nil⟩
      | inr hconcat =>
          obtain ⟨fs', e', rfl⟩ := hconcat
          rw [List.concat_eq_append, ← List.append_assoc] at hall
          obtain ⟨rfl, heq⟩ := List.append_inj' hall rfl
          cases heq
          obtain ⟨t, hes, hfs⟩ := ih rfl
          refine ⟨t, hes, ?_⟩
          rw [List.concat_eq_append]
          exact hfs.snoc hok hstep

theorem mono {es : List ε} {s : σ} (h : Runs step ok s₀ es s)
    (hmono : ∀ s e, ok s e → ok' s e) : Runs step ok' s₀ es s := by
  induction h with
  | nil => exact nil
  | snoc _ hok hstep ih => exact ih.snoc (hmono _ _ hok) hstep

/-- A promise about the events alone can be read off them. -/
theorem restrict {p : ε → Prop} {es : List ε} {s : σ} (h : Runs step ok s₀ es s)
    (hp : ∀ e ∈ es, p e) : Runs step (fun _ e => p e) s₀ es s := by
  induction h with
  | nil => exact nil
  | @snoc es s s' e _ _ hstep ih =>
      have hes := ih fun e' he' => hp e' (List.mem_append_left [e] he')
      exact hes.snoc (hp e (List.mem_append_right es (List.mem_singleton.mpr rfl))) hstep

/-- What holds at the start and is kept by every allowed step holds of every run. -/
theorem invariant {es : List ε} {s : σ} (Inv : List ε → σ → Prop) (h₀ : Inv [] s₀)
    (hstep : ∀ es s e s', Inv es s → ok s e → step s e = some s' → Inv (es ++ [e]) s')
    (h : Runs step ok s₀ es s) : Inv es s := by
  induction h with
  | nil => exact h₀
  | snoc _ hok hs ih => exact hstep _ _ _ _ ih hok hs

/-- If the events of `own` act on the view `π` whatever else the state holds, and the
others leave it alone, then the view of a run is the run of its own events. -/
theorem filter {τ : Type*} {step' : τ → ε → Option τ} {es : List ε} {s : σ} (π : σ → τ)
    (own : ε → Bool)
    (hown : ∀ s e s', step s e = some s' → own e = true → step' (π s) e = some (π s'))
    (hother : ∀ s e s', step s e = some s' → own e = false → π s' = π s)
    (h : Runs step ok s₀ es s) : Runs step' Always (π s₀) (es.filter own) (π s) := by
  induction h with
  | nil => exact nil
  | @snoc es s s' e _ _ hstep ih =>
      rw [List.filter_append]
      cases he : own e with
      | true =>
          rw [List.filter_singleton, he]
          exact ih.snoc trivial (hown _ _ _ hstep he)
      | false =>
          rw [List.filter_singleton, he, hother _ _ _ hstep he]
          simpa using ih

/-- A forward simulation: if under an invariant every step is a step of the view, or
leaves it alone, then the view of a run is a run of the events it sees. -/
theorem simulate {τ ε' : Type*} {step' : τ → ε' → Option τ} {es : List ε} {s : σ} (π : σ → τ)
    (sees : ε → Option ε') (Inv : σ → Prop) (h₀ : Inv s₀)
    (hinv : ∀ s e s', Inv s → ok s e → step s e = some s' → Inv s')
    (hsim : ∀ s e s', Inv s → ok s e → step s e = some s' →
      (sees e).elim (some (π s)) (step' (π s)) = some (π s'))
    (h : Runs step ok s₀ es s) : Runs step' Always (π s₀) (es.filterMap sees) (π s) := by
  have hboth : Inv s ∧ Runs step' Always (π s₀) (es.filterMap sees) (π s) := by
    induction h with
    | nil => exact ⟨h₀, nil⟩
    | @snoc es s s' e _ hok hstep ih =>
        obtain ⟨hs, hrun⟩ := ih
        have hview := hsim s e s' hs hok hstep
        refine ⟨hinv s e s' hs hok hstep, ?_⟩
        rw [List.filterMap_append]
        cases he : sees e with
        | none =>
            rw [he] at hview
            obtain hview : π s = π s' := Option.some.inj hview
            rw [List.filterMap_cons_none he, List.filterMap_nil, List.append_nil, ← hview]
            exact hrun
        | some e' =>
            rw [he] at hview
            rw [List.filterMap_cons_some he, List.filterMap_nil]
            exact hrun.snoc trivial hview
  exact hboth.2

theorem of_exec [∀ s e, Decidable (ok s e)] {es : List ε} {s : σ}
    (h : exec step ok s₀ es = some s) : Runs step ok s₀ es s := by
  induction es generalizing s₀ with
  | nil =>
      cases h
      exact nil
  | cons e es ih =>
      unfold exec at h
      split at h
      · next hok =>
          obtain ⟨s₁, hs₁, hes⟩ := Option.bind_eq_some_iff.mp h
          exact (nil.snoc hok hs₁).append (ih hes)
      · cases h

/-- A run of which only a view of the last state is computed. -/
theorem of_exec_map [∀ s e, Decidable (ok s e)] {τ : Type*} {es : List ε} {f : σ → τ} {v : τ}
    (h : (exec step ok s₀ es).map f = some v) : ∃ s, Runs step ok s₀ es s ∧ f s = v := by
  obtain ⟨s, hexec, hv⟩ := Option.map_eq_some_iff.mp h
  exact ⟨s, of_exec hexec, hv⟩

/-- Two runs in a row, the second under its own promise. -/
theorem of_exec_bind [∀ s e, Decidable (ok s e)] [∀ s e, Decidable (ok' s e)] {τ : Type*}
    {es fs : List ε} {f : σ → σ → τ} {v : τ}
    (h : ((exec step ok s₀ es).bind fun s => (exec step ok' s fs).map (f s)) = some v) :
    ∃ s t, Runs step ok s₀ es s ∧ Runs step ok' s fs t ∧ f s t = v := by
  obtain ⟨s, hs, ht⟩ := Option.bind_eq_some_iff.mp h
  obtain ⟨t, hruns, hv⟩ := of_exec_map ht
  exact ⟨s, t, of_exec hs, hruns, hv⟩

end Runs

/-! ## Two components on one stream -/

/-- Two components that fail on nothing related states meet, and stay related, run in
step over every stream. -/
theorem foldlM_related {τ α : Type*} {f : σ → α → Option σ} {g : τ → α → Option τ}
    (R : σ → τ → Prop)
    (hstep : ∀ s t x, R s t → ∃ s' t', f s x = some s' ∧ g t x = some t' ∧ R s' t')
    {s : σ} {t : τ} (h : R s t) (xs : List α) :
    ∃ s' t', xs.foldlM f s = some s' ∧ xs.foldlM g t = some t' ∧ R s' t' := by
  induction xs generalizing s t with
  | nil => exact ⟨s, t, rfl, rfl, h⟩
  | cons x xs ih =>
      obtain ⟨s₁, t₁, hs₁, ht₁, h₁⟩ := hstep s t x h
      obtain ⟨s', t', hs', ht', h'⟩ := ih h₁
      refine ⟨s', t', ?_, ?_, h'⟩
      · rw [List.foldlM_cons, hs₁]
        exact hs'
      · rw [List.foldlM_cons, ht₁]
        exact ht'

end Esd1.Interleaving
