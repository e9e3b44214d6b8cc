import Esd1.Lab3.Proofs.Part3

/-!
# Presses of KEY1

`pushbutton_isr` acknowledges at its end, with a store that clears every bit of
`edge_capture`.  So a press of KEY1 is served by its own call only if its bit was
clear when it came, and the edges of the other keys stay captured only if there are
none when the store comes.  `balance_step` counts the presses that share a bit.
-/

namespace Esd1.Lab3

open Interleaving

variable {s₀ s s' : System} {es : List Event} {e : Event}

def keyEdges (k : Fin 4) (es : List Event) : Nat := es.count (.keyEdge k)

def Event.completes : Event → Bool
  | .pushbuttonIsr (.storeEdgeCapture _) => true
  | _ => false

def completed (es : List Event) : Nat := es.countP Event.completes

def System.captured (s : System) (k : Fin 4) : Bool := s.pushbuttons.captured k

def System.Quiet (s : System) : Prop := s.cpu = .mainLoop ∧ s.pushbuttons.irq = false

def System.pastLoadSwitches (s : System) : Bool :=
  match s.cpu with
  | .pushbuttonIsr .loadSwitches => false
  | .pushbuttonIsr _ => true
  | _ => false

/-- A KEY1 edge does not come while an earlier one is captured and its routine has
not loaded the switches. -/
def PressesSpaced (s : System) (e : Event) : Prop :=
  e = .keyEdge key1 → s.captured key1 = true → s.pastLoadSwitches = true

instance (s : System) (e : Event) : Decidable (PressesSpaced s e) :=
  inferInstanceAs (Decidable (_ → _))

def Spares (s : System) (e : Event) : Prop :=
  ∀ k s', step s e = some s' → s.captured k = true → s'.captured k = false → k = key1

/-- Every press of KEY1 was served by a call of its own, and the edges of the other
keys are still captured. -/
structure Consumed (es : List Event) (s : System) : Prop where
  served : s.Quiet → completed es = keyEdges key1 es
  kept : ∀ k, k ≠ key1 → 0 < keyEdges k es → s.captured k = true

/-- A KEY1 edge finds its bit clear, and the acknowledgement finds no other bit set. -/
def Undisturbed (s : System) (e : Event) : Prop :=
  (e = .keyEdge key1 → s.captured key1 = false) ∧
    (e.completes = true → ∀ k, k ≠ key1 → s.captured k = false)

instance (s : System) (e : Event) : Decidable (Undisturbed s e) :=
  inferInstanceAs (Decidable (_ ∧ _))

/-! ## What a step does to the captured edges -/

theorem keyEdges_append (k : Fin 4) :
    keyEdges k (es ++ [e]) = keyEdges k es + if e = .keyEdge k then 1 else 0 := by
  unfold keyEdges
  rw [List.count_append, List.count_singleton]
  simp only [beq_iff_eq]

theorem completed_append : completed (es ++ [e]) = completed es + e.completes.toNat := by
  unfold completed
  rw [List.countP_append, List.countP_singleton]
  cases e.completes <;> rfl

theorem captured_keyEdge {j : Fin 4} (h : step s (.keyEdge j) = some s') (k : Fin 4) :
    s'.captured k = (s.captured k || decide (j = k)) := by
  cases h
  exact s.pushbuttons.captured_fallingEdge j k

theorem captured_of_completes (h : step s e = some s') (he : e.completes = true) :
    (∃ pc, s.cpu = .pushbuttonIsr pc) ∧ s'.cpu = .mainLoop ∧
      ∀ k, s'.captured k = false := by
  cases e with
  | keyEdge | timeOut | setSwitches | enterPushbuttonIsr | enterTimer0Isr | timer0Isr =>
      cases he
  | pushbuttonIsr pc =>
      obtain ⟨hcpu, hs⟩ := step_pushbuttonIsr h
      cases pc with
      | loadSwitches | updateIdx | storeHex | loadEdgeCapture => cases he
      | storeEdgeCapture value =>
          cases hs
          exact ⟨⟨_, hcpu⟩, rfl,
            s.pushbuttons.captured_write_edgeCapture (value &&& ~~~0x02#32)⟩

theorem port_eq_nil (hkey : ∀ k, e ≠ .keyEdge k) (he : e.completes = false) :
    e.port = [] := by
  cases e with
  | keyEdge k => exact absurd rfl (hkey k)
  | timeOut | setSwitches | enterPushbuttonIsr | enterTimer0Isr | timer0Isr => rfl
  | pushbuttonIsr pc =>
      cases pc with
      | loadSwitches | updateIdx | storeHex | loadEdgeCapture => rfl
      | storeEdgeCapture => cases he

theorem pushbuttons_of_step (h : step s e = some s') (hkey : ∀ k, e ≠ .keyEdge k)
    (he : e.completes = false) : s'.pushbuttons = s.pushbuttons := by
  rw [(peripherals_step h).1, port_eq_nil hkey he]
  rfl

theorem irqMask_of_step (h : step s e = some s') :
    s'.pushbuttons.irqMask = s.pushbuttons.irqMask := by
  rw [(peripherals_step h).1]
  cases e with
  | pushbuttonIsr pc => cases pc <;> rfl
  | _ => rfl

/-- `pushbutton_isr` runs because it ran before or because its interrupt line was
high. -/
theorem running_of_step {pc' : PushbuttonPc} (h : step s e = some s')
    (hcpu' : s'.cpu = .pushbuttonIsr pc') :
    (∃ pc, s.cpu = .pushbuttonIsr pc) ∨ s.pushbuttons.irq = true := by
  cases e with
  | keyEdge | timeOut | setSwitches =>
      cases h
      exact Or.inl ⟨pc', hcpu'⟩
  | enterPushbuttonIsr =>
      obtain ⟨-, hirq, -⟩ := step_enterPushbuttonIsr h
      exact Or.inr hirq
  | pushbuttonIsr pc => exact Or.inl ⟨pc, (step_pushbuttonIsr h).1⟩
  | enterTimer0Isr =>
      obtain ⟨-, -, rfl⟩ := step_enterTimer0Isr h
      cases hcpu'
  | timer0Isr pc =>
      obtain ⟨-, rfl⟩ := step_timer0Isr h
      cases pc <;> cases hcpu'

theorem captured_mono {k : Fin 4} (h : step s e = some s') (he : e.completes = false)
    (hcap : s.captured k = true) : s'.captured k = true := by
  by_cases hkey : ∃ j, e = .keyEdge j
  · obtain ⟨j, rfl⟩ := hkey
    rw [captured_keyEdge h, hcap, Bool.true_or]
  · rw [System.captured, pushbuttons_of_step h (fun j hj => hkey ⟨j, hj⟩) he]
    exact hcap

/-! ## The balance of presses and calls -/

def merged (s : System) (e : Event) : Nat :=
  if e = .keyEdge key1 ∧ s.captured key1 = true then 1 else 0

/-- A press adds a bit, a call takes one away, and a merged press adds none. -/
theorem balance_step (es : List Event) (h : step s e = some s')
    (hserving : ∀ pc, s.cpu = .pushbuttonIsr pc → s.captured key1 = true) :
    completed (es ++ [e]) + (s'.captured key1).toNat + merged s e + keyEdges key1 es =
      completed es + (s.captured key1).toNat + keyEdges key1 (es ++ [e]) := by
  rw [completed_append, keyEdges_append]
  cases he : e.completes with
  | true =>
      obtain ⟨⟨pc, hcpu⟩, -, hclear⟩ := captured_of_completes h he
      have hne : e ≠ .keyEdge key1 := by
        rintro rfl
        cases he
      rw [hserving pc hcpu, hclear, merged, if_neg (fun hm => hne hm.1), if_neg hne]
      simp only [Bool.toNat_true, Bool.toNat_false]
      omega
  | false =>
      by_cases hkey : e = .keyEdge key1
      · subst hkey
        rw [captured_keyEdge h, decide_eq_true rfl, Bool.or_true, if_pos rfl, merged]
        cases s.captured key1 <;> simp <;> omega
      · have hcap : s'.captured key1 = s.captured key1 := by
          by_cases hother : ∃ j, e = .keyEdge j
          · obtain ⟨j, rfl⟩ := hother
            have hj : j ≠ key1 := fun hj => hkey (congrArg Event.keyEdge hj)
            rw [captured_keyEdge h, decide_eq_false hj, Bool.or_false]
          · rw [System.captured, pushbuttons_of_step h (fun j hj => hother ⟨j, hj⟩) he]
            rfl
        rw [hcap, merged, if_neg (fun hm => hkey hm.1), if_neg hkey]
        simp only [Bool.toNat_false]
        omega

structure KeyInv (es : List Event) (s : System) : Prop where
  irqMask : s.pushbuttons.irqMask = BitVec.twoPow 4 key1
  serving : ∀ pc, s.cpu = .pushbuttonIsr pc → s.captured key1 = true
  balance : completed es + (s.captured key1).toNat ≤ keyEdges key1 es

theorem captured_start (h₀ : Start s₀) (k : Fin 4) : s₀.captured k = false := by
  rw [System.captured, Pushbuttons.captured, h₀.edgeCapture]
  exact BitVec.getLsbD_zero

theorem keyInv_start (h₀ : Start s₀) : KeyInv [] s₀ where
  irqMask := by
    rw [h₀.irqMask]
    decide
  serving := by
    rw [h₀.cpu]
    intro pc h
    cases h
  balance := by
    rw [captured_start h₀]
    exact le_rfl

theorem keyInv_step (hinv : KeyInv es s) (h : step s e = some s') : KeyInv (es ++ [e]) s' := by
  constructor
  · rw [irqMask_of_step h]
    exact hinv.irqMask
  · intro pc' hcpu'
    have hcap : s.captured key1 = true := by
      rcases running_of_step h hcpu' with ⟨pc, hcpu⟩ | hirq
      · exact hinv.serving pc hcpu
      · rwa [Pushbuttons.irq_of_mask s.pushbuttons hinv.irqMask] at hirq
    cases he : e.completes with
    | false => exact captured_mono h he hcap
    | true =>
        rw [(captured_of_completes h he).2.1] at hcpu'
        cases hcpu'
  · have hbalance := balance_step es h hinv.serving
    have hle := hinv.balance
    omega

theorem keyInv_run {ok : System → Event → Prop} (h₀ : Start s₀) (h : Runs step ok s₀ es s) :
    KeyInv es s :=
  h.invariant KeyInv (keyInv_start h₀) fun _ _ _ _ hinv _ => keyInv_step hinv

theorem captured_of_quiet (hinv : KeyInv es s) (hquiet : s.Quiet) : s.captured key1 = false := by
  rw [System.captured, ← Pushbuttons.irq_of_mask s.pushbuttons hinv.irqMask]
  exact hquiet.2

/-! ## Runs without disturbance -/

theorem merged_of_undisturbed (hok : Undisturbed s e) : merged s e = 0 := by
  refine if_neg (fun hm => ?_)
  rw [hok.1 hm.1] at hm
  exact Bool.false_ne_true hm.2

theorem balance_of_undisturbed (h₀ : Start s₀) (h : Runs step Undisturbed s₀ es s) :
    completed es + (s.captured key1).toNat = keyEdges key1 es := by
  induction h with
  | nil =>
      rw [captured_start h₀]
      rfl
  | @snoc es s s' e hrun hok hstep ih =>
      have hbalance := balance_step es hstep (keyInv_run h₀ hrun).serving
      rw [merged_of_undisturbed hok] at hbalance
      omega

theorem kept_of_undisturbed (h : Runs step Undisturbed s₀ es s) {k : Fin 4} (hk : k ≠ key1)
    (hedge : 0 < keyEdges k es) : s.captured k = true := by
  induction h with
  | nil => exact absurd hedge (Nat.lt_irrefl 0)
  | @snoc es s s' e hrun hok hstep ih =>
      rw [keyEdges_append] at hedge
      by_cases hkey : e = .keyEdge k
      · subst hkey
        rw [captured_keyEdge hstep, decide_eq_true rfl, Bool.or_true]
      · rw [if_neg hkey] at hedge
        have hcap := ih hedge
        cases he : e.completes with
        | false => exact captured_mono hstep he hcap
        | true => exact absurd (hok.2 he k hk) (by rw [hcap]; exact Bool.noConfusion)

theorem pressesSpaced_of_undisturbed (hok : Undisturbed s e) : PressesSpaced s e := by
  intro hkey hcap
  rw [hok.1 hkey] at hcap
  cases hcap

theorem spares_of_undisturbed (hok : Undisturbed s e) : Spares s e := by
  intro k s' hstep hcap hclear
  by_contra hk
  cases he : e.completes with
  | false =>
      rw [captured_mono hstep he hcap] at hclear
      cases hclear
  | true =>
      rw [hok.2 he k hk] at hcap
      cases hcap

/-- A run that spares the other keys and merges no press is undisturbed. -/
theorem undisturbed_of_balance (h₀ : Start s₀) (h : Runs step Spares s₀ es s)
    (hbalance : keyEdges key1 es ≤ completed es + (s.captured key1).toNat) :
    Runs step Undisturbed s₀ es s := by
  induction h with
  | nil => exact .nil
  | @snoc es s s' e hrun hok hstep ih =>
      have hinv := keyInv_run h₀ hrun
      have hstepBalance := balance_step es hstep hinv.serving
      have hle := hinv.balance
      have hmerged : merged s e = 0 := by omega
      refine (ih (by omega)).snoc ⟨?_, ?_⟩ hstep
      · intro hkey
        cases hcap : s.captured key1 with
        | false => rfl
        | true =>
            rw [merged, if_pos ⟨hkey, hcap⟩] at hmerged
            cases hmerged
      · intro he k hk
        cases hcap : s.captured k with
        | false => rfl
        | true =>
            exact absurd (hok k s' hstep hcap ((captured_of_completes hstep he).2.2 k)) hk

/-- Presses are consumed one by one, and the other keys are left alone, in every run
in which each KEY1 edge finds its bit clear and each acknowledgement finds no other
bit set.  A run that ends quiet has the property in no other case. -/
theorem presses_consumed (h₀ : Start s₀) :
    (Runs step Undisturbed s₀ es s →
      Runs step PressesSpaced s₀ es s ∧ Runs step Spares s₀ es s ∧ Consumed es s) ∧
    (s.Quiet → Runs step Spares s₀ es s → Consumed es s →
      Runs step Undisturbed s₀ es s) := by
  constructor
  · intro h
    have hbalance := balance_of_undisturbed h₀ h
    refine ⟨h.mono fun _ _ => pressesSpaced_of_undisturbed,
      h.mono fun _ _ => spares_of_undisturbed, ?_, fun k => kept_of_undisturbed h⟩
    intro hquiet
    rw [captured_of_quiet (keyInv_run h₀ h) hquiet] at hbalance
    exact hbalance
  · intro hquiet h hconsumed
    apply undisturbed_of_balance h₀ h
    rw [hconsumed.served hquiet]
    exact Nat.le_add_right _ _

/-! ## One press -/

/-- A press of KEY1 with the switches at 1 and the call that serves it.  The events
`during` come right after the load of the switches; `value` is what the call then
reads from `edge_capture`. -/
def pressUp (during : List Event) (value : BitVec 32) : List Event :=
  [.keyEdge key1, .enterPushbuttonIsr, .pushbuttonIsr .loadSwitches] ++ during ++
    [.pushbuttonIsr (.updateIdx 1#8), .pushbuttonIsr .storeHex, .pushbuttonIsr .loadEdgeCapture,
      .pushbuttonIsr (.storeEdgeCapture value)]

def afterPressUp : System where
  pushbuttons := ⟨0#4, 2#4⟩
  timer := ⟨false, true⟩
  leds := 0#8
  hex0 := 0x79#7
  switches := 1#8
  arrayIdx := 1#16
  cpu := .mainLoop

theorem presses_consumed_pressUp :
    Runs step Spares (main (altSysInit (reset 1#8))) (pressUp [] 2#32) afterPressUp ∧
      Consumed (pressUp [] 2#32) afterPressUp :=
  ((presses_consumed (start_main 1#8)).1 (Runs.of_exec (by decide))).2

/-- A second press after the load of the switches is within the promise, and lost. -/
theorem pressUp_loses_press : ¬ ∀ (s₀ s : System) (es : List Event), Start s₀ →
    Runs step PressesSpaced s₀ es s → Runs step Spares s₀ es s ∧ Consumed es s := by
  intro hclaim
  have hrun : Runs step PressesSpaced (main (altSysInit (reset 1#8)))
      (pressUp [.keyEdge key1] 2#32) afterPressUp := Runs.of_exec (by decide)
  have hserved := (hclaim _ _ _ (start_main 1#8) hrun).2.served ⟨rfl, by decide⟩
  exact absurd hserved (by decide)

/-- An edge of KEY0 during the call is erased with that of KEY1. -/
example : exec step PressesSpaced (main (altSysInit (reset 1#8)))
    (pressUp [.keyEdge 0] 3#32) = some afterPressUp := by
  decide

/-! ## From the pins to the calls -/

theorem count_port (k : Fin 4) (es : List Event) :
    (es.flatMap Event.port).count (.fallingEdge k) = keyEdges k es := by
  induction es with
  | nil => rfl
  | cons e es ih =>
      unfold keyEdges at ih ⊢
      rw [List.flatMap_cons, List.count_append, ih, List.count_cons, Nat.add_comm]
      congr 1
      cases e with
      | keyEdge j => simp [Event.port, List.count_singleton]
      | pushbuttonIsr pc => cases pc <;> simp [Event.port]
      | timeOut | setSwitches | enterPushbuttonIsr | enterTimer0Isr | timer0Isr => rfl

/-- If the port of the hardware meets the write of `main` and then the events of a run,
its registers are those of the run, and the presses are the falls of the pins. -/
theorem pins_run {ok : System → Event → Prop} (h₀ : Start s₀) (h : Runs step ok s₀ es s)
    (u : Nat → NiosSystemPushbuttons.Inputs) (n : Nat)
    (hport : NiosSystemPushbuttons.runEvents u (n + 2) =
      .write interruptOffset 0x02#32 :: es.flatMap Event.port) :
    NiosSystemPushbuttons.view (NiosSystemPushbuttons.machine.run u (n + 2)) =
        s.pushbuttons ∧
      ∀ k, keyEdges k es = Clocked.falls (fun t => (u t).inPort.getLsbD k) n := by
  constructor
  · have hstart : s₀.pushbuttons = ⟨0#4, 2#4⟩ := by rw [← h₀.edgeCapture, ← h₀.irqMask]
    rw [NiosSystemPushbuttons.view_run, hport, (peripherals_run h).1, hstart]
    rfl
  · intro k
    rw [← NiosSystemPushbuttons.count_fallingEdge, hport, List.count_cons, count_port]
    rfl

end Esd1.Lab3
