import Esd1.Lab3.Display
import Esd1.Lab3.Part3
import Esd1.Lab3.Proofs.NiosSystem
import Mathlib.Tactic.SplitIfs

/-!
# What a step of `Part3.c` can do

One lemma a part of the system: which events change it, and to what.  The routines
share nothing but the processor: `pushbutton_isr` leaves the timer and the LEDs
alone, `timer0_isr` the keys and the display.
-/

namespace Esd1.Lab3

variable {s s' : System} {e : Event}

/-! ## The routines -/

section Isr

variable (s) (switchVal : BitVec 8)

@[simp] theorem updateIdx_hex0 : (updateIdx s switchVal).hex0 = s.hex0 := by
  unfold updateIdx
  split_ifs <;> rfl

/-- The update moves the digit as a press does, and goes on to the display exactly
when the digit changes. -/
theorem updateIdx_press {d : Digit} (hd : s.arrayIdx.toNat = d.val) :
    (updateIdx s switchVal).arrayIdx.toNat = (d.press switchVal).val ∧
    (updateIdx s switchVal).cpu =
      if d.press switchVal = d then .pushbuttonIsr .loadEdgeCapture
      else .pushbuttonIsr .storeHex := by
  unfold updateIdx
  by_cases h0 : switchVal = 0x00#8
  · subst h0
    rw [if_pos rfl, Digit.press_zero]
    by_cases hd0 : d.val = 0
    · rw [if_pos ((Digit.index_eq_zero_iff hd).mpr hd0), Digit.down_of_eq hd0, if_pos rfl]
      exact ⟨hd, rfl⟩
    · rw [if_neg (fun h => hd0 ((Digit.index_eq_zero_iff hd).mp h)),
        if_neg (Digit.down_ne hd0)]
      exact ⟨Digit.index_sub_one hd hd0, rfl⟩
  · rw [if_neg h0]
    by_cases h1 : switchVal = 0x01#8
    · subst h1
      rw [if_pos rfl, Digit.press_one]
      by_cases hd9 : d.val = 9
      · rw [if_pos ((Digit.index_eq_nine_iff hd).mpr hd9), Digit.up_of_eq hd9, if_pos rfl]
        exact ⟨hd, rfl⟩
      · rw [if_neg (fun h => hd9 ((Digit.index_eq_nine_iff hd).mp h)),
          if_neg (Digit.up_ne hd9)]
        exact ⟨Digit.index_add_one hd hd9, rfl⟩
    · rw [if_neg h1, Digit.press_other d h0 h1, if_pos rfl]
      exact ⟨hd, rfl⟩

end Isr

/-! ## Enabled steps -/

theorem step_enterPushbuttonIsr (h : step s .enterPushbuttonIsr = some s') :
    s.cpu = .mainLoop ∧ s.pushbuttons.irq = true ∧
      s' = { s with cpu := .pushbuttonIsr .loadSwitches } := by
  obtain ⟨⟨hcpu, hirq⟩, hs⟩ := Option.ite_none_right_eq_some.mp h
  cases hs
  exact ⟨hcpu, hirq, rfl⟩

theorem step_enterTimer0Isr (h : step s .enterTimer0Isr = some s') :
    s.cpu = .mainLoop ∧ s.timer.irq = true ∧
      s' = { s with cpu := .timer0Isr .storeStatus } := by
  obtain ⟨⟨hcpu, hirq⟩, hs⟩ := Option.ite_none_right_eq_some.mp h
  cases hs
  exact ⟨hcpu, hirq, rfl⟩

theorem step_pushbuttonIsr {pc : PushbuttonPc} (h : step s (.pushbuttonIsr pc) = some s') :
    s.cpu = .pushbuttonIsr pc ∧ pushbuttonIsr s pc = some s' :=
  Option.ite_none_right_eq_some.mp h

theorem step_timer0Isr {pc : Timer0Pc} (h : step s (.timer0Isr pc) = some s') :
    s.cpu = .timer0Isr pc ∧ s' = timer0Isr s pc := by
  obtain ⟨hcpu, hs⟩ := Option.ite_none_right_eq_some.mp h
  cases hs
  exact ⟨hcpu, rfl⟩

/-! ## The peripherals

The peripherals of the system move by the events that `Proofs/NiosSystem.lean` finds
in the hardware.
-/

def Event.port : Event → List Pushbuttons.Event
  | .keyEdge k => [.fallingEdge k]
  | .pushbuttonIsr (.storeEdgeCapture value) =>
      [.write interruptmask (value &&& ~~~0x02#32)]
  | _ => []

def Event.timer : Event → List Timer.Event
  | .timeOut => [.timeOut]
  | .timer0Isr .storeStatus => [.write 0#3 0#16]
  | _ => []

theorem pushbuttonIsr_peripherals {pc : PushbuttonPc} (h : pushbuttonIsr s pc = some s') :
    s'.pushbuttons = (Event.pushbuttonIsr pc).port.foldl Pushbuttons.act s.pushbuttons ∧
      s'.timer = s.timer := by
  cases pc with
  | loadSwitches | loadEdgeCapture | storeEdgeCapture =>
      cases h
      exact ⟨rfl, rfl⟩
  | updateIdx switchVal =>
      cases h
      unfold updateIdx
      split_ifs <;> exact ⟨rfl, rfl⟩
  | storeHex =>
      obtain ⟨segments, -, rfl⟩ := Option.map_eq_some_iff.mp h
      exact ⟨rfl, rfl⟩

theorem peripherals_step (h : step s e = some s') :
    s'.pushbuttons = e.port.foldl Pushbuttons.act s.pushbuttons ∧
      s'.timer = e.timer.foldl Timer.act s.timer := by
  cases e with
  | keyEdge | timeOut | setSwitches =>
      cases h
      exact ⟨rfl, rfl⟩
  | enterPushbuttonIsr =>
      obtain ⟨-, -, rfl⟩ := step_enterPushbuttonIsr h
      exact ⟨rfl, rfl⟩
  | enterTimer0Isr =>
      obtain ⟨-, -, rfl⟩ := step_enterTimer0Isr h
      exact ⟨rfl, rfl⟩
  | pushbuttonIsr pc => exact pushbuttonIsr_peripherals (step_pushbuttonIsr h).2
  | timer0Isr pc =>
      obtain ⟨-, rfl⟩ := step_timer0Isr h
      cases pc <;> exact ⟨rfl, rfl⟩

/-- Over a run either peripheral does what its events say. -/
theorem peripherals_run {ok : System → Event → Prop} {s₀ : System} {es : List Event}
    (h : Interleaving.Runs step ok s₀ es s) :
    s.pushbuttons = (es.flatMap Event.port).foldl Pushbuttons.act s₀.pushbuttons ∧
      s.timer = (es.flatMap Event.timer).foldl Timer.act s₀.timer := by
  induction h with
  | nil => exact ⟨rfl, rfl⟩
  | snoc _ _ hstep ih =>
      obtain ⟨hpushbuttons, htimer⟩ := peripherals_step hstep
      simp only [List.flatMap_append, List.flatMap_singleton, List.foldl_append]
      rw [← ih.1, ← ih.2]
      exact ⟨hpushbuttons, htimer⟩

/-! ## No cross-talk

The events of the timer form one half of the system, those of the keys and the
switches the other.  An event of one half leaves the other half alone and does the
same whatever the other half holds, so a run without the events of one half is
still a run.
-/

def Event.ofTimer0 : Event → Bool
  | .timeOut | .enterTimer0Isr | .timer0Isr _ => true
  | .keyEdge _ | .setSwitches _ | .enterPushbuttonIsr | .pushbuttonIsr _ => false

/-- The system without what belongs to the timer. -/
def System.keySide (s : System) : System :=
  { s with
    timer := ⟨false, false⟩
    leds := 0#8
    cpu := match s.cpu with
      | .timer0Isr _ => .mainLoop
      | cpu => cpu }

def System.timerSide (s : System) : System :=
  { s with
    pushbuttons := ⟨0#4, 0#4⟩
    hex0 := 0#7
    switches := 0#8
    arrayIdx := 0#16
    cpu := match s.cpu with
      | .pushbuttonIsr _ => .mainLoop
      | cpu => cpu }

theorem keySide_cpu_pushbuttonIsr {pc : PushbuttonPc} :
    s.keySide.cpu = .pushbuttonIsr pc ↔ s.cpu = .pushbuttonIsr pc := by
  unfold System.keySide
  cases s.cpu <;> simp

theorem timerSide_cpu_timer0Isr {pc : Timer0Pc} :
    s.timerSide.cpu = .timer0Isr pc ↔ s.cpu = .timer0Isr pc := by
  unfold System.timerSide
  cases s.cpu <;> simp

theorem updateIdx_keySide (s : System) (switchVal : BitVec 8) :
    updateIdx s.keySide switchVal = (updateIdx s switchVal).keySide := by
  have hidx : s.keySide.arrayIdx = s.arrayIdx := rfl
  unfold updateIdx
  rw [hidx]
  split_ifs <;> rfl

theorem pushbuttonIsr_keySide {pc : PushbuttonPc} (h : pushbuttonIsr s pc = some s') :
    pushbuttonIsr s.keySide pc = some s'.keySide := by
  cases pc with
  | loadSwitches | loadEdgeCapture | storeEdgeCapture =>
      cases h
      rfl
  | updateIdx switchVal =>
      cases h
      exact congrArg some (updateIdx_keySide s switchVal)
  | storeHex =>
      obtain ⟨segments, hsegments, rfl⟩ := Option.map_eq_some_iff.mp h
      exact Option.map_eq_some_iff.mpr ⟨segments, hsegments, rfl⟩

theorem pushbuttonIsr_timerSide {pc : PushbuttonPc} (hcpu : s.cpu = .pushbuttonIsr pc)
    (h : pushbuttonIsr s pc = some s') : s'.timerSide = s.timerSide := by
  cases pc with
  | loadSwitches | loadEdgeCapture | storeEdgeCapture =>
      cases h
      unfold System.timerSide
      rw [hcpu]
  | updateIdx switchVal =>
      cases h
      unfold updateIdx System.timerSide
      rw [hcpu]
      split_ifs <;> rfl
  | storeHex =>
      obtain ⟨segments, -, rfl⟩ := Option.map_eq_some_iff.mp h
      unfold System.timerSide
      rw [hcpu]

theorem keySide_of_ofTimer0 (h : step s e = some s') (he : e.ofTimer0 = true) :
    s'.keySide = s.keySide := by
  cases e with
  | keyEdge | setSwitches | enterPushbuttonIsr | pushbuttonIsr => cases he
  | timeOut =>
      cases h
      rfl
  | enterTimer0Isr =>
      obtain ⟨hcpu, -, rfl⟩ := step_enterTimer0Isr h
      unfold System.keySide
      rw [hcpu]
  | timer0Isr pc =>
      obtain ⟨hcpu, rfl⟩ := step_timer0Isr h
      unfold System.keySide
      rw [hcpu]
      cases pc <;> rfl

theorem timerSide_of_not_ofTimer0 (h : step s e = some s') (he : e.ofTimer0 = false) :
    s'.timerSide = s.timerSide := by
  cases e with
  | timeOut | enterTimer0Isr | timer0Isr => cases he
  | keyEdge k =>
      cases h
      rfl
  | setSwitches v =>
      cases h
      rfl
  | enterPushbuttonIsr =>
      obtain ⟨hcpu, -, rfl⟩ := step_enterPushbuttonIsr h
      unfold System.timerSide
      rw [hcpu]
  | pushbuttonIsr pc =>
      obtain ⟨hcpu, hs⟩ := step_pushbuttonIsr h
      exact pushbuttonIsr_timerSide hcpu hs

/-- What the other events do to the other half does not depend on the timer. -/
theorem step_keySide (h : step s e = some s') (he : e.ofTimer0 = false) :
    step s.keySide e = some s'.keySide := by
  cases e with
  | timeOut | enterTimer0Isr | timer0Isr => cases he
  | keyEdge k =>
      cases h
      rfl
  | setSwitches v =>
      cases h
      rfl
  | enterPushbuttonIsr =>
      obtain ⟨hcpu, hirq, rfl⟩ := step_enterPushbuttonIsr h
      have hidle : s.keySide.cpu = .mainLoop := by
        unfold System.keySide
        rw [hcpu]
      exact if_pos ⟨hidle, hirq⟩
  | pushbuttonIsr pc =>
      obtain ⟨hcpu, hs⟩ := step_pushbuttonIsr h
      rw [step, if_pos (keySide_cpu_pushbuttonIsr.mpr hcpu)]
      exact pushbuttonIsr_keySide hs

/-- What the timer's events do to the timer's half does not depend on the keys. -/
theorem step_timerSide (h : step s e = some s') (he : e.ofTimer0 = true) :
    step s.timerSide e = some s'.timerSide := by
  cases e with
  | keyEdge | setSwitches | enterPushbuttonIsr | pushbuttonIsr => cases he
  | timeOut =>
      cases h
      rfl
  | enterTimer0Isr =>
      obtain ⟨hcpu, hirq, rfl⟩ := step_enterTimer0Isr h
      have hidle : s.timerSide.cpu = .mainLoop := by
        unfold System.timerSide
        rw [hcpu]
      exact if_pos ⟨hidle, hirq⟩
  | timer0Isr pc =>
      obtain ⟨hcpu, rfl⟩ := step_timer0Isr h
      rw [step, if_pos (timerSide_cpu_timer0Isr.mpr hcpu)]
      cases pc <;> rfl

end Esd1.Lab3
