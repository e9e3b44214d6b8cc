import Esd1.Lab3.Proofs.Part3

/-!
# Time-outs and presses

A time-out is counted on the LEDs once, wherever it falls: until it is there, it is
owed, either by the time-out flag or by a `timer0_isr` past its acknowledgement.
The index of the display is the digit that the presses make, and the display shows
it except between the two stores of `pushbutton_isr`.
-/

namespace Esd1.Lab3

open Interleaving

variable {s₀ s s' : System} {es : List Event} {e : Event}

/-! ## The LEDs -/

def timeOuts (es : List Event) : Nat := es.count .timeOut

def TimeOutsSpaced (s : System) (e : Event) : Prop :=
  e = .timeOut → s.timer.timeoutOccurred = false

/-- A time-out is acknowledged but not on the LEDs. -/
def Cpu.acknowledged : Cpu → Nat
  | .timer0Isr .loadLeds => 1
  | .timer0Isr (.storeLeds _) => 1
  | _ => 0

instance (s : System) (e : Event) : Decidable (TimeOutsSpaced s e) :=
  inferInstanceAs (Decidable (_ → _))

/-- The time-outs that the LEDs do not count yet. -/
def owed (s : System) : Nat := s.timer.timeoutOccurred.toNat + s.cpu.acknowledged

theorem owed_timerSide (s : System) : owed s.timerSide = owed s := by
  unfold owed System.timerSide
  cases s.cpu <;> rfl

theorem timeOuts_append : timeOuts (es ++ [e]) = timeOuts es + if e = .timeOut then 1 else 0 := by
  unfold timeOuts
  rw [List.count_append, List.count_singleton]
  simp only [beq_iff_eq]

structure TickInv (s₀ : System) (es : List Event) (s : System) : Prop where
  pending : s.cpu = .timer0Isr .storeStatus → s.timer.timeoutOccurred = true
  current : ∀ v, s.cpu = .timer0Isr (.storeLeds v) → v = s.leds
  ticks : (s.leds.toNat + owed s) % 256 = (s₀.leds.toNat + timeOuts es) % 256

theorem tickInv_start (h₀ : Start s₀) : TickInv s₀ [] s₀ where
  pending := by
    rw [h₀.cpu]
    intro h
    cases h
  current := by
    rw [h₀.cpu]
    intro v h
    cases h
  ticks := by
    have howed : owed s₀ = 0 := by
      unfold owed
      rw [h₀.cpu, h₀.timeoutOccurred]
      rfl
    rw [howed]
    rfl

theorem tickInv_timer0Isr {pc : Timer0Pc} (hinv : TickInv s₀ es s)
    (hcpu : s.cpu = .timer0Isr pc) : TickInv s₀ es (timer0Isr s pc) := by
  have hticks := hinv.ticks
  unfold owed at hticks
  rw [hcpu] at hticks
  cases pc with
  | storeStatus =>
      rw [hinv.pending hcpu] at hticks
      exact ⟨fun h => (by cases h), fun v h => (by cases h), hticks⟩
  | loadLeds =>
      refine ⟨fun h => (by cases h), fun v h => ?_, hticks⟩
      cases h
      rfl
  | storeLeds currentVal =>
      have hleds : (timer0Isr s (.storeLeds currentVal)).leds.toNat =
          (s.leds.toNat + 1) % 256 := by
        rw [← hinv.current currentVal hcpu]
        exact BitVec.toNat_add currentVal 1#8
      have howed : owed (timer0Isr s (.storeLeds currentVal)) =
          s.timer.timeoutOccurred.toNat := rfl
      refine ⟨fun h => (by cases h), fun v h => (by cases h), ?_⟩
      calc
        ((timer0Isr s (.storeLeds currentVal)).leds.toNat +
            owed (timer0Isr s (.storeLeds currentVal))) % 256 =
            ((s.leds.toNat + 1) % 256 + s.timer.timeoutOccurred.toNat) % 256 := by
          rw [hleds, howed]
        _ = (s.leds.toNat + (s.timer.timeoutOccurred.toNat + 1)) % 256 := by
          rw [Nat.mod_add_mod, Nat.add_assoc, Nat.add_comm 1]
        _ = (s₀.leds.toNat + timeOuts es) % 256 := hticks

theorem tickInv_of_timerSide (hinv : TickInv s₀ es s) (h : s'.timerSide = s.timerSide) :
    TickInv s₀ es s' := by
  have hleds : s'.leds = s.leds := show s'.timerSide.leds = s.timerSide.leds by rw [h]
  have htimer : s'.timer = s.timer := show s'.timerSide.timer = s.timerSide.timer by rw [h]
  have hcpu : ∀ pc, s'.cpu = .timer0Isr pc → s.cpu = .timer0Isr pc := by
    intro pc
    rw [← timerSide_cpu_timer0Isr, h, timerSide_cpu_timer0Isr]
    exact id
  have howed : owed s' = owed s := by rw [← owed_timerSide, h, owed_timerSide]
  constructor
  · intro hs
    rw [htimer]
    exact hinv.pending (hcpu _ hs)
  · intro v hs
    rw [hleds]
    exact hinv.current v (hcpu _ hs)
  · rw [hleds, howed]
    exact hinv.ticks

theorem TickInv.append (hinv : TickInv s₀ es s) (he : e ≠ .timeOut) :
    TickInv s₀ (es ++ [e]) s := by
  refine ⟨hinv.pending, hinv.current, ?_⟩
  rw [timeOuts_append, if_neg he]
  exact hinv.ticks

theorem tickInv_step (hinv : TickInv s₀ es s) (hok : TimeOutsSpaced s e)
    (h : step s e = some s') : TickInv s₀ (es ++ [e]) s' := by
  cases hof : e.ofTimer0 with
  | false =>
      apply (tickInv_of_timerSide hinv (timerSide_of_not_ofTimer0 h hof)).append
      rintro rfl
      cases hof
  | true =>
      cases e with
      | keyEdge | setSwitches | enterPushbuttonIsr | pushbuttonIsr => cases hof
      | timeOut =>
          have hticks := hinv.ticks
          unfold owed at hticks
          rw [hok rfl] at hticks
          cases h
          refine ⟨fun _ => rfl, hinv.current, ?_⟩
          rw [timeOuts_append, if_pos rfl]
          change (s.leds.toNat + (1 + s.cpu.acknowledged)) % 256 = _
          rw [Bool.toNat_false] at hticks
          omega
      | enterTimer0Isr =>
          obtain ⟨hcpu, hirq, rfl⟩ := step_enterTimer0Isr h
          have hto : s.timer.timeoutOccurred = true := (Bool.and_eq_true_iff.mp hirq).1
          have hticks := hinv.ticks
          unfold owed at hticks
          rw [hcpu] at hticks
          apply TickInv.append
          · exact ⟨fun _ => hto, fun v hs => (by cases hs), hticks⟩
          · decide
      | timer0Isr pc =>
          obtain ⟨hcpu, rfl⟩ := step_timer0Isr h
          exact (tickInv_timer0Isr hinv hcpu).append (fun h => by cases h)

theorem tickInv_run (h₀ : Start s₀) (h : Runs step TimeOutsSpaced s₀ es s) :
    TickInv s₀ es s :=
  h.invariant (TickInv s₀) (tickInv_start h₀) fun _ _ _ _ => tickInv_step

/-! ## The display -/

def pressed (es : List Event) : List (BitVec 8) :=
  es.filterMap fun
    | .pushbuttonIsr (.updateIdx switchVal) => some switchVal
    | _ => none

theorem pressed_append_updateIdx (es : List Event) (switchVal : BitVec 8) :
    pressed (es ++ [.pushbuttonIsr (.updateIdx switchVal)]) = pressed es ++ [switchVal] := by
  unfold pressed
  rw [List.filterMap_append]
  rfl

theorem pressed_append (he : ∀ switchVal, e ≠ .pushbuttonIsr (.updateIdx switchVal)) :
    pressed (es ++ [e]) = pressed es := by
  unfold pressed
  rw [List.filterMap_append, List.filterMap_cons_none, List.filterMap_nil, List.append_nil]
  split
  · next switchVal => exact absurd rfl (he switchVal)
  · rfl

theorem setWidth_hexValues {segments : BitVec 8} (h : segments ∈ hexValues) :
    (segments.setWidth 7).setWidth 8 = segments := by
  revert segments
  decide

structure DisplayInv (es : List Event) (s : System) : Prop where
  digit : s.arrayIdx.toNat = (Digit.presses (pressed es)).val
  hex0 : s.cpu ≠ .pushbuttonIsr .storeHex →
    hexValues[s.arrayIdx.toNat]? = some (s.hex0.setWidth 8)

theorem displayInv_start (h₀ : Start s₀) : DisplayInv [] s₀ where
  digit := by
    rw [h₀.arrayIdx]
    rfl
  hex0 := by
    intro _
    rw [h₀.arrayIdx]
    exact h₀.hex0

theorem DisplayInv.append (hinv : DisplayInv es s)
    (he : ∀ switchVal, e ≠ .pushbuttonIsr (.updateIdx switchVal)) :
    DisplayInv (es ++ [e]) s := by
  refine ⟨?_, hinv.hex0⟩
  rw [pressed_append he]
  exact hinv.digit

theorem pushbuttonIsr_isSome (hinv : DisplayInv es s) (pc : PushbuttonPc) :
    (pushbuttonIsr s pc).isSome = true := by
  cases pc with
  | loadSwitches | updateIdx | loadEdgeCapture | storeEdgeCapture => rfl
  | storeHex =>
      have hlt : s.arrayIdx.toNat < hexValues.length := by
        rw [hinv.digit]
        exact Fin.isLt _
      rw [pushbuttonIsr, Option.isSome_map, List.getElem?_eq_getElem hlt]
      rfl

theorem displayInv_pushbuttonIsr {pc : PushbuttonPc} (hinv : DisplayInv es s)
    (hcpu : s.cpu = .pushbuttonIsr pc) (h : pushbuttonIsr s pc = some s') :
    DisplayInv (es ++ [.pushbuttonIsr pc]) s' := by
  cases pc with
  | loadSwitches | loadEdgeCapture | storeEdgeCapture =>
      cases h
      have hhex := hinv.hex0 (by rw [hcpu]; intro hs; cases hs)
      exact DisplayInv.append ⟨hinv.digit, fun _ => hhex⟩ (fun _ he => by cases he)
  | updateIdx switchVal =>
      cases h
      obtain ⟨hdigit, hnext⟩ := updateIdx_press s switchVal hinv.digit
      have hhex := hinv.hex0 (by rw [hcpu]; intro hs; cases hs)
      constructor
      · rw [hdigit, pressed_append_updateIdx, Digit.presses_append]
      · intro hne
        rw [updateIdx_hex0, ← hhex, hdigit, hinv.digit]
        rw [hnext] at hne
        split_ifs at hne with hsame
        · rw [hsame]
        · exact absurd rfl hne
  | storeHex =>
      obtain ⟨segments, hsegments, rfl⟩ := Option.map_eq_some_iff.mp h
      have hhex : (segments.setWidth 7).setWidth 8 = segments :=
        setWidth_hexValues (List.mem_of_getElem? hsegments)
      refine DisplayInv.append ⟨hinv.digit, fun _ => ?_⟩ (fun _ he => by cases he)
      change hexValues[s.arrayIdx.toNat]? = some ((segments.setWidth 7).setWidth 8)
      rw [hhex]
      exact hsegments

theorem displayInv_step (hinv : DisplayInv es s) (h : step s e = some s') :
    DisplayInv (es ++ [e]) s' := by
  cases hof : e.ofTimer0 with
  | true =>
      have hside := keySide_of_ofTimer0 h hof
      have hidx : s'.arrayIdx = s.arrayIdx :=
        show s'.keySide.arrayIdx = s.keySide.arrayIdx by rw [hside]
      have hhex : s'.hex0 = s.hex0 := show s'.keySide.hex0 = s.keySide.hex0 by rw [hside]
      have hcpu : s.cpu = .pushbuttonIsr .storeHex → s'.cpu = .pushbuttonIsr .storeHex := by
        rw [← keySide_cpu_pushbuttonIsr, ← hside, keySide_cpu_pushbuttonIsr]
        exact id
      refine DisplayInv.append ⟨?_, fun hne => ?_⟩ ?_
      · rw [hidx]
        exact hinv.digit
      · rw [hidx, hhex]
        exact hinv.hex0 (fun hs => hne (hcpu hs))
      · rintro switchVal rfl
        cases hof
  | false =>
      cases e with
      | timeOut | enterTimer0Isr | timer0Isr => cases hof
      | keyEdge k =>
          cases h
          exact DisplayInv.append ⟨hinv.digit, hinv.hex0⟩ (fun _ he => by cases he)
      | setSwitches v =>
          cases h
          exact DisplayInv.append ⟨hinv.digit, hinv.hex0⟩ (fun _ he => by cases he)
      | enterPushbuttonIsr =>
          obtain ⟨hcpu, -, rfl⟩ := step_enterPushbuttonIsr h
          have hhex := hinv.hex0 (by rw [hcpu]; intro hs; cases hs)
          exact DisplayInv.append ⟨hinv.digit, fun _ => hhex⟩ (fun _ he => by cases he)
      | pushbuttonIsr pc =>
          obtain ⟨hcpu, hs⟩ := step_pushbuttonIsr h
          exact displayInv_pushbuttonIsr hinv hcpu hs

theorem displayInv_run {ok : System → Event → Prop} (h₀ : Start s₀)
    (h : Runs step ok s₀ es s) : DisplayInv es s :=
  h.invariant DisplayInv (displayInv_start h₀) fun _ _ _ _ hinv _ => displayInv_step hinv

/-! ## Both routines together -/

structure Separate (s₀ : System) (es : List Event) (s : System) : Prop where
  leds : s.cpu = .mainLoop → s.timer.timeoutOccurred = false →
    s.leds.toNat = (s₀.leds.toNat + timeOuts es) % 256
  arrayIdx : s.arrayIdx.toNat ≤ 9
  inBounds : ∀ pc, s.cpu = .pushbuttonIsr pc → (step s (.pushbuttonIsr pc)).isSome = true
  hex0 : s.cpu ≠ .pushbuttonIsr .storeHex →
    hexValues[s.arrayIdx.toNat]? = some (s.hex0.setWidth 8)
  presses : s.arrayIdx.toNat = (Digit.presses (pressed es)).val
  keySide : Runs step Always s₀.keySide (es.filter (!·.ofTimer0)) s.keySide
  timerSide : Runs step Always s₀.timerSide (es.filter (·.ofTimer0)) s.timerSide

/-- No tick is lost and the two routines do not disturb each other: the LEDs count
the time-outs, the display follows the presses, and either half of the system ran
as it would have run without the events of the other. -/
theorem isrs_separate (h₀ : Start s₀) (h : Runs step TimeOutsSpaced s₀ es s) :
    Separate s₀ es s := by
  have htick := tickInv_run h₀ h
  have hdisplay := displayInv_run h₀ h
  constructor
  · intro hcpu hclear
    have hticks := htick.ticks
    unfold owed at hticks
    rw [hcpu, hclear] at hticks
    rw [← hticks]
    exact (Nat.mod_eq_of_lt s.leds.isLt).symm
  · rw [hdisplay.digit]
    exact Nat.le_of_lt_succ (Fin.isLt _)
  · intro pc hcpu
    rw [step, if_pos hcpu]
    exact pushbuttonIsr_isSome hdisplay pc
  · exact hdisplay.hex0
  · exact hdisplay.digit
  · exact h.filter System.keySide _
      (fun _ _ _ hs he => step_keySide hs (by simpa using he))
      (fun _ _ _ hs he => keySide_of_ofTimer0 hs (by simpa using he))
  · exact h.filter System.timerSide _ (fun _ _ _ => step_timerSide)
      (fun _ _ _ => timerSide_of_not_ofTimer0)

def ticksInIsrs : List Event :=
  [.keyEdge key1, .enterPushbuttonIsr, .pushbuttonIsr .loadSwitches, .timeOut,
    .pushbuttonIsr (.updateIdx 1#8), .pushbuttonIsr .storeHex, .pushbuttonIsr .loadEdgeCapture,
    .pushbuttonIsr (.storeEdgeCapture 2#32), .enterTimer0Isr, .timer0Isr .storeStatus, .timeOut,
    .timer0Isr .loadLeds, .timer0Isr (.storeLeds 0#8), .enterTimer0Isr,
    .timer0Isr .storeStatus, .timer0Isr .loadLeds, .timer0Isr (.storeLeds 1#8)]

theorem isrs_separate_ticksInIsrs :
    Separate (main (altSysInit (reset 1#8))) ticksInIsrs
      { pushbuttons := ⟨0#4, 2#4⟩
        timer := ⟨false, true⟩
        leds := 2#8
        hex0 := 0x79#7
        switches := 1#8
        arrayIdx := 1#16
        cpu := .mainLoop } :=
  isrs_separate (start_main 1#8) (Runs.of_exec (by decide))

end Esd1.Lab3
