import Esd1.Lab3.Proofs.AltIrq

/-!
# What the dispatch promises

The scan always ends at a routine for a line that is high.  A routine waits for at most
one call of a lower priority.  Start-up leaves the three routines in the table, and from
then on the routines run as in `Part3.lean` and in `Hal/JtagUart.lean`.
-/

namespace Esd1.Lab3.AltIrq

open Interleaving

variable {s s' t : State} {es es₀ : List Event} {e : Event} {switches : BitVec 8}

/-! ## Calls -/

def Handler.irq : Handler → Nat
  | .altAvalonTimerScIrq => 0
  | .timer0Isr => 0
  | .pushbuttonIsr => 1
  | .alteraAvalonJtagUartIrq => 2

theorem Serves.irq_eq {i : Nat} {entry : IrqHandler} {handler : Handler} (h : Serves i entry)
    (hhandler : entry.handler = some handler) : i = handler.irq := by
  rcases h with ⟨rfl, rfl | rfl⟩ | ⟨rfl, rfl⟩ | ⟨rfl, rfl⟩
  all_goals
    cases hhandler
    rfl

theorem Serves.handler_isSome {i : Nat} {entry : IrqHandler} (h : Serves i entry) :
    ∃ handler, entry.handler = some handler := by
  rcases h with ⟨-, rfl | rfl⟩ | ⟨-, rfl⟩ | ⟨-, rfl⟩
  all_goals exact ⟨_, rfl⟩

theorem enter_isSome {i : Nat} {entry : IrqHandler} {handler : Handler} (h : Serves i entry)
    (hhandler : entry.handler = some handler) : (enter s handler entry.context).isSome = true := by
  rcases h with ⟨-, rfl | rfl⟩ | ⟨-, rfl⟩ | ⟨-, rfl⟩
  all_goals
    cases hhandler
    rfl

/-- A call is the end of a scan at the bit of its routine, whose line is high. -/
theorem call_spec {handler : Handler} (h : Inv s) (hstep : step s (.call handler) = some s') :
    ∃ active mask, s.exception = .scan active mask handler.irq ∧ Quiet s ∧
      Scanning s active mask handler.irq ∧ line s handler.irq = true ∧
      (s.altIrq handler.irq).handler = some handler ∧
      enter s handler (s.altIrq handler.irq).context = some s' := by
  have hdisp := h.dispatching
  obtain ⟨k, hboot⟩ := h.boot
  cases stepped hstep with
  | @call _ active mask i _ hexc hset hhandler henter =>
      rw [hexc] at hdisp
      obtain ⟨hline, hserves⟩ := hdisp.2.found hboot (by simp [hexc]) hset
      obtain rfl := hserves.irq_eq hhandler
      exact ⟨active, mask, hexc, hdisp.1, hdisp.2, hline, hhandler, henter⟩
  | devices he | host he | routine he | driver he => cases he

theorem enter_exception {handler : Handler} {context : Context}
    (h : enter s handler context = some s') : s'.exception = .isr handler :=
  congrArg State.exception (enter_frame h)

/-! ## The scan ends -/

def Exception.dispatching : Exception → Bool
  | .entry | .pending | .scan _ _ _ | .again => true
  | _ => false

theorem dispatch_isSome (h : Inv s) (hexc : s.exception.dispatching = true)
    (hclear : ∀ active mask i, s.exception = .scan active mask i → active &&& mask = 0#32) :
    (step s .dispatch).isSome = true := by
  have hdisp := h.dispatching
  obtain ⟨k, hboot⟩ := h.boot
  cases hcase : s.exception with
  | none | isr | tick | callback =>
      rw [hcase] at hexc
      cases hexc
  | entry =>
      rw [hcase] at hdisp
      have hpc : s.main.registerPc = .disableAll := by
        by_contra hpc
        rw [(hboot.inside hpc).1] at hcase
        cases hcase
      have hestatus : s.estatus = true :=
        ((hboot.between hpc).2.2 (by rw [hcase]; decide)).2.1
      simp only [step, dispatch, hcase]
      rw [if_pos ⟨hestatus, hdisp.2⟩]
      rfl
  | pending =>
      simp only [step, dispatch, hcase]
      rfl
  | again =>
      simp only [step, dispatch, hcase]
      split
      all_goals rfl
  | scan active mask i =>
      simp only [step, dispatch, hcase]
      rw [if_pos (hclear active mask i hcase)]
      rfl

theorem call_isSome {active mask : BitVec 32} {i : Nat} (h : Inv s)
    (hexc : s.exception = .scan active mask i) (hset : active &&& mask ≠ 0#32) :
    ∃ handler, (step s (.call handler)).isSome = true ∧ line s handler.irq = true ∧
      Serves handler.irq (s.altIrq handler.irq) := by
  have hdisp := h.dispatching
  rw [hexc] at hdisp
  obtain ⟨k, hboot⟩ := h.boot
  obtain ⟨hline, hserves⟩ := hdisp.2.found hboot (by simp [hexc]) hset
  obtain ⟨handler, hhandler⟩ := hserves.handler_isSome
  obtain rfl := hserves.irq_eq hhandler
  refine ⟨handler, ?_, hline, hserves⟩
  simp only [step, call, hexc]
  rw [if_pos ⟨hset, hdisp.2.lt, hhandler⟩]
  exact enter_isSome hserves hhandler

theorem Scanning.mask_ne_zero {active mask : BitVec 32} {i : Nat} (h : Scanning s active mask i) :
    mask ≠ 0#32 := by
  rw [h.mask_eq]
  exact Words.twoPow_ne_zero h.lt

/-- The entry code and the scan are never stuck: no exception is taken for an unknown one,
the mask never runs out, and where the scan stops there is a routine for that line, with
its context, and the line is high. -/
theorem scan_finds (h : Runs step Always (reset switches) es s)
    (hexc : s.exception.dispatching = true) :
    (∀ active mask i, s.exception = .scan active mask i → i < nirq ∧ mask ≠ 0#32) ∧
      ((step s .dispatch).isSome = true ∨
        ∃ handler, (step s (.call handler)).isSome = true ∧ line s handler.irq = true ∧
          Serves handler.irq (s.altIrq handler.irq)) := by
  have hinv := inv_run h
  refine ⟨fun active mask i hcase => ?_, ?_⟩
  · have hdisp := hinv.dispatching
    rw [hcase] at hdisp
    exact ⟨hdisp.2.lt, hdisp.2.mask_ne_zero⟩
  · by_cases hstop : ∃ active mask i,
        s.exception = .scan active mask i ∧ active &&& mask ≠ 0#32
    · obtain ⟨active, mask, i, hcase, hset⟩ := hstop
      exact Or.inr (call_isSome hinv hcase hset)
    · left
      apply dispatch_isSome hinv hexc
      intro active mask i hcase
      by_contra hset
      exact hstop ⟨active, mask, i, hcase, hset⟩

theorem scan_finds_press : ∃ s active mask,
    Runs step Always (reset 1#8) (startUp ++ press.take 5) s ∧
      s.exception = .scan active mask 1 ∧ mask ≠ 0#32 ∧
      ((step s .dispatch).isSome = true ∨
        ∃ handler, (step s (.call handler)).isSome = true ∧ line s handler.irq = true ∧
          Serves handler.irq (s.altIrq handler.irq)) := by
  obtain ⟨s, hruns, hexc⟩ := Runs.of_exec_map (f := State.exception)
    (show (exec step Always (reset 1#8) (startUp ++ press.take 5)).map _ =
      some (.scan 2#32 2#32 1) by decide +kernel)
  obtain ⟨hmask, hfinds⟩ := scan_finds hruns (by rw [hexc]; rfl)
  exact ⟨s, 2#32, 2#32, hruns, hexc, (hmask 2#32 2#32 1 hexc).2, hfinds⟩

/-- How many steps of the dispatch there can be before the next routine or the return. -/
def Exception.remaining : Exception → Nat
  | .none => 0
  | .scan _ _ i => nirq - i
  | .pending => nirq + 1
  | .again => nirq + 1
  | _ => nirq + 2

theorem remaining_le (x : Exception) : x.remaining ≤ nirq + 2 := by
  cases x with
  | scan active mask i => exact Nat.le_trans (Nat.sub_le _ _) (Nat.le_add_right _ _)
  | isr handler => exact Nat.le_refl _
  | _ => decide

theorem Moves.remaining {x y : Exception} (h : Moves s x y) (hdisp : Dispatching s x) :
    y.remaining + 1 ≤ x.remaining := by
  cases h with
  | entry => exact Nat.le_refl (nirq + 2)
  | pending | again =>
      change nirq - 0 + 1 ≤ nirq + 1
      decide
  | @scan active mask i _ =>
      have hlt := hdisp.2.lt
      change nirq - (i + 1) + 1 ≤ nirq - i
      omega

theorem remaining_returnIf (s : State) (returned : Bool)
    (h : nirq + 1 ≤ s.exception.remaining) :
    (s.returnIf returned).exception.remaining ≤ s.exception.remaining := by
  cases returned with
  | true => exact h
  | false => exact Nat.le_refl _

/-- Neither a new exception nor a call. -/
def Event.between : Event → Bool
  | .interrupt | .call _ => false
  | _ => true

/-- A routine that takes a step is inside. -/
theorem remaining_isr {x : Exception} (hexc : s.exception = x)
    (hx : x = .callback ∨ ∃ handler, x = .isr handler) : nirq + 1 ≤ s.exception.remaining := by
  rw [hexc]
  rcases hx with rfl | ⟨handler, rfl⟩
  · exact Nat.le_succ _
  · exact Nat.le_succ _

theorem Event.driver_isr {x : Exception} {e' : Hal.Event} (he : e.driver = some (x, e')) :
    x = .callback ∨ ∃ handler, x = .isr handler := by
  cases e with
  | jtagUartIrq =>
      cases he
      exact Or.inr ⟨_, rfl⟩
  | timeout =>
      cases he
      exact Or.inl rfl
  | _ => cases he

theorem remaining_step (h : Inv s) (hbetween : e.between = true) (hstep : step s e = some s') :
    s'.exception.remaining + (if e = .dispatch then 1 else 0) ≤ s.exception.remaining := by
  cases stepped hstep with
  | interrupt | call => cases hbetween
  | dispatch hexc hmoves =>
      have hdisp := h.dispatching
      rw [hexc] at hdisp ⊢
      exact hmoves.remaining hdisp
  | eret hexc =>
      rw [hexc]
      exact Nat.le_add_left 1 nirq
  | devices he | host he =>
      rw [if_neg (by rintro rfl; cases he)]
      exact Nat.le_refl _
  | main =>
      rw [(mainStep_frame s).1]
      exact Nat.le_refl _
  | routine he hexc =>
      rw [if_neg (by rintro rfl; cases he)]
      exact remaining_returnIf _ _ (remaining_isr hexc (Or.inr ⟨_, rfl⟩))
  | driver he hexc =>
      rw [if_neg (by rintro rfl; cases he)]
      exact remaining_returnIf _ _ (remaining_isr hexc (Event.driver_isr he))
  | timerScIrq hexc | callback hexc =>
      rw [hexc]
      exact Nat.le_refl _
  | ticked hexc =>
      rw [hexc]
      exact Nat.le_succ _

/-- Between two calls, or before the return, the dispatch takes at most 34 steps, whatever
the devices do in the meantime. -/
theorem dispatch_bounded (h₀ : Runs step Always (reset switches) es₀ s)
    (h : Runs step (fun _ e => e.between = true) s es t) :
    es.count .dispatch ≤ 34 := by
  have hinv : Inv t ∧
      es.count .dispatch + t.exception.remaining ≤ s.exception.remaining := by
    apply h.invariant fun es t =>
      Inv t ∧ es.count .dispatch + t.exception.remaining ≤ s.exception.remaining
    · exact ⟨inv_run h₀, Nat.le_of_eq (Nat.zero_add _)⟩
    · intro es t e t' ⟨ht, hle⟩ hbetween hstep
      refine ⟨inv_step ht hstep, ?_⟩
      have hrem := remaining_step ht hbetween hstep
      rw [List.count_append, List.count_singleton]
      simp only [beq_iff_eq]
      omega
  have hle := remaining_le s.exception
  unfold nirq at hle
  omega

theorem dispatch_bounded_press : ∃ s t,
    Runs step (fun _ e => e.between = true) s ((press.drop 2).take 4) t ∧
      ((press.drop 2).take 4).count .dispatch ≤ 34 := by
  obtain ⟨s, t, hstart, hruns, -⟩ := Runs.of_exec_bind (f := fun _ _ => ())
    (show ((exec step Always (reset 1#8) (startUp ++ press.take 2)).bind fun s =>
      (exec step (fun _ e => e.between = true) s ((press.drop 2).take 4)).map _) = some () by
        decide +kernel)
  exact ⟨s, t, hruns, dispatch_bounded hstart hruns⟩

/-! ## Priorities -/

theorem Moves.snapshot {x : Exception} {active mask : BitVec 32} {i : Nat}
    (h : Moves s x (.scan active mask i)) :
    (∃ mask' i', x = .scan active mask' i') ∨ active = s.ipending := by
  cases h with
  | scan => exact Or.inl ⟨_, _, rfl⟩
  | pending | again => exact Or.inr rfl

/-- A snapshot of the pending interrupts is taken once for each scan. -/
theorem step_scan {active mask : BitVec 32} {i : Nat} (hstep : step s e = some s')
    (hexc : s'.exception = .scan active mask i) :
    (∃ mask' i', s.exception = .scan active mask' i') ∨ active = s.ipending := by
  cases stepped hstep with
  | devices | host => exact Or.inl ⟨_, _, hexc⟩
  | main => exact Or.inl ⟨_, _, (mainStep_frame s).1.symm.trans hexc⟩
  | dispatch hbefore hmoves =>
      obtain rfl : _ = Exception.scan active mask i := hexc
      rw [hbefore]
      exact hmoves.snapshot
  | call _ _ _ henter =>
      rw [enter_exception henter] at hexc
      cases hexc
  | routine | driver =>
      unfold State.returnIf at hexc
      split at hexc
      · cases hexc
      · exact Or.inl ⟨_, _, hexc⟩
  | interrupt | eret | timerScIrq | callback | ticked => cases hexc

/-- A call of a routine with a lower priority than interrupt `i`. -/
def Event.below (i : Nat) : Event → Bool
  | .call handler => decide (i < handler.irq)
  | _ => false

theorem below_iff {i : Nat} : e.below i = true ↔ ∃ handler, e = .call handler ∧ i < handler.irq := by
  cases e with
  | call handler => simp [Event.below]
  | _ => simp [Event.below]

/-- While an interrupt is pending, at most one routine of a lower priority is called: the
one that was found in a snapshot from before. -/
theorem overtaken_once {i : Nat} (h₀ : Runs step Always (reset switches) es₀ s)
    (h : Runs step (fun s _ => s.ipending.getLsbD i = true) s es t) :
    es.countP (Event.below i) ≤ 1 := by
  have hinv : Inv t ∧ (es.countP (Event.below i) = 0 ∨ es.countP (Event.below i) = 1 ∧
      ∀ active mask j, t.exception = .scan active mask j → active.getLsbD i = true) := by
    apply h.invariant fun es t => Inv t ∧ (es.countP (Event.below i) = 0 ∨
      es.countP (Event.below i) = 1 ∧
        ∀ active mask j, t.exception = .scan active mask j → active.getLsbD i = true)
    · exact ⟨inv_run h₀, Or.inl rfl⟩
    · intro es t e t' ⟨ht, hcount⟩ hpending hstep
      refine ⟨inv_step ht hstep, ?_⟩
      rw [List.countP_append, List.countP_singleton]
      by_cases hbelow : e.below i = true
      · rw [if_pos hbelow]
        obtain ⟨handler, rfl, hlt⟩ := below_iff.mp hbelow
        obtain ⟨active, mask, hexc, -, hscan, -, -, henter⟩ := call_spec ht hstep
        have hclear := hscan.clear i hlt
        right
        rcases hcount with hzero | ⟨-, hsnapshot⟩
        · refine ⟨by rw [hzero], fun active' mask' j hexc' => ?_⟩
          rw [enter_exception henter] at hexc'
          cases hexc'
        · rw [hsnapshot active mask _ hexc] at hclear
          cases hclear
      · rw [if_neg hbelow, Nat.add_zero]
        rcases hcount with hzero | ⟨hone, hsnapshot⟩
        · exact Or.inl hzero
        · refine Or.inr ⟨hone, fun active mask j hexc => ?_⟩
          rcases step_scan hstep hexc with ⟨mask', j', hbefore⟩ | rfl
          · exact hsnapshot active mask' j' hbefore
          · exact hpending
  rcases hinv.2 with hzero | ⟨hone, -⟩
  · rw [hzero]
    exact Nat.zero_le 1
  · exact Nat.le_of_eq hone

theorem overtaken_once_press : ∃ s t,
    Runs step (fun s _ => s.ipending.getLsbD 0 = true) s ((press.drop 6).take 7) t ∧
      ((press.drop 6).take 7).countP (Event.below 0) ≤ 1 := by
  obtain ⟨s, t, hstart, hruns, -⟩ := Runs.of_exec_bind (f := fun _ _ => ())
    (show ((exec step Always (reset 1#8) (startUp ++ press.take 6)).bind fun s =>
      (exec step (fun s _ => s.ipending.getLsbD 0 = true) s ((press.drop 6).take 7)).map _) =
        some () by decide +kernel)
  exact ⟨s, t, hruns, overtaken_once hstart hruns⟩

/-! ## Start-up -/

theorem position {op : MainOp} {k : Nat} (hop : altMain[k]? = some op)
    (hnot : op.isRegister = false) : k = altMain.idxOf op := by
  obtain ⟨hk, rfl⟩ := List.getElem?_eq_some_iff.mp hop
  have hall : ∀ k : Fin altMain.length, (altMain.get k).isRegister = false →
      k.val = altMain.idxOf (altMain.get k) := by decide
  exact hall ⟨k, hk⟩ hnot

theorem position_register {r : Registration} {k : Nat}
    (hop : altMain[k]? = some (.register r)) : k = 3 ∨ k = 5 ∨ k = 12 ∨ k = 13 := by
  obtain ⟨hk, hget⟩ := List.getElem?_eq_some_iff.mp hop
  have hall : ∀ k : Fin altMain.length, (altMain.get k).isRegister = true →
      k.val = 3 ∨ k.val = 5 ∨ k.val = 12 ∨ k.val = 13 := by decide
  apply hall ⟨k, hk⟩
  rw [List.get_eq_getElem, hget]
  rfl

/-- What `alt_main` and `main` have told the devices with `n` operations left. -/
structure Configured (n : Nat) (s : State) : Prop where
  controlRegister : s.lab3.timer.controlRegister = decide (n < 12)
  irqMask : s.lab3.pushbuttons.irqMask = if n < 5 then 2#4 else 0#4
  value : n = 5 → s.main.value = 0#32

theorem Configured.congr {n : Nat} (h : Configured n s)
    (hcontrol : s'.lab3.timer.controlRegister = s.lab3.timer.controlRegister)
    (hmask : s'.lab3.pushbuttons.irqMask = s.lab3.pushbuttons.irqMask)
    (hvalue : s'.main.value = s.main.value) : Configured n s' :=
  ⟨hcontrol.trans h.controlRegister, hmask.trans h.irqMask, fun hn => hvalue.trans (h.value hn)⟩

/-- The devices do not see the operation. -/
theorem Configured.next {n : Nat} (h : Configured (n + 1) s) (hn : n ≠ 11 ∧ n ≠ 4 ∧ n ≠ 5)
    (hcontrol : s'.lab3.timer.controlRegister = s.lab3.timer.controlRegister)
    (hmask : s'.lab3.pushbuttons.irqMask = s.lab3.pushbuttons.irqMask) : Configured n s' where
  controlRegister := by
    rw [hcontrol, h.controlRegister, decide_eq_decide]
    omega
  irqMask := by
    rw [hmask, h.irqMask]
    have hiff : n + 1 < 5 ↔ n < 5 := by omega
    simp only [hiff]
  value hfive := absurd hfive hn.2.2

theorem register_todo (s : State) (r : Registration) (pc : RegisterPc) :
    (register s r pc).main.value = s.main.value ∧
      ((register s r pc).main.todo = s.main.todo ∨
        (register s r pc).main.todo = s.main.todo.tail) := by
  cases pc with
  | disableAll =>
      simp only [register]
      split
      · exact ⟨rfl, Or.inl rfl⟩
      · exact ⟨rfl, Or.inr rfl⟩
  | enableAll => exact ⟨rfl, Or.inr rfl⟩
  | _ => exact ⟨rfl, Or.inl rfl⟩

theorem mainOp_todo_length {op : MainOp} {rest : List MainOp} (htodo : s.main.todo = op :: rest)
    (htail : (mainOp s op).main.todo = s.main.todo.tail) :
    (mainOp s op).main.todo.length = rest.length := by
  rw [htail, htodo, List.tail_cons]

theorem Configured.mainStep {k : Nat} (hboot : Boot k s) (h : Configured s.main.todo.length s) :
    Configured (mainStep s).main.todo.length (mainStep s) := by
  cases htodo : s.main.todo with
  | nil =>
      unfold AltIrq.mainStep
      rw [htodo]
      exact h
  | cons op rest =>
      obtain ⟨hop, hlen, hstep⟩ := hboot.op htodo
      rw [hstep]
      rw [htodo, List.length_cons] at h
      cases op with
      | register r =>
          obtain ⟨-, hlab3, -⟩ := register_frame s r s.main.registerPc
          obtain ⟨hvalue, hsame | hnext⟩ := register_todo s r s.main.registerPc
          · change Configured (AltIrq.register s r s.main.registerPc).main.todo.length _
            rw [hsame, htodo, List.length_cons]
            exact h.congr (by rw [← hlab3]; rfl) (by rw [← hlab3]; rfl) hvalue
          · rw [mainOp_todo_length htodo hnext]
            have hk := position_register hop
            change rest.length + 1 = 14 - k at hlen
            exact h.next (by omega) (by rw [← hlab3]; rfl) (by rw [← hlab3]; rfl)
      | storeTimerControl =>
          obtain rfl : k = 2 := position hop rfl
          obtain hrest : rest.length = 11 := Nat.succ.inj hlen
          rw [hrest] at h
          rw [mainOp_todo_length htodo rfl, hrest]
          exact ⟨rfl, h.irqMask, fun heq => by cases heq⟩
      | loadMask =>
          obtain rfl : k = 8 := position hop rfl
          obtain hrest : rest.length = 5 := Nat.succ.inj hlen
          rw [hrest] at h
          rw [mainOp_todo_length htodo rfl, hrest]
          refine ⟨h.controlRegister, h.irqMask, fun _ => ?_⟩
          change s.lab3.pushbuttons.irqMask.setWidth 32 = 0#32
          rw [h.irqMask]
          rfl
      | storeMask =>
          obtain rfl : k = 9 := position hop rfl
          obtain hrest : rest.length = 4 := Nat.succ.inj hlen
          rw [hrest] at h
          rw [mainOp_todo_length htodo rfl, hrest]
          refine ⟨h.controlRegister, ?_, fun heq => by cases heq⟩
          change (s.main.value ||| 0x02#32).setWidth 4 = 2#4
          rw [h.value rfl]
          rfl
      | writeIenable | enableInterrupts | storeJtagControl | alarmStart | storeHex | loadPeriod
      | storePeriod =>
          obtain rfl := position hop rfl
          have hrest := Nat.sub_eq_of_eq_add hlen.symm
          rw [mainOp_todo_length htodo rfl]
          refine h.next ?_ rfl rfl
          rw [← hrest]
          decide

theorem configured_step (hinv : Inv s) (h : Configured s.main.todo.length s)
    (hstep : step s e = some s') : Configured s'.main.todo.length s' := by
  by_cases hmain : e = .main
  · subst hmain
    obtain ⟨-, ⟨⟩⟩ := Option.ite_none_right_eq_some.mp hstep
    obtain ⟨k, hboot⟩ := hinv.boot
    exact h.mainStep hboot
  · have hback := background hstep hmain
    rw [hback.main]
    exact h.congr hback.setup.controlRegister hback.setup.irqMask (by rw [hback.main])

theorem configured_run (h : Runs step Always (reset switches) es s) :
    Inv s ∧ Configured s.main.todo.length s := by
  apply h.invariant fun _ s => Inv s ∧ Configured s.main.todo.length s
  · exact ⟨inv_reset switches, rfl, rfl, fun heq => by cases heq⟩
  · intro es s e s' ⟨hinv, hconf⟩ _ hstep
    exact ⟨inv_step hinv hstep, configured_step hinv hconf hstep⟩

def Event.silent : Event → Bool
  | .keyEdge _ | .timeOut => false
  | _ => true

def Exception.idle : Exception → Bool
  | .isr .alteraAvalonJtagUartIrq => true
  | .isr _ | .tick | .callback => false
  | _ => true

/-- What the routines of `Part3.c` would change, with `n` operations left. -/
structure Untouched (n : Nat) (s : State) : Prop where
  edgeCapture : s.lab3.pushbuttons.edgeCapture = 0#4
  timeoutOccurred : s.lab3.timer.timeoutOccurred = false
  arrayIdx : s.lab3.arrayIdx = 0#16
  hex0 : n < 7 → s.lab3.hex0 = 0x40#7
  idle : s.exception.idle = true

theorem Untouched.congr {n n' : Nat} (h : Untouched n s)
    (hedges : s'.lab3.pushbuttons.edgeCapture = s.lab3.pushbuttons.edgeCapture)
    (htimeout : s'.lab3.timer.timeoutOccurred = s.lab3.timer.timeoutOccurred)
    (hidx : s'.lab3.arrayIdx = s.lab3.arrayIdx) (hhex : n' < 7 → n < 7 ∧ s'.lab3.hex0 = s.lab3.hex0)
    (hidle : s'.exception.idle = true) : Untouched n' s' where
  edgeCapture := hedges.trans h.edgeCapture
  timeoutOccurred := htimeout.trans h.timeoutOccurred
  arrayIdx := hidx.trans h.arrayIdx
  hex0 hn := (hhex hn).2.trans (h.hex0 (hhex hn).1)
  idle := hidle

theorem Untouched.mainStep {k : Nat} (hboot : Boot k s) (h : Untouched s.main.todo.length s) :
    Untouched (mainStep s).main.todo.length (mainStep s) := by
  have hidle : (AltIrq.mainStep s).exception.idle = true := by
    rw [(mainStep_frame s).1]
    exact h.idle
  cases htodo : s.main.todo with
  | nil =>
      unfold AltIrq.mainStep
      rw [htodo]
      exact h
  | cons op rest =>
      obtain ⟨hop, hlen, hstep⟩ := hboot.op htodo
      rw [hstep] at hidle ⊢
      rw [htodo, List.length_cons] at h
      cases op with
      | register r =>
          obtain ⟨-, hlab3, -⟩ := register_frame s r s.main.registerPc
          have hlab3 : (mainOp s (.register r)).lab3 = s.lab3 := hlab3
          obtain ⟨-, hsame | hnext⟩ := register_todo s r s.main.registerPc
          · change Untouched (AltIrq.register s r s.main.registerPc).main.todo.length _
            rw [hsame, htodo, List.length_cons]
            exact h.congr (by rw [hlab3]) (by rw [hlab3]) (by rw [hlab3])
              (fun hn => ⟨hn, by rw [hlab3]⟩) hidle
          · rw [mainOp_todo_length htodo hnext]
            have hk := position_register hop
            change rest.length + 1 = 14 - k at hlen
            exact h.congr (by rw [hlab3]) (by rw [hlab3]) (by rw [hlab3])
              (fun hn => ⟨by omega, by rw [hlab3]⟩) hidle
      | storeHex =>
          rw [mainOp_todo_length htodo rfl]
          exact ⟨h.edgeCapture, h.timeoutOccurred, h.arrayIdx, fun _ => rfl, hidle⟩
      | writeIenable | enableInterrupts | storeTimerControl | storeJtagControl | alarmStart
      | loadMask | storeMask | loadPeriod | storePeriod =>
          obtain rfl := position hop rfl
          have hrest := Nat.sub_eq_of_eq_add hlen.symm
          rw [hlen] at h
          rw [mainOp_todo_length htodo rfl, ← hrest]
          refine h.congr rfl rfl rfl (fun hn => ⟨?_, rfl⟩) hidle
          revert hn
          decide

/-- No line but that of the JTAG UART is high. -/
theorem Untouched.line_eq {n i : Nat} (h : Untouched n s) (hline : line s i = true) : i = 2 := by
  match i with
  | 0 =>
      change s.lab3.timer.irq = true at hline
      rw [Timer.irq, h.timeoutOccurred] at hline
      cases hline
  | 1 =>
      change s.lab3.pushbuttons.irq = true at hline
      rw [Pushbuttons.irq, h.edgeCapture, BitVec.zero_and] at hline
      cases hline
  | 2 => rfl
  | i + 3 => cases hline

theorem Untouched.keep (h : Untouched s.main.todo.length s) (hback : Background s s')
    (hlab3 : s'.lab3 = s.lab3) (hidle : s'.exception.idle = true) :
    Untouched s'.main.todo.length s' := by
  rw [hback.main]
  exact h.congr (by rw [hlab3]) (by rw [hlab3]) (by rw [hlab3])
    (fun hn => ⟨hn, by rw [hlab3]⟩) hidle

theorem Moves.idle {x y : Exception} (h : Moves s x y) : y.idle = true := by
  cases h with
  | _ => rfl

theorem untouched_step (hinv : Inv s) (h : Untouched s.main.todo.length s)
    (hsilent : e.silent = true) (hstep : step s e = some s') :
    Untouched s'.main.todo.length s' := by
  have hback := background hstep
  have busy {x : Exception} (hexc : s.exception = x) (hx : x.idle = false) : False := by
    have hidle := h.idle
    rw [hexc, hx] at hidle
    cases hidle
  cases stepped hstep with
  | main =>
      obtain ⟨k, hboot⟩ := hinv.boot
      exact h.mainStep hboot
  | devices he hl =>
      cases e with
      | setSwitches =>
          cases he
          cases hl
          exact h.congr rfl rfl rfl (fun hn => ⟨hn, rfl⟩) h.idle
      | keyEdge | timeOut => cases hsilent
      | _ => cases he
  | host he => exact h.keep (hback (by rintro rfl; cases he)) rfl h.idle
  | dispatch _ hmoves => exact h.keep (hback (by simp)) rfl hmoves.idle
  | interrupt | eret => exact h.keep (hback (by simp)) rfl rfl
  | @call handler _ _ _ _ =>
      obtain ⟨-, -, -, -, -, hline, -, henter⟩ := call_spec hinv hstep
      cases handler with
      | alteraAvalonJtagUartIrq =>
          obtain ⟨-, hs⟩ := Option.ite_none_right_eq_some.mp henter
          cases hs
          exact h.keep (hback (by simp)) rfl rfl
      | altAvalonTimerScIrq | timer0Isr | pushbuttonIsr => cases h.line_eq hline
  | routine he hexc =>
      cases e with
      | pushbuttonIsr | timer0Isr =>
          cases he
          exact (busy hexc rfl).elim
      | _ => cases he
  | driver he hexc =>
      cases e with
      | jtagUartIrq =>
          cases he
          refine h.keep (hback (by simp)) rfl ?_
          unfold State.returnIf
          split
          · rfl
          · exact h.idle
      | timeout =>
          cases he
          exact (busy hexc rfl).elim
      | _ => cases he
  | timerScIrq hexc | callback hexc | ticked hexc => exact (busy hexc rfl).elim

theorem untouched_run (h : Runs step (fun _ e => e.silent = true) (reset switches) es s) :
    Untouched s.main.todo.length s := by
  have hinv : Inv s ∧ Untouched s.main.todo.length s := by
    apply h.invariant fun _ s => Inv s ∧ Untouched s.main.todo.length s
    · exact ⟨inv_reset switches, rfl, rfl, rfl,
        fun hlt => absurd (show 14 < 7 from hlt) (by decide), rfl⟩
    · intro es s e s' ⟨hinv, hun⟩ hsilent hstep
      exact ⟨inv_step hinv hstep, untouched_step hinv hun hsilent hstep⟩
  exact hinv.2

/-- The table when nothing is left to do. -/
theorem Boot.done {k : Nat} (h : Boot k s) (htodo : s.main.todo = []) :
    2 ≤ k ∧ s.main.registerPc = .disableAll ∧ s.altIrq = registered altMain ∧
      s.ienable = enabled altMain := by
  have hlen : altMain.length ≤ k := List.drop_eq_nil_iff.mp (h.todo.symm.trans htodo)
  have hpc : s.main.registerPc = .disableAll := by
    by_contra hpc
    obtain ⟨-, -, r, hop, -⟩ := h.inside hpc
    rw [List.getElem?_eq_none hlen] at hop
    cases hop
  have hstored := (h.between hpc).1
  refine ⟨Nat.le_trans (by decide) hlen, hpc, ?_, ?_⟩
  · rw [hstored.altIrq, List.take_of_length_le hlen]
  · rw [hstored.ienable, List.take_of_length_le hlen]

/-- When `main` has come to its loop, the three routines are in the table and enabled, the
interrupts are on and the devices raise them, whatever has happened in between.  If that
was no key and no time-out, it is the state that `Part3.lean` starts from. -/
theorem starts_up (h : Runs step Always (reset switches) es s) (htodo : s.main.todo = [])
    (hexc : s.exception = .none) :
    (s.altIrq 0 = ⟨some .timer0Isr, .null⟩ ∧ s.altIrq 1 = ⟨some .pushbuttonIsr, .null⟩ ∧
        s.altIrq 2 = ⟨some .alteraAvalonJtagUartIrq, .jtagUart0⟩ ∧ s.ienable = 7#32) ∧
      s.pie = true ∧ s.lab3.timer.controlRegister = true ∧ s.lab3.pushbuttons.irqMask = 2#4 ∧
      (es.all Event.silent = true → Start s.lab3) := by
  obtain ⟨hinv, hconf⟩ := configured_run h
  obtain ⟨k, hboot⟩ := hinv.boot
  obtain ⟨htwo, hpc, htable, hienable⟩ := hboot.done htodo
  have hdisp := hinv.dispatching
  rw [hexc] at hdisp
  rw [htodo] at hconf
  refine ⟨?_, ?_, hconf.controlRegister, hconf.irqMask, ?_⟩
  · rw [htable, hienable]
    decide
  · rw [(hboot.between hpc).2.1 hexc]
    exact decide_eq_true htwo
  · intro hsilent
    have hun := untouched_run (h.restrict (List.all_eq_true.mp hsilent))
    rw [htodo] at hun
    refine ⟨hdisp.cpu, hun.arrayIdx, ?_, hun.timeoutOccurred, hconf.controlRegister,
      hun.edgeCapture, hconf.irqMask⟩
    rw [hun.hex0 (by decide)]
    rfl

theorem starts_up_demo : ∃ s, Runs step Always (reset 1#8) startUp s ∧ s.pie = true ∧
    s.ienable = 7#32 := by
  obtain ⟨s, hruns, hview⟩ := Runs.of_exec_map (f := fun s => (s.main.todo, s.exception))
    (show (exec step Always (reset 1#8) startUp).map _ = some ([], .none) by decide +kernel)
  obtain ⟨htodo, hexc⟩ := Prod.mk.inj hview
  have hup := starts_up hruns htodo hexc
  exact ⟨s, hruns, hup.2.1, hup.1.2.2.2⟩

/-! ## The loop -/

def Event.lab3 : Event → Option Lab3.Event
  | .keyEdge k => some (.keyEdge k)
  | .timeOut => some .timeOut
  | .setSwitches v => some (.setSwitches v)
  | .call .pushbuttonIsr => some .enterPushbuttonIsr
  | .call .timer0Isr => some .enterTimer0Isr
  | .pushbuttonIsr pc => some (.pushbuttonIsr pc)
  | .timer0Isr pc => some (.timer0Isr pc)
  | _ => none

def Event.jtag : Event → Option Hal.Event
  | .hostTake b => some (.hostTake b)
  | .hostGive b => some (.hostGive b)
  | .hostPause => some .hostPause
  | .call .alteraAvalonJtagUartIrq => some .enterIrq
  | .jtagUartIrq late => some (.irq late)
  | _ => none

/-- The driver of the timer runs, or an alarm that it calls. -/
def Exception.ticking : Exception → Bool
  | .isr .altAvalonTimerScIrq | .tick | .callback => true
  | _ => false

structure Looping (s : State) : Prop where
  inv : Inv s
  todo : s.main.todo = []
  ticking : s.exception.ticking = false

/-- The routines of the loop; no alarm ticks. -/
structure LoopStep (s : State) (e : Event) (s' : State) : Prop where
  todo : s'.main.todo = []
  ticking : s'.exception.ticking = false
  lab3 : e.lab3.elim (some s.lab3) (Lab3.step s.lab3) = some s'.lab3
  jtag : e.jtag.elim (some s.jtag) (Hal.step s.jtag) = some s'.jtag
  hostInactive : s'.jtag.driver.hostInactive = s.jtag.driver.hostInactive

theorem irq_hostInactive {j j' : Hal.System} {late : Option Hal.Byte}
    (h : Hal.step j (.irq late) = some j') :
    j'.driver.hostInactive = j.driver.hostInactive := by
  cases Hal.stepped h with
  | @irq _ pc _ _ _ hirq =>
      cases pc with
      | loadControl | rxLoop | rxDone | txLoop =>
          simp only [Hal.irq] at hirq
          repeat' split at hirq
          all_goals cases hirq
          all_goals rfl

theorem ticking_returnIf {x : Exception} {returned : Bool} (hexc : s.exception = x)
    (hx : x.ticking = false) : (s.returnIf returned).exception.ticking = false := by
  cases returned with
  | true => rfl
  | false =>
      change s.exception.ticking = false
      rw [hexc, hx]

theorem loop_call {handler : Handler} (h : Looping s)
    (hstep : step s (.call handler) = some s') : LoopStep s (.call handler) s' := by
  obtain ⟨active, mask, -, hquiet, -, hline, hhandler, henter⟩ := call_spec h.inv hstep
  obtain ⟨k, hboot⟩ := h.inv.boot
  obtain ⟨-, -, htable, -⟩ := hboot.done h.todo
  cases handler with
  | altAvalonTimerScIrq =>
      rw [htable] at hhandler
      cases hhandler
  | alteraAvalonJtagUartIrq =>
      obtain ⟨-, hs⟩ := Option.ite_none_right_eq_some.mp henter
      cases hs
      refine ⟨h.todo, rfl, rfl, ?_, rfl⟩
      simp only [Event.jtag, Option.elim, Hal.step]
      rw [if_pos ⟨hquiet.jtag, hline⟩]
  | pushbuttonIsr =>
      cases henter
      refine ⟨h.todo, rfl, ?_, rfl, rfl⟩
      simp only [Event.lab3, Option.elim, Lab3.step]
      rw [if_pos ⟨hquiet.cpu, hline⟩]
  | timer0Isr =>
      cases henter
      refine ⟨h.todo, rfl, ?_, rfl, rfl⟩
      simp only [Event.lab3, Option.elim, Lab3.step]
      rw [if_pos ⟨hquiet.cpu, hline⟩]

theorem Event.lab3_of_devices {e' : Lab3.Event} (he : e.devices = some e') :
    e.lab3 = some e' ∧ e.jtag = none := by
  cases e with
  | keyEdge | timeOut | setSwitches => exact ⟨he, rfl⟩
  | _ => cases he

theorem Event.jtag_of_host {e' : Hal.Event} (he : e.host = some e') :
    e.lab3 = none ∧ e.jtag = some e' := by
  cases e with
  | hostTake | hostGive | hostPause => exact ⟨rfl, he⟩
  | _ => cases he

theorem Event.lab3_of_routine {handler : Handler} {e' : Lab3.Event}
    (he : e.routine = some (handler, e')) :
    e.lab3 = some e' ∧ e.jtag = none ∧ (Exception.isr handler).ticking = false := by
  cases e with
  | pushbuttonIsr | timer0Isr =>
      cases he
      exact ⟨rfl, rfl, rfl⟩
  | _ => cases he

theorem Moves.ticking {x y : Exception} (h : Moves s x y) : y.ticking = false := by
  cases h with
  | _ => rfl

theorem loop_step (h : Looping s) (hstep : step s e = some s') : LoopStep s e s' := by
  have busy {x : Exception} (hexc : s.exception = x) (hx : x.ticking = true) : False := by
    have hticking := h.ticking
    rw [hexc, hx] at hticking
    cases hticking
  cases stepped hstep with
  | devices he hl =>
      obtain ⟨hlab3, hjtag⟩ := Event.lab3_of_devices he
      exact ⟨h.todo, h.ticking, by rw [hlab3]; exact hl, by rw [hjtag]; rfl, rfl⟩
  | host he hj =>
      obtain ⟨hlab3, hjtag⟩ := Event.jtag_of_host he
      exact ⟨h.todo, h.ticking, by rw [hlab3]; rfl, by rw [hjtag]; exact hj,
        by rw [(host_frame he hj).2]⟩
  | main =>
      have hsame : mainStep s = s := by
        unfold mainStep
        rw [h.todo]
      rw [hsame]
      exact ⟨h.todo, h.ticking, rfl, rfl, rfl⟩
  | interrupt | eret => exact ⟨h.todo, rfl, rfl, rfl, rfl⟩
  | dispatch _ hmoves => exact ⟨h.todo, hmoves.ticking, rfl, rfl, rfl⟩
  | call => exact loop_call h hstep
  | routine he hexc hl =>
      obtain ⟨hlab3, hjtag, hticking⟩ := Event.lab3_of_routine he
      exact ⟨h.todo, ticking_returnIf hexc hticking, by rw [hlab3]; exact hl,
        by rw [hjtag]; rfl, rfl⟩
  | driver he hexc hj =>
      cases e with
      | jtagUartIrq =>
          cases he
          exact ⟨h.todo, ticking_returnIf hexc rfl, rfl, hj, irq_hostInactive hj⟩
      | timeout =>
          cases he
          exact (busy hexc rfl).elim
      | _ => cases he
  | timerScIrq hexc | callback hexc | ticked hexc => exact (busy hexc rfl).elim

theorem looping_step (h : Looping s) (hstep : step s e = some s') : Looping s' :=
  ⟨inv_step h.inv hstep, (loop_step h hstep).todo, (loop_step h hstep).ticking⟩

/-- From the loop on, every run of the system is one of `Part3.lean` for its devices, and
one of `Hal/JtagUart.lean` for the JTAG UART.  The driver of the timer is never called
again, so no alarm ticks and the inactivity of the host is never counted. -/
theorem loop_refines (h₀ : Runs step Always (reset switches) es₀ t) (htodo : t.main.todo = [])
    (hexc : t.exception = .none) (h : Runs step Always t es s) :
    Runs Lab3.step Always t.lab3 (es.filterMap Event.lab3) s.lab3 ∧
      Runs Hal.step Always t.jtag (es.filterMap Event.jtag) s.jtag ∧
      s.jtag.driver.hostInactive = t.jtag.driver.hostInactive := by
  have hloop : Looping t := ⟨inv_run h₀, htodo, by rw [hexc]; rfl⟩
  refine ⟨?_, ?_, ?_⟩
  · apply h.simulate State.lab3 Event.lab3 Looping hloop
    · exact fun _ _ _ hs _ hstep => looping_step hs hstep
    · exact fun _ _ _ hs _ hstep => (loop_step hs hstep).lab3
  · apply h.simulate State.jtag Event.jtag Looping hloop
    · exact fun _ _ _ hs _ hstep => looping_step hs hstep
    · exact fun _ _ _ hs _ hstep => (loop_step hs hstep).jtag
  · have hboth : Looping s ∧ s.jtag.driver.hostInactive = t.jtag.driver.hostInactive := by
      apply h.invariant fun _ s =>
        Looping s ∧ s.jtag.driver.hostInactive = t.jtag.driver.hostInactive
      · exact ⟨hloop, rfl⟩
      · intro es s e s' ⟨hs, hsame⟩ _ hstep
        exact ⟨looping_step hs hstep, (loop_step hs hstep).hostInactive.trans hsame⟩
    exact hboth.2

theorem loop_refines_press : ∃ t s, Runs step Always t press s ∧
    Runs Lab3.step Always t.lab3 (press.filterMap Event.lab3) s.lab3 ∧
      Runs Hal.step Always t.jtag (press.filterMap Event.jtag) s.jtag ∧
      s.jtag.driver.hostInactive = t.jtag.driver.hostInactive := by
  obtain ⟨t, s, hstart, hruns, hview⟩ := Runs.of_exec_bind
    (f := fun t _ => (t.main.todo, t.exception))
    (show ((exec step Always (reset 1#8) startUp).bind fun t =>
      (exec step Always t press).map _) = some ([], .none) by decide +kernel)
  obtain ⟨htodo, hexc⟩ := Prod.mk.inj hview
  exact ⟨t, s, hruns, loop_refines hstart htodo hexc hruns⟩

end Esd1.Lab3.AltIrq
