import Esd1.Lab3.Proofs.AltIrqSteps

/-!
# Start-up and dispatch

A registration changes the table with interrupts off and leaves it whole, so the scan
never meets a half-written entry.  A line that is pending stays so until its routine
runs, so the scan always ends at a routine, and the routines of `Part3.c` are entered
just as `Part3.lean` says.
-/

namespace Esd1.Lab3.AltIrq

open Interleaving

variable {s s' : State} {es : List Event} {e : Event} {k : Nat}

/-! ## What has been registered -/

def tableAfter (table : Nat → IrqHandler) : MainOp → Nat → IrqHandler
  | .register r => Function.update table r.irq ⟨r.isr, r.isrContext⟩
  | _ => table

def maskAfter (mask : BitVec 32) : MainOp → BitVec 32
  | .register r => mask ||| 1#32 <<< r.irq
  | _ => mask

def registered (done : List MainOp) : Nat → IrqHandler :=
  done.foldl tableAfter fun _ => ⟨none, .null⟩

def enabled (done : List MainOp) : BitVec 32 := done.foldl maskAfter 0#32

/-- The entries that may stand at an interrupt number: a routine for its device, with the
context it needs. -/
def Serves (i : Nat) (entry : IrqHandler) : Prop :=
  (i = 0 ∧ (entry = ⟨some .altAvalonTimerScIrq, .timer0⟩ ∨ entry = ⟨some .timer0Isr, .null⟩)) ∨
    (i = 1 ∧ entry = ⟨some .pushbuttonIsr, .null⟩) ∨
    (i = 2 ∧ entry = ⟨some .alteraAvalonJtagUartIrq, .jtagUart0⟩)

instance (i : Nat) (entry : IrqHandler) : Decidable (Serves i entry) :=
  inferInstanceAs (Decidable (_ ∨ _))

theorem registered_succ {op : MainOp} (hop : altMain[k]? = some op) :
    registered (altMain.take (k + 1)) = tableAfter (registered (altMain.take k)) op := by
  unfold registered
  rw [List.take_add_one, hop, List.foldl_append]
  rfl

theorem enabled_succ {op : MainOp} (hop : altMain[k]? = some op) :
    enabled (altMain.take (k + 1)) = maskAfter (enabled (altMain.take k)) op := by
  unfold enabled
  rw [List.take_add_one, hop, List.foldl_append]
  rfl

def MainOp.isRegister : MainOp → Bool
  | .register _ => true
  | _ => false

theorem tableAfter_of_not {op : MainOp} (hnot : op.isRegister = false)
    (table : Nat → IrqHandler) : tableAfter table op = table := by
  cases op with
  | register r => cases hnot
  | _ => rfl

theorem maskAfter_of_not {op : MainOp} (hnot : op.isRegister = false) (mask : BitVec 32) :
    maskAfter mask op = mask := by
  cases op with
  | register r => cases hnot
  | _ => rfl

/-- Every registration comes after the interrupts are on, and names a routine. -/
theorem register_spec {r : Registration} (hop : altMain[k]? = some (.register r)) :
    2 ≤ k ∧ r.irq < nirq ∧ r.isr.isSome = true := by
  have hmem : MainOp.register r ∈ altMain := List.mem_of_getElem? hop
  have hall : ∀ op ∈ altMain.take 2, op.isRegister = false := by decide
  have hregs : ∀ op ∈ altMain, op.isRegister = true →
      op = .register timerScInit ∨ op = .register jtagUartInit ∨
        op = .register registerPushbuttons ∨ op = .register registerTimer0 := by decide
  refine ⟨?_, ?_⟩
  · by_contra hlt
    have htake : MainOp.register r ∈ altMain.take 2 := by
      rw [← List.getElem?_take_of_lt (by omega : k < 2)] at hop
      exact List.mem_of_getElem? hop
    cases hall _ htake
  · rcases hregs _ hmem rfl with h | h | h | h
    all_goals
      obtain rfl := MainOp.register.inj h
      exact ⟨by decide, rfl⟩

/-- What is enabled has a routine. -/
theorem serves_of_enabled {i : Nat} (hk : k ≤ altMain.length)
    (henabled : (enabled (altMain.take k)).getLsbD i = true) :
    Serves i (registered (altMain.take k) i) := by
  have hi : i < 32 := BitVec.lt_of_getLsbD henabled
  have hall : ∀ k : Fin (altMain.length + 1), ∀ i : Fin 32,
      (enabled (altMain.take k)).getLsbD i = true →
        Serves i (registered (altMain.take k) i) := by decide +kernel
  exact hall ⟨k, Nat.lt_succ_of_le hk⟩ ⟨i, hi⟩ henabled

/-! ## Start-up -/

structure Stored (k : Nat) (s : State) : Prop where
  altIrq : s.altIrq = registered (altMain.take k)
  ienable : s.ienable = enabled (altMain.take k)
  altIrqActive : s.altIrqActive = enabled (altMain.take k)

/-- Inside the registration that is operation `k`.  The outer critical section stays closed
when the inner one ends. -/
def Registering (k : Nat) (s : State) (r : Registration) : RegisterPc → Prop
  | .disableAll => False
  | .setHandler status => Stored k s ∧ status = true
  | .setContext status =>
      s.altIrq = Function.update (registered (altMain.take k)) r.irq
          { registered (altMain.take k) r.irq with handler := r.isr } ∧
        s.ienable = enabled (altMain.take k) ∧ s.altIrqActive = enabled (altMain.take k) ∧
        status = true
  | .innerDisableAll status =>
      s.altIrq = registered (altMain.take (k + 1)) ∧ s.ienable = enabled (altMain.take k) ∧
        s.altIrqActive = enabled (altMain.take k) ∧ status = true
  | .setActive status inner =>
      s.altIrq = registered (altMain.take (k + 1)) ∧ s.ienable = enabled (altMain.take k) ∧
        s.altIrqActive = enabled (altMain.take k) ∧ status = true ∧ inner = false
  | .writeIenable status inner =>
      s.altIrq = registered (altMain.take (k + 1)) ∧ s.ienable = enabled (altMain.take k) ∧
        s.altIrqActive = enabled (altMain.take (k + 1)) ∧ status = true ∧ inner = false
  | .innerEnableAll status inner => Stored (k + 1) s ∧ status = true ∧ inner = false
  | .enableAll status => Stored (k + 1) s ∧ status = true

structure Boot (k : Nat) (s : State) : Prop where
  todo : s.main.todo = altMain.drop k
  le : k ≤ altMain.length
  between : s.main.registerPc = .disableAll → Stored k s ∧
    (s.exception = .none → s.pie = decide (2 ≤ k)) ∧
    (s.exception ≠ .none → s.pie = false ∧ s.estatus = true ∧ 2 ≤ k)
  inside : s.main.registerPc ≠ .disableAll → s.exception = .none ∧ s.pie = false ∧
    ∃ r, altMain[k]? = some (.register r) ∧ Registering k s r s.main.registerPc

/-- The foreground is inside a registration only when that is its operation. -/
theorem Boot.disableAll {op : MainOp} (h : Boot k s) (hop : altMain[k]? = some op)
    (hnot : op.isRegister = false) : s.main.registerPc = .disableAll := by
  by_contra hpc
  obtain ⟨-, -, r, hr, -⟩ := h.inside hpc
  rw [hop] at hr
  obtain rfl := Option.some.inj hr
  cases hnot

theorem Boot.registering {r : Registration} {pc : RegisterPc} (h : Boot k s)
    (hop : altMain[k]? = some (.register r)) (hpc : s.main.registerPc = pc)
    (hne : pc ≠ .disableAll) : s.pie = false ∧ Registering k s r pc := by
  obtain ⟨-, hpie, r', hop', hreg⟩ := h.inside (by rwa [hpc])
  obtain rfl := MainOp.register.inj (Option.some.inj (hop.symm.trans hop'))
  rw [hpc] at hreg
  exact ⟨hpie, hreg⟩

theorem Boot.next {op : MainOp} (h : Boot k s) (hop : altMain[k]? = some op)
    (hnot : op.isRegister = false) (hnone : s'.exception = .none)
    (hmain : s'.main.todo = s.main.todo.tail ∧ s'.main.registerPc = .disableAll)
    (hstored : Stored k s → Stored k s') (hpie : s'.pie = decide (2 ≤ k + 1)) :
    Boot (k + 1) s' where
  todo := by rw [hmain.1, h.todo, List.tail_drop]
  le := (List.getElem?_eq_some_iff.mp hop).1
  between _ := by
    have hsame := hstored (h.between (h.disableAll hop hnot)).1
    refine ⟨⟨?_, ?_, ?_⟩, fun _ => hpie, fun hne => absurd hnone hne⟩
    · rw [hsame.altIrq, registered_succ hop, tableAfter_of_not hnot]
    · rw [hsame.ienable, enabled_succ hop, maskAfter_of_not hnot]
    · rw [hsame.altIrqActive, enabled_succ hop, maskAfter_of_not hnot]
  inside hpc := absurd hmain.2 hpc

/-- One step of a registration. -/
theorem Boot.register {r : Registration} (h : Boot k s)
    (hop : altMain[k]? = some (.register r)) (hnone : s.exception = .none) :
    ∃ k', Boot k' (register s r s.main.registerPc) := by
  obtain ⟨htwo, hirq, hisr⟩ := register_spec hop
  have htable := registered_succ hop
  have hmask := enabled_succ hop
  have stay (pc : RegisterPc) (hpc : pc ≠ .disableAll) (hnext : State)
      (hmain : hnext.main = { s.main with registerPc := pc })
      (hexc : hnext.exception = .none) (hpie : hnext.pie = false)
      (hreg : Registering k hnext r pc) : ∃ k', Boot k' hnext := by
    refine ⟨k, ?_, h.le, ?_, ?_⟩
    · rw [hmain]
      exact h.todo
    · rw [hmain]
      exact fun heq => absurd heq hpc
    · rw [hmain]
      exact fun _ => ⟨hexc, hpie, r, hop, hreg⟩
  cases hpc : s.main.registerPc with
  | disableAll =>
      obtain ⟨hstored, hpie, -⟩ := h.between hpc
      have hon : s.pie = true := by
        rw [hpie hnone]
        exact decide_eq_true htwo
      simp only [AltIrq.register]
      rw [if_pos hirq]
      exact stay _ (by simp) _ rfl hnone rfl ⟨⟨hstored.1, hstored.2, hstored.3⟩, hon⟩
  | setHandler status =>
      obtain ⟨hpie, hstored, hstatus⟩ := h.registering hop hpc (by simp)
      refine stay (.setContext status) (by simp) _ rfl hnone hpie
        ⟨?_, hstored.ienable, hstored.altIrqActive, hstatus⟩
      change Function.update s.altIrq r.irq { s.altIrq r.irq with handler := r.isr } = _
      rw [hstored.altIrq]
  | setContext status =>
      obtain ⟨hpie, haltIrq, hrest⟩ := h.registering hop hpc (by simp)
      refine stay (.innerDisableAll status) (by simp) _ rfl hnone hpie ⟨?_, hrest⟩
      change Function.update s.altIrq r.irq { s.altIrq r.irq with context := r.isrContext } = _
      rw [haltIrq, Function.update_self, Function.update_idem, htable]
      rfl
  | innerDisableAll status =>
      obtain ⟨hpie, haltIrq, hien, hactive, hstatus⟩ := h.registering hop hpc (by simp)
      exact stay (.setActive status s.pie) (by simp) _ rfl hnone rfl
        ⟨haltIrq, hien, hactive, hstatus, hpie⟩
  | setActive status inner =>
      obtain ⟨hpie, haltIrq, hien, hactive, hflags⟩ := h.registering hop hpc (by simp)
      refine stay (.writeIenable status inner) (by simp) _ rfl hnone hpie
        ⟨haltIrq, hien, ?_, hflags⟩
      simp only [AltIrq.register]
      rw [if_pos hisr, hactive, hmask]
      rfl
  | writeIenable status inner =>
      obtain ⟨hpie, haltIrq, hien, hactive, hflags⟩ := h.registering hop hpc (by simp)
      exact stay (.innerEnableAll status inner) (by simp) _ rfl hnone hpie
        ⟨⟨haltIrq, hactive, hactive⟩, hflags⟩
  | innerEnableAll status inner =>
      obtain ⟨hpie, hstored, hstatus, hinner⟩ := h.registering hop hpc (by simp)
      exact stay (.enableAll status) (by simp) _ rfl hnone hinner
        ⟨⟨hstored.1, hstored.2, hstored.3⟩, hstatus⟩
  | enableAll status =>
      obtain ⟨hpie, hstored, hstatus⟩ := h.registering hop hpc (by simp)
      refine ⟨k + 1, ?_, (List.getElem?_eq_some_iff.mp hop).1, ?_, fun hne => absurd rfl hne⟩
      · change s.main.todo.tail = _
        rw [h.todo, List.tail_drop]
      · intro _
        refine ⟨⟨hstored.1, hstored.2, hstored.3⟩, fun _ => ?_, fun hne => absurd hnone hne⟩
        change status = _
        rw [hstatus]
        exact (decide_eq_true (by omega)).symm

theorem Boot.op {op : MainOp} {rest : List MainOp} (h : Boot k s)
    (htodo : s.main.todo = op :: rest) : altMain[k]? = some op ∧
      rest.length + 1 = altMain.length - k ∧ AltIrq.mainStep s = mainOp s op := by
  refine ⟨?_, ?_, ?_⟩
  · rw [← List.head?_drop, ← h.todo, htodo]
    rfl
  · rw [← List.length_drop, ← h.todo, htodo]
    rfl
  · unfold AltIrq.mainStep
    rw [htodo]

theorem Boot.mainStep (h : Boot k s) (hnone : s.exception = .none) :
    ∃ k', Boot k' (mainStep s) := by
  cases htodo : s.main.todo with
  | nil =>
      refine ⟨k, ?_⟩
      unfold AltIrq.mainStep
      rw [htodo]
      exact h
  | cons op rest =>
      obtain ⟨hop, -, hstep⟩ := h.op htodo
      rw [hstep]
      have hpie (hnot : op.isRegister = false) : s.pie = decide (2 ≤ k) :=
        (h.between (h.disableAll hop hnot)).2.1 hnone
      have hlater (hne : op ≠ .enableInterrupts) (hnot : op.isRegister = false) :
          s.pie = decide (2 ≤ k + 1) := by
        have hk : k ≠ 1 := by
          rintro rfl
          exact hne (Option.some.inj hop).symm
        rw [hpie hnot, decide_eq_decide]
        omega
      cases op with
      | register r => exact h.register hop hnone
      | writeIenable =>
          have hzero : k = 0 := by
            have hall : ∀ k : Fin altMain.length, altMain[k.val]? = some .writeIenable →
                k.val = 0 := by decide
            exact hall ⟨k, (List.getElem?_eq_some_iff.mp hop).1⟩ hop
          subst hzero
          exact ⟨1, h.next hop rfl hnone ⟨rfl, rfl⟩
            (fun hstored => ⟨hstored.1, rfl, hstored.3⟩) (hlater (fun h => by cases h) rfl)⟩
      | enableInterrupts =>
          have hone : k = 1 := by
            have hall : ∀ k : Fin altMain.length, altMain[k.val]? = some .enableInterrupts →
                k.val = 1 := by decide
            exact hall ⟨k, (List.getElem?_eq_some_iff.mp hop).1⟩ hop
          subst hone
          exact ⟨2, h.next hop rfl hnone ⟨rfl, rfl⟩
            (fun hstored => ⟨hstored.1, hstored.2, hstored.3⟩) rfl⟩
      | storeTimerControl | storeJtagControl | alarmStart | storeHex | loadMask | storeMask
      | loadPeriod | storePeriod =>
          exact ⟨k + 1, h.next hop rfl hnone ⟨rfl, rfl⟩
            (fun hstored => ⟨hstored.1, hstored.2, hstored.3⟩) (hlater (fun h => by cases h) rfl)⟩

theorem Boot.congr (h : Boot k s) (hback : Background s s')
    (hsame : s'.exception = s.exception ∨ s.exception ≠ .none ∧ s'.exception ≠ .none)
    (hpie : s'.pie = s.pie ∧ s'.estatus = s.estatus) : Boot k s' := by
  have hiff : s'.exception = .none ↔ s.exception = .none := by
    rcases hsame with heq | ⟨hne, hne'⟩
    · rw [heq]
    · exact iff_of_false hne' hne
  have hstored (j : Nat) (hstored : Stored j s) : Stored j s' :=
    ⟨hback.altIrq.trans hstored.1, hback.ienable.trans hstored.2,
      hback.altIrqActive.trans hstored.3⟩
  refine ⟨by rw [hback.main, h.todo], h.le, ?_, ?_⟩
  · rw [hback.main]
    intro hpc
    obtain ⟨hbefore, hnone, hsome⟩ := h.between hpc
    rw [hpie.1, hpie.2, ne_eq, hiff]
    exact ⟨hstored k hbefore, hnone, hsome⟩
  · rw [hback.main, hiff, hpie.1]
    intro hpc
    obtain ⟨hnone, hoff, r, hr, hreg⟩ := h.inside hpc
    refine ⟨hnone, hoff, r, hr, ?_⟩
    cases hpc' : s.main.registerPc with
    | disableAll => exact absurd hpc' hpc
    | setHandler =>
        rw [hpc'] at hreg
        exact ⟨hstored k hreg.1, hreg.2⟩
    | innerEnableAll | enableAll =>
        rw [hpc'] at hreg
        exact ⟨hstored (k + 1) hreg.1, hreg.2⟩
    | setContext | innerDisableAll | setActive | writeIenable =>
        rw [hpc'] at hreg
        unfold Registering
        rw [hback.altIrq, hback.ienable, hback.altIrqActive]
        exact hreg

/-! ## The lines -/

/-- `nios_system_irq_mapper`: the timer, the keys and the JTAG UART. -/
def line (s : State) : Nat → Bool
  | 0 => s.lab3.timer.irq
  | 1 => s.lab3.pushbuttons.irq
  | 2 => s.jtag.core.avIrq
  | _ => false

theorem getLsbD_senderIrq (s : State) (i : Nat) : s.senderIrq.getLsbD i = line s i := by
  unfold State.senderIrq
  simp only [BitVec.getLsbD_append]
  match i with
  | 0 | 1 | 2 => simp [line]
  | i + 3 =>
      rw [if_neg (by omega), if_neg (by omega), if_neg (by omega)]
      simp [line]

theorem getLsbD_ipending (s : State) (i : Nat) :
    s.ipending.getLsbD i = (line s i && s.ienable.getLsbD i) := by
  rw [State.ipending, BitVec.getLsbD_and, getLsbD_senderIrq]

def Stays (s s' : State) : Prop :=
  ∀ i, s.ipending.getLsbD i = true → s'.ipending.getLsbD i = true

theorem Stays.of_lines (hien : s'.ienable = s.ienable)
    (htimer : s.lab3.timer.irq = true → s'.lab3.timer.irq = true)
    (hkeys : s.lab3.pushbuttons.irq = true → s'.lab3.pushbuttons.irq = true)
    (hjtag : s.jtag.core.avIrq = true → s'.jtag.core.avIrq = true) : Stays s s' := by
  intro i
  rw [getLsbD_ipending, getLsbD_ipending, hien, Bool.and_eq_true_iff, Bool.and_eq_true_iff]
  rintro ⟨hline, hbit⟩
  refine ⟨?_, hbit⟩
  match i with
  | 0 => exact htimer hline
  | 1 => exact hkeys hline
  | 2 => exact hjtag hline
  | i + 3 => cases hline

theorem Stays.ne_zero (h : Stays s s') (hne : s.ipending ≠ 0#32) : s'.ipending ≠ 0#32 := by
  intro hzero
  apply hne
  apply BitVec.eq_of_getLsbD_eq
  intro i _
  rw [BitVec.getLsbD_zero, Bool.eq_false_iff]
  intro hi
  have hbit := h i hi
  rw [hzero, BitVec.getLsbD_zero] at hbit
  cases hbit

theorem irq_fallingEdge {p : Pushbuttons} (j : Fin 4) (h : p.irq = true) :
    (p.fallingEdge j).irq = true := by
  unfold Pushbuttons.irq at *
  rw [bne_iff_ne] at *
  intro hzero
  apply h
  change (p.edgeCapture ||| BitVec.twoPow 4 j) &&& p.irqMask = 0#4 at hzero
  rw [BitVec.and_or_distrib_right, BitVec.or_eq_zero_iff] at hzero
  exact hzero.1

theorem irq_timeOut {t : Timer} (h : t.irq = true) : t.timeOut.irq = true := by
  unfold Timer.irq at *
  exact Bool.and_eq_true_iff.mpr ⟨rfl, (Bool.and_eq_true_iff.mp h).2⟩

theorem avIrq_mono {u u' : Hal.JtagUart} (h : u.avIrq = true) (hAE : u'.ienAE = u.ienAE)
    (hAF : u'.ienAF = u.ienAF) (hw : u'.wfifo.length ≤ u.wfifo.length)
    (hr : u.rfifo.length ≤ u'.rfifo.length) (hpause : u.pauseIrq = true → u'.pauseIrq = true) :
    u'.avIrq = true := by
  unfold Hal.JtagUart.avIrq Hal.JtagUart.ipenAE Hal.JtagUart.ipenAF at *
  rw [hAE, hAF]
  simp only [Bool.or_eq_true, Bool.and_eq_true, decide_eq_true_eq] at *
  rcases h with ⟨hien, hlow⟩ | ⟨hien, hp | hhigh⟩
  · exact Or.inl ⟨hien, Nat.le_trans hw hlow⟩
  · exact Or.inr ⟨hien, Or.inl (hpause hp)⟩
  · exact Or.inr ⟨hien, Or.inr (by omega)⟩

/-! ## The scan -/

structure Quiet (s : State) : Prop where
  cpu : s.lab3.cpu = .mainLoop
  jtag : s.jtag.isr = .idle

/-- The scan has passed `i` clear bits of `active`, all of which still is pending. -/
structure Scanning (s : State) (active mask : BitVec 32) (i : Nat) : Prop where
  lt : i < nirq
  mask_eq : mask = BitVec.twoPow 32 i
  ne_zero : active ≠ 0#32
  pending : ∀ j, active.getLsbD j = true → s.ipending.getLsbD j = true
  clear : ∀ j < i, active.getLsbD j = false

def Dispatching (s : State) : Exception → Prop
  | .none => Quiet s
  | .entry => Quiet s ∧ s.ipending ≠ 0#32
  | .pending => Quiet s ∧ s.ipending ≠ 0#32
  | .scan active mask i => Quiet s ∧ Scanning s active mask i
  | .isr .altAvalonTimerScIrq => Quiet s
  | .isr .alteraAvalonJtagUartIrq => s.lab3.cpu = .mainLoop ∧ ∃ pc, s.jtag.isr = .irq pc
  | .isr .pushbuttonIsr => (∃ pc, s.lab3.cpu = .pushbuttonIsr pc) ∧ s.jtag.isr = .idle
  | .isr .timer0Isr => (∃ pc, s.lab3.cpu = .timer0Isr pc) ∧ s.jtag.isr = .idle
  | .tick => Quiet s
  | .callback => s.lab3.cpu = .mainLoop ∧ ∃ pc, s.jtag.isr = .timeout pc
  | .again => Quiet s

theorem Dispatching.congr {x : Exception} (h : Dispatching s x)
    (hcpu : s'.lab3.cpu = s.lab3.cpu) (hisr : s'.jtag.isr = s.jtag.isr) (hstays : Stays s s') :
    Dispatching s' x := by
  have hquiet (hq : Quiet s) : Quiet s' := ⟨hcpu.trans hq.1, hisr.trans hq.2⟩
  cases x with
  | none | tick | again => exact hquiet h
  | entry | pending => exact ⟨hquiet h.1, hstays.ne_zero h.2⟩
  | scan active mask i =>
      obtain ⟨hq, hscan⟩ := h
      exact ⟨hquiet hq, hscan.lt, hscan.mask_eq, hscan.ne_zero,
        fun j hj => hstays j (hscan.pending j hj), hscan.clear⟩
  | isr handler =>
      cases handler with
      | altAvalonTimerScIrq => exact hquiet h
      | alteraAvalonJtagUartIrq | pushbuttonIsr | timer0Isr =>
          unfold Dispatching
          rw [hcpu, hisr]
          exact h
  | callback =>
      unfold Dispatching
      rw [hcpu, hisr]
      exact h

theorem scanning_start (hne : s.ipending ≠ 0#32) : Scanning s s.ipending 1#32 0 where
  lt := by decide
  mask_eq := by decide
  ne_zero := hne
  pending _ := id
  clear j hj := absurd hj (Nat.not_lt_zero j)

theorem Scanning.test_iff {active mask : BitVec 32} {i : Nat} (h : Scanning s active mask i) :
    active &&& mask = 0#32 ↔ active.getLsbD i = false := by
  rw [h.mask_eq]
  exact Words.and_twoPow_eq_zero_iff h.lt

/-- A scan that has seen only clear bits is not at the last one. -/
theorem Scanning.succ {active mask : BitVec 32} {i : Nat} (h : Scanning s active mask i)
    (hclear : active &&& mask = 0#32) : Scanning s active (mask <<< 1) (i + 1) := by
  have hbit := h.test_iff.mp hclear
  have hbelow : ∀ j < i + 1, active.getLsbD j = false := by
    intro j hj
    rcases Nat.lt_succ_iff_lt_or_eq.mp hj with hlt | rfl
    · exact h.clear j hlt
    · exact hbit
  refine ⟨?_, ?_, h.ne_zero, h.pending, hbelow⟩
  · by_contra hlast
    apply h.ne_zero
    apply BitVec.eq_of_getLsbD_eq
    intro j hj
    rw [BitVec.getLsbD_zero]
    unfold nirq at hlast
    exact hbelow j (by omega)
  · rw [h.mask_eq, BitVec.twoPow_eq, BitVec.twoPow_eq, ← BitVec.shiftLeft_add]

/-- At a set bit the line is high and the table holds a routine for it. -/
theorem Scanning.found {active mask : BitVec 32} {i : Nat} (h : Scanning s active mask i)
    (hboot : Boot k s) (hexc : s.exception ≠ .none) (hset : active &&& mask ≠ 0#32) :
    line s i = true ∧ Serves i (s.altIrq i) := by
  have hbit : active.getLsbD i = true := by
    rw [← Bool.not_eq_false, ← h.test_iff]
    exact hset
  have hpending := h.pending i hbit
  rw [getLsbD_ipending, Bool.and_eq_true_iff] at hpending
  have hstored : Stored k s := by
    apply (hboot.between _).1
    by_contra hpc
    exact hexc (hboot.inside hpc).1
  refine ⟨hpending.1, ?_⟩
  rw [hstored.altIrq]
  apply serves_of_enabled hboot.le
  rw [← hstored.ienable]
  exact hpending.2

/-! ## The invariant -/

structure Inv (s : State) : Prop where
  boot : ∃ k, Boot k s
  dispatching : Dispatching s s.exception

theorem inv_reset (switches : BitVec 8) : Inv (reset switches) where
  boot :=
    ⟨0, rfl, Nat.zero_le _, fun _ => ⟨⟨rfl, rfl, rfl⟩, fun _ => rfl, fun h => absurd rfl h⟩,
      fun h => absurd rfl h⟩
  dispatching := ⟨rfl, rfl⟩

theorem Inv.congr (h : Inv s) (hback : Background s s')
    (hpie : s'.pie = s.pie ∧ s'.estatus = s.estatus) (hexc : s'.exception = s.exception)
    (hcpu : s'.lab3.cpu = s.lab3.cpu) (hisr : s'.jtag.isr = s.jtag.isr) (hstays : Stays s s') :
    Inv s' := by
  obtain ⟨k, hboot⟩ := h.boot
  refine ⟨⟨k, hboot.congr hback (Or.inl hexc) hpie⟩, ?_⟩
  rw [hexc]
  exact h.dispatching.congr hcpu hisr hstays

/-- A step of the exception handler that does not return from it. -/
theorem Inv.inside (h : Inv s) (hback : Background s s')
    (hpie : s'.pie = s.pie ∧ s'.estatus = s.estatus) (hexc : s.exception ≠ .none)
    (hexc' : s'.exception ≠ .none) (hdisp : Dispatching s' s'.exception) : Inv s' := by
  obtain ⟨k, hboot⟩ := h.boot
  exact ⟨⟨k, hboot.congr hback (Or.inr ⟨hexc, hexc'⟩) hpie⟩, hdisp⟩

theorem Moves.dispatching {x y : Exception} (h : Moves s x y) (hdisp : Dispatching s x) :
    Dispatching { s with exception := y } y := by
  cases h with
  | entry => exact ⟨⟨hdisp.1.1, hdisp.1.2⟩, hdisp.2⟩
  | pending => exact ⟨⟨hdisp.1.1, hdisp.1.2⟩, scanning_start hdisp.2⟩
  | scan hclear =>
      have hscan := hdisp.2.succ hclear
      exact ⟨⟨hdisp.1.1, hdisp.1.2⟩, hscan.1, hscan.2, hscan.3, hscan.4, hscan.5⟩
  | again hpending => exact ⟨⟨hdisp.1, hdisp.2⟩, scanning_start hpending⟩

theorem Moves.ne_none {x y : Exception} (h : Moves s x y) : x ≠ .none ∧ y ≠ .none := by
  cases h with
  | _ => simp

/-- A routine starts with its own processor, the others at rest. -/
theorem enter_dispatching {handler : Handler} {context : Context} (hquiet : Quiet s)
    (h : enter s handler context = some s') : Dispatching s' (.isr handler) := by
  cases handler with
  | altAvalonTimerScIrq =>
      obtain ⟨-, ⟨⟩⟩ := Option.ite_none_right_eq_some.mp h
      exact ⟨hquiet.1, hquiet.2⟩
  | alteraAvalonJtagUartIrq =>
      obtain ⟨-, ⟨⟩⟩ := Option.ite_none_right_eq_some.mp h
      exact ⟨hquiet.1, _, rfl⟩
  | pushbuttonIsr | timer0Isr =>
      cases h
      exact ⟨⟨_, rfl⟩, hquiet.2⟩

theorem inv_eret (h : Inv s) (hexc : s.exception = .again) :
    Inv { s with pie := s.estatus, exception := .none } := by
  obtain ⟨k, hboot⟩ := h.boot
  have hquiet := h.dispatching
  rw [hexc] at hquiet
  have hne : s.exception ≠ .none := by
    rw [hexc]
    decide
  have hpc : s.main.registerPc = .disableAll := by
    by_contra hpc
    exact hne (hboot.inside hpc).1
  obtain ⟨hstored, -, hsome⟩ := hboot.between hpc
  obtain ⟨-, hestatus, htwo⟩ := hsome hne
  refine ⟨⟨k, hboot.todo, hboot.le, ?_, fun hother => absurd hpc hother⟩,
    hquiet.1, hquiet.2⟩
  intro _
  refine ⟨⟨hstored.1, hstored.2, hstored.3⟩, fun _ => ?_, fun hother => absurd rfl hother⟩
  change s.estatus = _
  rw [hestatus, decide_eq_true htwo]

theorem pushbuttonIsr_cpu {l l' : System} {pc : PushbuttonPc}
    (h : Lab3.step l (.pushbuttonIsr pc) = some l') :
    l'.cpu = .mainLoop ∨ ∃ pc', l'.cpu = .pushbuttonIsr pc' := by
  obtain ⟨-, hpc⟩ := step_pushbuttonIsr h
  cases pc with
  | loadSwitches | loadEdgeCapture =>
      cases hpc
      exact Or.inr ⟨_, rfl⟩
  | updateIdx switchVal =>
      cases hpc
      right
      unfold updateIdx
      repeat' split
      all_goals exact ⟨_, rfl⟩
  | storeHex =>
      obtain ⟨segments, -, rfl⟩ := Option.map_eq_some_iff.mp hpc
      exact Or.inr ⟨_, rfl⟩
  | storeEdgeCapture value =>
      cases hpc
      exact Or.inl rfl

theorem timer0Isr_cpu {l l' : System} {pc : Timer0Pc}
    (h : Lab3.step l (.timer0Isr pc) = some l') :
    l'.cpu = .mainLoop ∨ ∃ pc', l'.cpu = .timer0Isr pc' := by
  obtain ⟨-, rfl⟩ := step_timer0Isr h
  cases pc with
  | storeStatus | loadLeds => exact Or.inr ⟨_, rfl⟩
  | storeLeds => exact Or.inl rfl

theorem irq_isr {j j' : Hal.System} {late : Option Hal.Byte}
    (h : Hal.step j (.irq late) = some j') : j'.isr = .idle ∨ ∃ pc, j'.isr = .irq pc := by
  cases Hal.stepped h with
  | @irq _ pc _ _ _ hirq =>
      cases pc with
      | loadControl =>
          simp only [Hal.irq] at hirq
          repeat' split at hirq
          all_goals cases hirq
          · exact Or.inl rfl
          · exact Or.inr ⟨_, rfl⟩
          · exact Or.inr ⟨_, rfl⟩
      | rxLoop | rxDone | txLoop =>
          simp only [Hal.irq] at hirq
          repeat' split at hirq
          all_goals cases hirq
          all_goals exact Or.inr ⟨_, rfl⟩

theorem timeout_isr {j j' : Hal.System} (h : Hal.step j .timeout = some j') :
    j'.isr = .idle ∨ ∃ pc, j'.isr = .timeout pc := by
  cases Hal.stepped h with
  | @timeout pc _ =>
      cases pc with
      | loadControl =>
          simp only [Hal.timeout]
          repeat' split
          · exact Or.inr ⟨_, rfl⟩
          · exact Or.inl rfl
          · exact Or.inl rfl
      | storeControl => exact Or.inl rfl

theorem Inv.returnIf {x : Exception} {returned : Bool} (h : Inv s)
    (hback : Background s (s'.returnIf returned))
    (hpie : s'.pie = s.pie ∧ s'.estatus = s.estatus) (hexc : s.exception = x) (hne : x ≠ .none)
    (hexc' : s'.exception = s.exception) (hret : returned = true → Quiet s')
    (hstay : returned = false → Dispatching s' x) : Inv (s'.returnIf returned) := by
  have hin : s.exception ≠ .none := by rwa [hexc]
  cases returned with
  | true => exact h.inside hback hpie hin (by simp [State.returnIf]) ⟨(hret rfl).1, (hret rfl).2⟩
  | false =>
      refine h.inside hback hpie hin (fun heq => hin (hexc'.symm.trans heq)) ?_
      change Dispatching _ s'.exception
      rw [hexc', hexc]
      exact (hstay rfl).congr rfl rfl fun _ => id

theorem inv_main (h : Inv s) (hnone : s.exception = .none) : Inv (mainStep s) := by
  obtain ⟨k, hboot⟩ := h.boot
  obtain ⟨hexc, hcpu, hisr⟩ := mainStep_frame s
  have hquiet := h.dispatching
  rw [hnone] at hquiet
  refine ⟨hboot.mainStep hnone, ?_⟩
  rw [hexc, hnone]
  exact ⟨hcpu.trans hquiet.1, hisr.trans hquiet.2⟩

theorem inv_interrupt (h : Inv s) (hnone : s.exception = .none) (hon : s.pie = true)
    (hpending : s.ipending ≠ 0#32) :
    Inv { s with pie := false, estatus := s.pie, exception := .entry } := by
  obtain ⟨k, hboot⟩ := h.boot
  have hquiet := h.dispatching
  rw [hnone] at hquiet
  have hpc : s.main.registerPc = .disableAll := by
    by_contra hpc
    have hoff := (hboot.inside hpc).2.1
    rw [hon] at hoff
    cases hoff
  obtain ⟨hstored, hpie, -⟩ := hboot.between hpc
  refine ⟨⟨k, hboot.todo, hboot.le, ?_, fun hother => absurd hpc hother⟩,
    ⟨hquiet.1, hquiet.2⟩, hpending⟩
  intro _
  refine ⟨⟨hstored.1, hstored.2, hstored.3⟩, fun hexc => (by cases hexc), fun _ => ⟨rfl, hon, ?_⟩⟩
  have htwo := hpie hnone
  rw [hon] at htwo
  exact of_decide_eq_true htwo.symm

theorem devices_stays {e' : Lab3.Event} {l : System} (he : e.devices = some e')
    (hl : Lab3.step s.lab3 e' = some l) : Stays s { s with lab3 := l } := by
  cases e with
  | keyEdge j =>
      cases he
      cases hl
      exact Stays.of_lines rfl id (irq_fallingEdge j) id
  | timeOut =>
      cases he
      cases hl
      exact Stays.of_lines rfl irq_timeOut id id
  | setSwitches =>
      cases he
      cases hl
      exact fun _ => id
  | _ => cases he

theorem host_stays {e' : Hal.Event} {j : Hal.System} (he : e.host = some e')
    (hj : Hal.step s.jtag e' = some j) : Stays s { s with jtag := j } := by
  refine Stays.of_lines rfl id id fun hirq => ?_
  cases e with
  | hostTake b =>
      cases he
      obtain ⟨-, ⟨⟩⟩ := Option.ite_none_right_eq_some.mp hj
      refine avIrq_mono hirq rfl rfl ?_ (Nat.le_refl _) id
      change s.jtag.core.wfifo.tail.length ≤ _
      rw [List.length_tail]
      exact Nat.sub_le _ _
  | hostGive b =>
      cases he
      obtain ⟨-, ⟨⟩⟩ := Option.ite_none_right_eq_some.mp hj
      refine avIrq_mono hirq rfl rfl (Nat.le_refl _) ?_ id
      change _ ≤ (s.jtag.core.rfifo ++ [b]).length
      rw [List.length_append]
      exact Nat.le_add_right _ _
  | hostPause =>
      cases he
      cases hj
      exact avIrq_mono hirq rfl rfl (Nat.le_refl _) (Nat.le_refl _)
        fun hpause => Bool.or_eq_true_iff.mpr (Or.inl hpause)
  | _ => cases he

theorem inv_routine {handler : Handler} {e' : Lab3.Event} {l : System} (h : Inv s)
    (he : e.routine = some (handler, e')) (hexc : s.exception = .isr handler)
    (hl : Lab3.step s.lab3 e' = some l)
    (hback : Background s (State.returnIf { s with lab3 := l } (l.cpu = .mainLoop))) :
    Inv (State.returnIf { s with lab3 := l } (l.cpu = .mainLoop)) := by
  have hdisp := h.dispatching
  rw [hexc] at hdisp
  apply h.returnIf hback ⟨rfl, rfl⟩ hexc (by simp) rfl
  · intro hret
    refine ⟨of_decide_eq_true hret, ?_⟩
    cases e with
    | pushbuttonIsr | timer0Isr =>
        cases he
        exact hdisp.2
    | _ => cases he
  · intro hstay
    cases e with
    | pushbuttonIsr =>
        cases he
        exact ⟨(pushbuttonIsr_cpu hl).resolve_left (of_decide_eq_false hstay), hdisp.2⟩
    | timer0Isr =>
        cases he
        exact ⟨(timer0Isr_cpu hl).resolve_left (of_decide_eq_false hstay), hdisp.2⟩
    | _ => cases he

theorem inv_driver {x : Exception} {e' : Hal.Event} {j : Hal.System} (h : Inv s)
    (he : e.driver = some (x, e')) (hexc : s.exception = x)
    (hj : Hal.step s.jtag e' = some j)
    (hback : Background s (State.returnIf { s with jtag := j } (j.isr = .idle))) :
    Inv (State.returnIf { s with jtag := j } (j.isr = .idle)) := by
  have hdisp := h.dispatching
  rw [hexc] at hdisp
  cases e with
  | jtagUartIrq =>
      cases he
      apply h.returnIf hback ⟨rfl, rfl⟩ hexc (by simp) rfl
      · exact fun hret => ⟨hdisp.1, of_decide_eq_true hret⟩
      · exact fun hstay => ⟨hdisp.1, (irq_isr hj).resolve_left (of_decide_eq_false hstay)⟩
  | timeout =>
      cases he
      apply h.returnIf hback ⟨rfl, rfl⟩ hexc (by simp) rfl
      · exact fun hret => ⟨hdisp.1, of_decide_eq_true hret⟩
      · exact fun hstay => ⟨hdisp.1, (timeout_isr hj).resolve_left (of_decide_eq_false hstay)⟩
  | _ => cases he

theorem inv_step (h : Inv s) (hstep : step s e = some s') : Inv s' := by
  have hdisp := h.dispatching
  have hback := background hstep
  cases stepped hstep with
  | main hexc => exact inv_main h hexc
  | interrupt hexc hpie hpending => exact inv_interrupt h hexc hpie hpending
  | eret hexc => exact inv_eret h hexc
  | devices he hl =>
      exact h.congr (hback (by rintro rfl; cases he)) ⟨rfl, rfl⟩ rfl (devices_frame he hl).1 rfl
        (devices_stays he hl)
  | host he hj =>
      exact h.congr (hback (by rintro rfl; cases he)) ⟨rfl, rfl⟩ rfl rfl (host_frame he hj).1
        (host_stays he hj)
  | dispatch hexc hmoves =>
      rw [hexc] at hdisp
      obtain ⟨hne, hne'⟩ := hmoves.ne_none
      exact h.inside (hback (by simp)) ⟨rfl, rfl⟩ (by rwa [hexc]) hne'
        (hmoves.dispatching hdisp)
  | call hexc hset hhandler henter =>
      rw [hexc] at hdisp
      have hisr := enter_dispatching hdisp.1 henter
      have hframe := enter_frame henter
      have hexc' : s'.exception = _ := congrArg State.exception hframe
      refine h.inside (hback (by simp)) ?_ (by simp [hexc]) ?_ ?_
      · rw [hframe]
        exact ⟨rfl, rfl⟩
      · rw [hexc']
        rintro ⟨⟩
      · rw [hexc']
        exact hisr
  | routine he hexc hl =>
      exact inv_routine h he hexc hl (hback (by rintro rfl; cases he))
  | driver he hexc hj =>
      exact inv_driver h he hexc hj (hback (by rintro rfl; cases he))
  | timerScIrq hexc | ticked hexc =>
      rw [hexc] at hdisp
      exact h.inside (hback (by simp)) ⟨rfl, rfl⟩ (by simp [hexc])
        (by simp) ⟨hdisp.1, hdisp.2⟩
  | callback hexc =>
      rw [hexc] at hdisp
      exact h.inside (hback (by simp)) ⟨rfl, rfl⟩ (by simp [hexc])
        (by simp) ⟨hdisp.1, _, rfl⟩

theorem inv_run {switches : BitVec 8} (h : Runs step Always (reset switches) es s) : Inv s :=
  h.invariant (fun _ s => Inv s) (inv_reset switches) fun _ _ _ _ hinv _ => inv_step hinv

end Esd1.Lab3.AltIrq
