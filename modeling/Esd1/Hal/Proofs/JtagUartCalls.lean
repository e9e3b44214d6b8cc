import Esd1.Hal.Proofs.JtagUartRx
import Esd1.Hal.Proofs.JtagUartTx

/-!
# The calls of the JTAG UART driver

No access is out of bounds, so no call and no interrupt gets stuck.  The two waiting
loops test an index that can come round to its old value, and are right to do so.  With
a host that shows itself in every period of the alarm, a call that may block does its
whole job.
-/

namespace Esd1.Hal

open Interleaving Circular

variable {s s' : System} {es : List Event} {e : Event} {log out : List Byte}

/-! ## Bounds -/

def Thread.running : Thread → Bool
  | .idle => false
  | .write _ .ret => false
  | .read _ .ret => false
  | .close _ (.ret _) => false
  | _ => true

theorem write_isSome {c : WriteCall} {pc : WritePc} (h : Tx log out s)
    (hthread : s.thread = .write c pc) (hpc : pc ≠ .ret) : (write s c pc).isSome = true := by
  have hinv := h.thread
  rw [hthread] at hinv
  cases pc with
  | ret => exact absurd rfl hpc
  | kick => rfl
  | loadOut | waitOut | waitHost | checkHost =>
      simp only [write]
      split
      all_goals rfl
  | copy inIdx outIdx n i =>
      obtain ⟨-, hfill⟩ := hinv
      have hrun := hfill.run
      have hcount := hfill.count
      simp only [write]
      split
      · next hi =>
          rw [if_pos (by omega), List.getElem?_eq_getElem (by omega)]
          rfl
      · rfl

theorem read_isSome {c : ReadCall} {pc : ReadPc} (h : Rx log out s)
    (hthread : s.thread = .read c pc) (hpc : pc ≠ .ret) : (read s c pc).isSome = true := by
  have hinv := h.thread
  rw [hthread] at hinv
  cases pc with
  | ret => exact absurd rfl hpc
  | kick => rfl
  | loadIn | waitIn | waitHost | recheck =>
      simp only [read]
      split
      all_goals rfl
  | copy inIdx outIdx n i =>
      obtain ⟨-, hdrain⟩ := hinv
      have hrun := hdrain.run
      have hspace := hdrain.space
      have hlen := hdrain.length_eq
      simp only [read]
      split
      · next hi =>
          rw [if_pos (by omega)]
          rfl
      · rfl

theorem irq_isSome {pc : IrqPc} (htx : Holds bufLen s.driver.tx log out.length)
    {log' out' : List Byte} (hrx : Holds bufLen s.driver.rx log' out'.length) :
    (irq s none pc).isSome = true := by
  cases pc with
  | loadControl | rxDone =>
      simp only [irq]
      repeat' split
      all_goals rfl
  | rxLoop control data =>
      simp only [irq]
      rw [if_pos hrx.inIdx_lt]
      repeat' split
      all_goals rfl
  | txLoop space =>
      simp only [irq]
      rw [if_pos htx.outIdx_lt]
      repeat' split
      all_goals rfl

/-- No access of the driver is out of bounds, whatever the host and the interrupts do: a
call can always take its next step, and so can the interrupt routine. -/
theorem accesses_in_bounds {alarm : Bool} (h : Runs step Always (init alarm) es s) :
    (s.isr = .idle → s.thread.running = true → (step s .thread).isSome = true) ∧
      (∀ pc, s.isr = .irq pc → (step s (.irq none)).isSome = true) := by
  have htx := tx_run h
  obtain ⟨log, -, hrx⟩ := rx_run h
  constructor
  · intro hidle hrunning
    simp only [step, thread]
    rw [if_pos hidle]
    cases hthread : s.thread with
    | idle =>
        rw [hthread] at hrunning
        cases hrunning
    | write c pc =>
        apply write_isSome htx hthread
        rintro rfl
        rw [hthread] at hrunning
        cases hrunning
    | read c pc =>
        apply read_isSome hrx hthread
        rintro rfl
        rw [hthread] at hrunning
        cases hrunning
    | close nonblock pc =>
        rw [hthread] at hrunning
        cases pc with
        | loadTx | loadHost =>
            simp only [close]
            split
            all_goals rfl
        | ret rc => cases hrunning
  · intro pc hisr
    simp only [step, hisr]
    rw [if_pos (show s.admits none from Or.inl rfl)]
    exact irq_isSome htx.ring hrx.ring

theorem accesses_in_bounds_echo : ∃ s, Runs step Always (init true) (echo.take 12) s ∧
    (step s .thread).isSome = true := by
  obtain ⟨s, hruns, hview⟩ := Runs.of_exec_map (f := fun s => (s.isr, s.thread.running))
    (show (exec step Always (init true) (echo.take 12)).map _ = some (.idle, true) by
      decide +kernel)
  exact ⟨s, hruns, (accesses_in_bounds hruns).1 (congrArg Prod.fst hview)
    (congrArg Prod.snd hview)⟩

/-! ## The waiting loops -/

/-- The loops compare an index with its old value.  A write goes on exactly when the
buffer has room again, a read exactly when there is something in it. -/
theorem waits_exactly {alarm : Bool} (h : Runs step Always (init alarm) es s) :
    (∀ c outIdx, s.thread = .write c (.waitOut outIdx) →
      (outIdx = s.driver.tx.outIdx ↔ (s.driver.tx.contents bufLen).length = bufLen - 1)) ∧
    (∀ c inIdx, s.thread = .read c (.waitIn inIdx) →
      (inIdx = s.driver.rx.inIdx ↔ s.driver.rx.contents bufLen = [])) := by
  constructor
  · intro c outIdx hthread
    have hinv := tx_run h
    generalize accepted es ++ s.thread.accepted = log at hinv
    have hwait := hinv.thread
    rw [hthread] at hwait
    obtain ⟨-, r₀, hle, hout, hfull⟩ := hwait
    have hring := hinv.ring
    have hreleased := hring.released_le
    rw [hring.contents_eq, List.length_drop, hout, hring.outIdx_eq, eq_comm,
      mod_eq_mod_iff hle (by omega)]
    unfold bufLen at *
    omega
  · intro c inIdx hthread
    obtain ⟨log, -, hinv⟩ := rx_run h
    have hwait := hinv.thread
    rw [hthread] at hwait
    obtain ⟨-, -, -, hin⟩ := hwait
    have hreleased := hinv.ring.released_le
    rw [hin, eq_comm, hinv.ring.empty_iff, hinv.ring.contents_eq, List.drop_eq_nil_iff]
    omega

theorem step_write {c : WriteCall} {pc : WritePc} (hthread : s.thread = .write c pc)
    (hisr : s.isr = .idle) (h : write s c pc = some s') : step s .thread = some s' := by
  simp only [step, thread, hisr, hthread, if_true]
  exact h

theorem copy_runs {c : WriteCall} {inIdx outIdx n k : Nat}
    (hthread : s.thread = .write c (.copy inIdx outIdx n 0)) (hisr : s.isr = .idle)
    (hn : inIdx + n ≤ bufLen) (hdata : c.done + n ≤ c.data.length) (hk : k ≤ n) :
    ∃ t, Runs step Always s (List.replicate k .thread) t ∧
      t.thread = .write c (.copy inIdx outIdx n k) ∧ t.isr = .idle ∧
      t.driver.tx.outIdx = s.driver.tx.outIdx := by
  induction k with
  | zero => exact ⟨s, Runs.nil, hthread, hisr, rfl⟩
  | succ k ih =>
      obtain ⟨t, hruns, hcopy, hidle, hout⟩ := ih (Nat.le_of_succ_le hk)
      have hbyte : c.done + k < c.data.length := by omega
      have hcell : inIdx + k < bufLen := by omega
      rw [List.replicate_succ']
      refine ⟨{ t with
        driver.tx := t.driver.tx.store (inIdx + k) (c.data.get ⟨c.done + k, hbyte⟩)
        thread := .write c (.copy inIdx outIdx n (k + 1)) },
        hruns.snoc trivial (step_write hcopy hidle ?_), rfl, hidle, hout⟩
      simp only [write]
      rw [if_pos (Nat.lt_of_succ_le hk), if_pos hcell, List.getElem?_eq_getElem hbyte]
      rfl

theorem full_runs {c : WriteCall} (hthread : s.thread = .write c .loadOut) (hisr : s.isr = .idle)
    (hfull : freeRun bufLen s.driver.tx.inIdx s.driver.tx.outIdx = 0) (hcount : 0 < c.count)
    (hblock : c.nonblock = false) : ∃ t, Runs step Always s [.thread, .thread] t ∧
      t.thread = .write c (.waitOut s.driver.tx.outIdx) := by
  have hload : step s .thread =
      some { s with thread := .write c (.kick s.driver.tx.outIdx) } := by
    apply step_write hthread hisr
    simp only [write, hfull, if_true]
  refine ⟨_, (Runs.nil.snoc trivial hload).snoc trivial (step_write rfl hisr rfl), ?_⟩
  simp only [System.enable]
  rw [if_pos ⟨hcount, hblock⟩]

def tooLong (done : Nat) : WriteCall := ⟨List.replicate bufLen 0x41#8, false, done⟩

def filling : List Event :=
  [.write (tooLong 0).data false, .thread] ++ List.replicate (bufLen - 1) .thread ++
    [.thread] ++ [.thread, .thread]

theorem tooLong_count (done : Nat) : (tooLong done).count = bufLen - done := by
  rw [WriteCall.count, tooLong, List.length_replicate]

theorem tooLong_next {done : Nat} (outIdx : Nat) (h : done < bufLen) :
    (tooLong done).next outIdx = .loadOut := by
  rw [WriteCall.next, tooLong_count, if_pos (Nat.sub_pos_of_lt h)]

theorem filling_runs : ∃ s, Runs step Always (init true) filling s ∧
    s.thread = .write (tooLong (bufLen - 1)) (.waitOut 0) := by
  have hlength : (tooLong 0).data.length = bufLen := List.length_replicate
  have hcall : step (init true) (.write (tooLong 0).data false) =
      some { init true with thread := .write (tooLong 0) .loadOut } := by
    rw [← tooLong_next 0 (show 0 < bufLen by decide)]
    rfl
  have hload : step { init true with thread := .write (tooLong 0) .loadOut } .thread =
      some { init true with thread := .write (tooLong 0) (.copy 0 0 (bufLen - 1) 0) } := by
    apply step_write rfl rfl
    simp only [write, tooLong_count]
    rfl
  have hstart : Runs step Always (init true) [.write (tooLong 0).data false, .thread] _ :=
    (Runs.nil.snoc trivial hcall).snoc trivial hload
  obtain ⟨t, hcopies, hthread, hisr, hout⟩ := copy_runs (k := bufLen - 1)
    (s := { init true with thread := .write (tooLong 0) (.copy 0 0 (bufLen - 1) 0) })
    rfl rfl (by decide) (by rw [hlength]; decide) (Nat.le_refl _)
  have hpublish : step t .thread = some { t with
      driver.tx.inIdx := bufLen - 1
      thread := .write (tooLong (bufLen - 1)) .loadOut } := by
    apply step_write hthread hisr
    rw [← tooLong_next 0 (show bufLen - 1 < bufLen by decide)]
    simp only [write, Nat.lt_irrefl, if_false, Nat.zero_add]
    rfl
  obtain ⟨u, hfull, hwait⟩ := full_runs
    (s := { t with
      driver.tx.inIdx := bufLen - 1
      thread := .write (tooLong (bufLen - 1)) .loadOut })
    rfl hisr (by simp only [hout]; rfl) (by rw [tooLong_count]; decide) rfl
  exact ⟨u, ((hstart.append hcopies).snoc trivial hpublish).append hfull,
    hwait.trans (by simp only [hout]; rfl)⟩

theorem waits_exactly_waiting :
    (∃ s, Runs step Always (init true) filling s ∧
      s.thread = .write (tooLong (bufLen - 1)) (.waitOut 0) ∧
      (0 = s.driver.tx.outIdx ↔ (s.driver.tx.contents bufLen).length = bufLen - 1)) ∧
    (∃ s, Runs step Always (init true) waiting s ∧
      s.thread = .read ⟨4, false, [], 0⟩ (.waitIn 0) ∧
      (0 = s.driver.rx.inIdx ↔ s.driver.rx.contents bufLen = [])) := by
  constructor
  · obtain ⟨s, hruns, hthread⟩ := filling_runs
    exact ⟨s, hruns, hthread, (waits_exactly hruns).1 _ _ hthread⟩
  · obtain ⟨s, hruns, hthread⟩ := Runs.of_exec_map (f := System.thread)
      (show (exec step Always (init true) waiting).map _ =
        some (.read ⟨4, false, [], 0⟩ (.waitIn 0)) by decide +kernel)
    exact ⟨s, hruns, hthread, (waits_exactly hruns).2 _ _ hthread⟩

/-! ## An active host -/

/-- The host has shown itself whenever the alarm looks. -/
def HostActive (s : System) (e : Event) : Prop :=
  e = .timeout → s.isr = .timeout .loadControl → s.core.ac = true

instance (s : System) (e : Event) : Decidable (HostActive s e) :=
  inferInstanceAs (Decidable (_ → _ → _))

/-- What a call can count on where it returns, or where it looks again. -/
def Served (d : Driver) : Thread → Prop
  | .write c .ret => c.nonblock = false → c.done = c.data.length
  | .read _ (.recheck _) => d.rx.inIdx ≠ d.rx.outIdx
  | .read c .ret => c.nonblock = false → 0 < c.space → c.done ≠ 0
  | .close _ (.ret rc) => rc = 0 → d.tx.outIdx = d.tx.inIdx
  | _ => True

structure Active (s : System) : Prop where
  hostInactive : s.driver.hostInactive = 0
  timeout : 0 < s.driver.timeout
  served : Served s.driver s.thread

theorem served_write {c : WriteCall} {pc : WritePc} (htx : Tx log out s) (h : Active s)
    (hthread : s.thread = .write c pc) (hw : write s c pc = some s') :
    Served s'.driver s'.thread := by
  have hinv := htx.thread
  rw [hthread] at hinv
  cases pc with
  | loadOut | waitOut | waitHost =>
      simp only [write] at hw
      split at hw
      all_goals
        cases hw
        trivial
  | checkHost =>
      simp only [write] at hw
      rw [if_neg (not_not.mpr h.hostInactive)] at hw
      cases hw
      trivial
  | copy inIdx outIdx n i =>
      simp only [write] at hw
      split at hw
      · split at hw
        · obtain ⟨b, _, rfl⟩ := Option.map_eq_some_iff.mp hw
          trivial
        · cases hw
      · cases hw
        change Served _ (.write _ (WriteCall.next _ outIdx))
        unfold WriteCall.next
        split
        all_goals trivial
  | kick outIdx =>
      cases hw
      change Served _ (.write c (if 0 < c.count ∧ c.nonblock = false then _ else _))
      split
      · trivial
      · next hmore =>
          intro hblock
          have hle := hinv.1
          have hcount : ¬0 < c.count := fun hcount => hmore ⟨hcount, hblock⟩
          unfold WriteCall.count at hcount
          omega
  | ret => cases hw

theorem served_afterCopy {d : Driver} {c : ReadCall} {inIdx : Nat} :
    Served d (.read c (c.afterCopy inIdx)) := by
  unfold ReadCall.afterCopy
  split
  · trivial
  · split
    · next hnonblock =>
        intro hblock
        rw [hnonblock] at hblock
        cases hblock
    · trivial

theorem served_read {c : ReadCall} {pc : ReadPc} (hrx : Rx log out s) (h : Active s)
    (hthread : s.thread = .read c pc) (hr : read s c pc = some s') :
    Served s'.driver s'.thread := by
  have hinv := hrx.thread
  have hserved := h.served
  rw [hthread] at hinv hserved
  cases pc with
  | loadIn =>
      simp only [read] at hr
      split at hr
      · cases hr
        exact served_afterCopy
      · cases hr
        trivial
  | copy inIdx outIdx n i =>
      simp only [read] at hr
      split at hr
      · split at hr
        · cases hr
          trivial
        · cases hr
      · cases hr
        change Served _ (.read _ (if _ then _ else _))
        split
        · trivial
        · exact served_afterCopy
  | waitIn inIdx =>
      obtain ⟨-, -, -, hin⟩ := hinv
      simp only [read] at hr
      split at hr
      · cases hr
        trivial
      · next hne =>
          cases hr
          change s.driver.rx.inIdx ≠ s.driver.rx.outIdx
          rw [← hin]
          exact fun heq => hne heq.symm
  | waitHost inIdx =>
      simp only [read] at hr
      rw [if_pos (by rw [h.hostInactive]; exact h.timeout)] at hr
      cases hr
      trivial
  | recheck inIdx =>
      obtain ⟨-, -, -, hin⟩ := hinv
      have hne : ¬inIdx = s.driver.rx.inIdx := by
        rw [hin]
        exact fun heq => hserved heq.symm
      simp only [read] at hr
      rw [if_neg hne] at hr
      cases hr
      trivial
  | kick =>
      cases hr
      exact fun _ _ => hinv.2
  | ret => cases hr

theorem served_close {nonblock : Bool} {pc : ClosePc} (h : Active s)
    (hc : close s nonblock pc = some s') : Served s'.driver s'.thread := by
  cases pc with
  | loadTx =>
      simp only [close] at hc
      split at hc
      · next hempty =>
          cases hc
          exact fun _ => hempty
      · cases hc
        trivial
  | loadHost =>
      simp only [close] at hc
      rw [if_pos (by rw [h.hostInactive]; exact h.timeout)] at hc
      cases hc
      cases nonblock with
      | false => trivial
      | true => exact fun hrc => absurd hrc (by decide)
  | ret => cases hc

/-- The interrupt routine only fills the one buffer, and only drains the other. -/
theorem irq_indices {late : Option Byte} {pc : IrqPc} (hi : irq s late pc = some s') :
    (s.driver.rx.inIdx ≠ s.driver.rx.outIdx → s'.driver.rx.inIdx ≠ s'.driver.rx.outIdx) ∧
      (s.driver.tx.outIdx = s.driver.tx.inIdx → s'.driver.tx.outIdx = s'.driver.tx.inIdx) := by
  cases pc with
  | loadControl =>
      simp only [irq] at hi
      split at hi
      · cases hi
        exact ⟨id, id⟩
      · split at hi
        all_goals
          cases hi
          exact ⟨id, id⟩
  | rxLoop control data =>
      simp only [irq] at hi
      split at hi
      · cases hi
        exact ⟨id, id⟩
      · next hfull =>
          split at hi
          · cases hi
            exact ⟨id, id⟩
          · split at hi
            · cases hi
              exact ⟨fun _ => hfull, id⟩
            · cases hi
  | rxDone control data =>
      simp only [irq] at hi
      split at hi
      all_goals
        cases hi
        exact ⟨id, id⟩
  | txLoop space =>
      simp only [irq] at hi
      split at hi
      · next hcond =>
          split at hi
          · cases hi
            exact ⟨id, fun hempty => absurd hempty hcond.2⟩
          · cases hi
      · split at hi
        all_goals
          cases hi
          exact ⟨id, id⟩

theorem Served.mono {d d' : Driver} {t : Thread} (h : Served d t)
    (hrx : d.rx.inIdx ≠ d.rx.outIdx → d'.rx.inIdx ≠ d'.rx.outIdx)
    (htx : d.tx.outIdx = d.tx.inIdx → d'.tx.outIdx = d'.tx.inIdx) : Served d' t := by
  cases t with
  | idle => trivial
  | write c pc =>
      cases pc with
      | ret => exact h
      | loadOut | copy | kick | waitOut | waitHost | checkHost => trivial
  | read c pc =>
      cases pc with
      | ret => exact h
      | recheck => exact hrx h
      | loadIn | copy | waitIn | waitHost | kick => trivial
  | close nonblock pc =>
      cases pc with
      | ret rc => exact fun hrc => htx (h hrc)
      | loadTx | loadHost => trivial

theorem active_thread (hsync : Sync s) (htx : Tx log out s) {log' out' : List Byte}
    (hrx : Rx log' out' s) (h : Active s) (hstep : thread s = some s') : Active s' := by
  simp only [thread] at hstep
  split at hstep
  · cases hstep
  · next hthread =>
      obtain ⟨hcall, -⟩ := write_frame hsync hstep
      refine ⟨?_, ?_, served_write htx h hthread hstep⟩
      · rw [hcall.hostInactive, h.hostInactive]
      · rw [hcall.timeout]
        exact h.timeout
  · next hthread =>
      obtain ⟨hcall, -⟩ := read_frame hsync hstep
      refine ⟨?_, ?_, served_read hrx h hthread hstep⟩
      · rw [hcall.hostInactive, h.hostInactive]
      · rw [hcall.timeout]
        exact h.timeout
  · have hserved := served_close h hstep
    obtain ⟨_, rfl⟩ := close_frame hstep
    exact ⟨h.hostInactive, h.timeout, hserved⟩

theorem active_timeout {pc : TimeoutPc} (h : Active s)
    (hok : pc = .loadControl → s.core.ac = true) : Active (timeout s pc) := by
  cases pc with
  | loadControl =>
      have hac : s.core.controlWord &&& controlAcMsk ≠ 0#32 := by
        rw [ne_eq, JtagUart.controlWord_ac, hok rfl]
        decide
      simp only [timeout]
      rw [if_pos hac]
      exact ⟨h.hostInactive, h.timeout, h.served⟩
  | storeControl => exact ⟨rfl, h.timeout, h.served⟩

theorem active_step (hsync : Sync s) (htx : Tx log out s) {log' out' : List Byte}
    (hrx : Rx log' out' s) (h : Active s) (hok : HostActive s e) (hstep : step s e = some s') :
    Active s' := by
  cases stepped hstep with
  | write =>
      refine ⟨h.hostInactive, h.timeout, ?_⟩
      change Served _ (.write _ (WriteCall.next _ 0))
      unfold WriteCall.next
      split
      all_goals trivial
  | @read space nonblock =>
      refine ⟨h.hostInactive, h.timeout, ?_⟩
      change Served _ (.read ⟨space, nonblock, [], 0⟩ (if 0 < space then .loadIn else .ret))
      split
      · trivial
      · next hspace => exact fun _ hpos => absurd hpos hspace
  | close | returnWrite | returnRead | returnClose =>
      exact ⟨h.hostInactive, h.timeout, trivial⟩
  | thread _ hstep => exact active_thread hsync htx hrx h hstep
  | enterIrq | enterTimeout | hostTake | hostGive | hostPause =>
      exact ⟨h.hostInactive, h.timeout, h.served⟩
  | irq _ _ hstep =>
      obtain ⟨-, hthread, ⟨hhost, htimeout⟩, -⟩ := irq_frame hsync hstep
      obtain ⟨hfills, hdrains⟩ := irq_indices hstep
      refine ⟨?_, ?_, ?_⟩
      · rw [hhost, h.hostInactive]
      · rw [htimeout]
        exact h.timeout
      · rw [hthread]
        exact h.served.mono hfills hdrains
  | timeout hisr =>
      apply active_timeout h
      rintro rfl
      exact hok rfl hisr

theorem active_init (alarm : Bool) : Active (init alarm) where
  hostInactive := rfl
  timeout := by
    cases alarm with
    | true => exact (by decide : 0 < defaultTimeout)
    | false => exact (by decide : 0 < intMax)
  served := trivial

structure Completed (es : List Event) : Prop where
  write : ∀ c, .returnWrite c ∈ es → c.nonblock = false → c.done = c.data.length
  read : ∀ c, .returnRead c ∈ es → c.nonblock = false → 0 < c.space → c.done ≠ 0

theorem completed_step (hdone : Completed es) (h : Active s) (hstep : step s e = some s') :
    Completed (es ++ [e]) where
  write c hmem hblock := by
    rcases List.mem_append.mp hmem with hold | hnew
    · exact hdone.write c hold hblock
    · obtain rfl := List.mem_singleton.mp hnew
      cases stepped hstep with
      | returnWrite hret =>
          have hserved := h.served
          rw [hret] at hserved
          exact hserved hblock
  read c hmem hblock hspace := by
    rcases List.mem_append.mp hmem with hold | hnew
    · exact hdone.read c hold hblock hspace
    · obtain rfl := List.mem_singleton.mp hnew
      cases stepped hstep with
      | returnRead hret =>
          have hserved := h.served
          rw [hret] at hserved
          exact hserved hblock hspace

theorem active_run {alarm : Bool} (h : Runs step HostActive (init alarm) es s) :
    Active s ∧ Completed es := by
  suffices hinv : Runs step Always (init alarm) es s ∧ Active s ∧ Completed es from hinv.2
  apply h.invariant fun es s => Runs step Always (init alarm) es s ∧ Active s ∧ Completed es
  · exact ⟨Runs.nil, active_init alarm, nofun, nofun⟩
  · rintro es s e s' ⟨hruns, hactive, hdone⟩ hok hstep
    obtain ⟨log, -, hrx⟩ := rx_run hruns
    exact ⟨hruns.snoc trivial hstep,
      active_step (sync_run hruns) (tx_run hruns) hrx hactive hok hstep,
      completed_step hdone hactive hstep⟩

/-- With an active host no call gives up: a write that may block does not return before it
has accepted everything, and a read that may block does not return with nothing. -/
theorem blocking_calls_complete {alarm : Bool} (h : Runs step HostActive (init alarm) es s) :
    (∀ c, .returnWrite c ∈ es → c.nonblock = false → c.data ≠ [] →
      c.result = c.data.length) ∧
    (∀ c, .returnRead c ∈ es → c.nonblock = false → 0 < c.space → 0 < c.result) := by
  obtain ⟨-, hdone⟩ := active_run h
  constructor
  · intro c hmem hblock hdata
    have hcount := hdone.write c hmem hblock
    have hpos := List.length_pos_iff.mpr hdata
    unfold WriteCall.result
    rw [if_pos (by omega), hcount]
  · intro c hmem hblock hspace
    have hcount := hdone.read c hmem hblock hspace
    unfold ReadCall.result
    rw [if_pos hcount]
    omega

/-- The host shows itself before each look of the alarm.  A read waits for its byte, a write
sends it back, and a close waits until it has left. -/
def attended : List Event :=
  [ .read 4 false, .thread, .thread, .hostGive 0x41#8, .hostPause,
    .enterTimeout, .timeout, .timeout, .thread,
    .enterIrq, .irq none, .irq none, .irq none, .irq none, .irq none,
    .thread, .thread, .thread, .thread, .thread, .thread, .thread,
    .returnRead ⟨4, false, [0x41#8], 1⟩,
    .write [0x41#8] false, .thread, .thread, .thread, .thread,
    .returnWrite ⟨[0x41#8], false, 1⟩,
    .close false, .thread, .hostPause, .enterTimeout, .timeout, .timeout, .thread,
    .enterIrq, .irq none, .irq none, .irq none, .irq none,
    .thread, .hostTake 0x41#8, .returnClose 0 ]

theorem blocking_calls_complete_attended : ∃ s, Runs step HostActive (init true) attended s ∧
    (⟨[0x41#8], false, 1⟩ : WriteCall).result = ([0x41#8] : List Byte).length ∧
      0 < (⟨4, false, [0x41#8], 1⟩ : ReadCall).result := by
  obtain ⟨s, hruns, -⟩ := Runs.of_exec_map (f := fun _ => ())
    (show (exec step HostActive (init true) attended).map _ = some () by decide +kernel)
  obtain ⟨hwrite, hread⟩ := blocking_calls_complete hruns
  exact ⟨s, hruns, hwrite ⟨[0x41#8], false, 1⟩ (by decide) rfl (by decide),
    hread ⟨4, false, [0x41#8], 1⟩ (by decide) rfl (by decide)⟩

/-- With an active host a close returns zero only when everything that was accepted has
left the driver. -/
theorem close_drains {alarm nonblock : Bool} (h : Runs step HostActive (init alarm) es s)
    (hthread : s.thread = .close nonblock (.ret 0)) :
    hostReceived es ++ s.core.wfifo = accepted es := by
  have hruns : Runs step Always (init alarm) es s := h.mono fun _ _ _ => trivial
  have hserved := (active_run h).1.served
  rw [hthread] at hserved
  have htx := tx_run hruns
  have hempty : (accepted es ++ s.thread.accepted).length =
      (hostReceived es ++ s.core.wfifo).length :=
    htx.ring.empty_iff.mp (hserved rfl).symm
  have hlog := htx.out_prefix.eq_of_length hempty.symm
  rw [hlog, hthread]
  exact List.append_nil _

theorem close_drains_attended : ∃ s, Runs step HostActive (init true) (attended.take 42) s ∧
    hostReceived (attended.take 42) ++ s.core.wfifo = accepted (attended.take 42) := by
  obtain ⟨s, hruns, hthread⟩ := Runs.of_exec_map (f := System.thread)
    (show (exec step HostActive (init true) (attended.take 42)).map _ =
      some (.close false (.ret 0)) by decide +kernel)
  exact ⟨s, hruns, close_drains hruns hthread⟩

end Esd1.Hal
