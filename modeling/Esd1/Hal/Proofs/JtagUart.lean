import Esd1.Hal.JtagUart
import Esd1.Words.Bits

/-!
# The registers and the frames of the JTAG UART driver

What the masks read in the two registers, and which side of the driver a step leaves
alone: the calls and the interrupt routine touch the transmit side, the receive side,
or neither.
-/

namespace Esd1.Hal

open Interleaving Circular Words

/-! ## The registers -/

namespace JtagUart

variable (u : JtagUart)

theorem controlWord_ri : u.controlWord &&& controlRiMsk = 0#32 ↔ u.ipenAF = false := by
  have hbit : u.controlWord.getLsbD 8 = u.ipenAF := by
    simp only [controlWord, status, BitVec.getLsbD_append]
    simp
  rw [show controlRiMsk = BitVec.twoPow 32 8 by decide, and_twoPow_eq_zero_iff (by decide), hbit]

theorem controlWord_ac : u.controlWord &&& controlAcMsk = 0#32 ↔ u.ac = false := by
  have hbit : u.controlWord.getLsbD 10 = u.ac := by
    simp only [controlWord, status, BitVec.getLsbD_append]
    simp
  rw [show controlAcMsk = BitVec.twoPow 32 10 by decide, and_twoPow_eq_zero_iff (by decide), hbit]

theorem dataWord_rvalid : u.dataWord &&& dataRvalidMsk = 0#32 ↔ u.rvalid = false := by
  have hbit : u.dataWord.getLsbD 15 = u.rvalid := by
    simp only [dataWord, status, BitVec.getLsbD_append]
    simp
  rw [show dataRvalidMsk = BitVec.twoPow 32 15 by decide, and_twoPow_eq_zero_iff (by decide), hbit]

theorem dataWord_data : (u.dataWord &&& dataDataMsk).setWidth 8 = u.fifoRdata := by
  have hmask : dataDataMsk.setWidth 8 = BitVec.allOnes 8 := by decide
  rw [BitVec.setWidth_and, hmask, BitVec.and_allOnes]
  exact BitVec.setWidth_append_eq_right

end JtagUart

def wspace (control : BitVec 32) : Nat :=
  ((control &&& controlWspaceMsk) >>> controlWspaceOfst).toNat

theorem wspace_controlWord {u : JtagUart} (h : u.wfifo.length ≤ fifoDepth) :
    wspace u.controlWord = fifoDepth - u.wfifo.length := by
  have hword : (u.controlWord &&& controlWspaceMsk) >>> controlWspaceOfst =
      (0x40#7 - BitVec.ofNat 7 u.wfifo.length).setWidth 32 := by
    have hall : controlWspaceMsk >>> controlWspaceOfst = (BitVec.allOnes 16).setWidth 32 := by
      decide
    apply BitVec.eq_of_getLsbD_eq
    intro i hi
    rw [BitVec.ushiftRight_and_distrib, hall, BitVec.getLsbD_and, BitVec.getLsbD_ushiftRight]
    simp only [JtagUart.controlWord, controlWspaceOfst, BitVec.getLsbD_append]
    rw [if_neg (by omega), if_neg (by omega), if_neg (by omega), if_neg (by omega),
      show 16 + i - 1 - 1 - 6 - 8 = i by omega]
    by_cases hlow : i < 7
    · have hlt : i < 16 := by omega
      rw [if_pos hlow, BitVec.getLsbD_setWidth, BitVec.getLsbD_allOnes, BitVec.getLsbD_setWidth]
      simp only [hi, hlt, decide_true, Bool.and_true, Bool.true_and]
    · rw [if_neg hlow, BitVec.getLsbD_zero, Bool.false_and, BitVec.getLsbD_setWidth,
        BitVec.getLsbD_of_ge _ i (by omega), Bool.and_false]
  unfold wspace fifoDepth at *
  rw [hword, BitVec.toNat_setWidth, BitVec.toNat_sub, BitVec.toNat_ofNat, BitVec.toNat_ofNat]
  omega

theorem afterRx_cases (control : BitVec 32) :
    afterRx control = .txLoop (wspace control) ∨ afterRx control = .loadControl := by
  unfold afterRx
  split
  · exact Or.inl rfl
  · exact Or.inr rfl

/-! ## The copy of the interrupt enables -/

/-- `irq_enable` is what the device holds, and writing it acknowledges nothing. -/
structure Sync (s : System) : Prop where
  ienAF : s.driver.irqEnable.getLsbD 0 = s.core.ienAF
  ienAE : s.driver.irqEnable.getLsbD 1 = s.core.ienAE
  ac : s.driver.irqEnable.getLsbD 10 = false

structure SameTx (s s' : System) : Prop where
  tx : s'.driver.tx = s.driver.tx
  wfifo : s'.core.wfifo = s.core.wfifo
  woverflow : s'.core.woverflow = s.core.woverflow
  ienAE : s'.core.ienAE = s.core.ienAE

structure SameRx (s s' : System) : Prop where
  rx : s'.driver.rx = s.driver.rx
  rfifo : s'.core.rfifo = s.core.rfifo
  pauseIrq : s'.core.pauseIrq = s.core.pauseIrq
  ienAF : s'.core.ienAF = s.core.ienAF

variable {s s' : System}

theorem Sync.congr (h : Sync s) (hirq : s'.driver.irqEnable = s.driver.irqEnable)
    (hAF : s'.core.ienAF = s.core.ienAF) (hAE : s'.core.ienAE = s.core.ienAE) : Sync s' where
  ienAF := by rw [hirq, hAF, h.ienAF]
  ienAE := by rw [hirq, hAE, h.ienAE]
  ac := by rw [hirq, h.ac]

theorem Sync.enable (h : Sync s) {mask : BitVec 32} (hmask : mask.getLsbD 10 = false)
    (t : Thread) : Sync (s.enable mask t) where
  ienAF := rfl
  ienAE := rfl
  ac := by
    change (s.driver.irqEnable ||| mask).getLsbD 10 = false
    rw [BitVec.getLsbD_or, h.ac, hmask, Bool.or_false]

theorem Sync.disable (h : Sync s) (mask : BitVec 32) (pc : IrqPc) : Sync (s.disable mask pc) where
  ienAF := rfl
  ienAE := rfl
  ac := by
    change (s.driver.irqEnable &&& ~~~mask).getLsbD 10 = false
    rw [BitVec.getLsbD_and, h.ac, Bool.false_and]

theorem ienAE_enable (h : Sync s) (mask : BitVec 32) (t : Thread) :
    (s.enable mask t).core.ienAE = (s.core.ienAE || mask.getLsbD 1) := by
  change (s.driver.irqEnable ||| mask).getLsbD 1 = _
  rw [BitVec.getLsbD_or, h.ienAE]

theorem ienAF_enable (h : Sync s) (mask : BitVec 32) (t : Thread) :
    (s.enable mask t).core.ienAF = (s.core.ienAF || mask.getLsbD 0) := by
  change (s.driver.irqEnable ||| mask).getLsbD 0 = _
  rw [BitVec.getLsbD_or, h.ienAF]

theorem ienAE_disable_re (h : Sync s) (pc : IrqPc) :
    (s.disable controlReMsk pc).core.ienAE = s.core.ienAE := by
  change (s.driver.irqEnable &&& ~~~controlReMsk).getLsbD 1 = _
  rw [BitVec.getLsbD_and, h.ienAE, show (~~~controlReMsk).getLsbD 1 = true by decide,
    Bool.and_true]

theorem ienAF_disable_we (h : Sync s) (pc : IrqPc) :
    (s.disable controlWeMsk pc).core.ienAF = s.core.ienAF := by
  change (s.driver.irqEnable &&& ~~~controlWeMsk).getLsbD 0 = _
  rw [BitVec.getLsbD_and, h.ienAF, show (~~~controlWeMsk).getLsbD 0 = true by decide,
    Bool.and_true]

/-! ## What a step leaves alone -/

structure CallFrame (s s' : System) : Prop where
  sync : Sync s'
  isr : s'.isr = s.isr
  wfifo : s'.core.wfifo = s.core.wfifo
  rfifo : s'.core.rfifo = s.core.rfifo
  hostInactive : s'.driver.hostInactive = s.driver.hostInactive
  timeout : s'.driver.timeout = s.driver.timeout
  alarm : s'.driver.alarm = s.driver.alarm

theorem write_frame_tx (hsync : Sync s) (tx : Buffer Byte) (c : WriteCall) (pc : WritePc) :
    let s' := { s with driver.tx := tx, thread := .write c pc }
    CallFrame s s' ∧ SameRx s s' ∧ ∃ c' pc', s'.thread = .write c' pc' :=
  ⟨⟨hsync.congr rfl rfl rfl, rfl, rfl, rfl, rfl, rfl, rfl⟩, ⟨rfl, rfl, rfl, rfl⟩, c, pc, rfl⟩

theorem write_frame (hsync : Sync s) {c : WriteCall} {pc : WritePc}
    (h : write s c pc = some s') :
    CallFrame s s' ∧ SameRx s s' ∧ ∃ c' pc', s'.thread = .write c' pc' := by
  cases pc with
  | loadOut =>
      simp only [write] at h
      split at h
      all_goals
        cases h
        exact write_frame_tx hsync _ _ _
  | copy inIdx outIdx n i =>
      simp only [write] at h
      split at h
      · split at h
        · obtain ⟨b, _, rfl⟩ := Option.map_eq_some_iff.mp h
          exact write_frame_tx hsync _ _ _
        · cases h
      · cases h
        exact write_frame_tx hsync _ _ _
  | kick outIdx =>
      cases h
      refine ⟨⟨hsync.enable (by decide) _, rfl, rfl, rfl, rfl, rfl, rfl⟩, ⟨rfl, rfl, rfl, ?_⟩, _, _, rfl⟩
      rw [ienAF_enable hsync, show controlWeMsk.getLsbD 0 = false by decide, Bool.or_false]
  | waitOut | waitHost | checkHost =>
      simp only [write] at h
      split at h
      all_goals
        cases h
        exact write_frame_tx hsync _ _ _
  | ret => cases h

theorem read_frame_rx (hsync : Sync s) (rx : Buffer Byte) (c : ReadCall) (pc : ReadPc) :
    let s' := { s with driver.rx := rx, thread := .read c pc }
    CallFrame s s' ∧ SameTx s s' ∧ ∃ c' pc', s'.thread = .read c' pc' :=
  ⟨⟨hsync.congr rfl rfl rfl, rfl, rfl, rfl, rfl, rfl, rfl⟩, ⟨rfl, rfl, rfl, rfl⟩, c, pc, rfl⟩

theorem read_frame (hsync : Sync s) {c : ReadCall} {pc : ReadPc}
    (h : read s c pc = some s') :
    CallFrame s s' ∧ SameTx s s' ∧ ∃ c' pc', s'.thread = .read c' pc' := by
  cases pc with
  | loadIn =>
      simp only [read] at h
      split at h
      all_goals
        cases h
        exact read_frame_rx hsync _ _ _
  | copy inIdx outIdx n i =>
      simp only [read] at h
      split at h
      · split at h
        · cases h
          exact read_frame_rx hsync _ _ _
        · cases h
      · cases h
        exact read_frame_rx hsync _ _ _
  | kick =>
      cases h
      refine ⟨⟨hsync.enable (by decide) _, rfl, rfl, rfl, rfl, rfl, rfl⟩, ⟨rfl, rfl, rfl, ?_⟩, _, _, rfl⟩
      rw [ienAE_enable hsync, show controlReMsk.getLsbD 1 = false by decide, Bool.or_false]
  | waitIn | waitHost | recheck =>
      simp only [read] at h
      split at h
      all_goals
        cases h
        exact read_frame_rx hsync _ _ _
  | ret => cases h

theorem close_frame {nonblock : Bool} {pc : ClosePc} (h : close s nonblock pc = some s') :
    ∃ pc', s' = { s with thread := .close nonblock pc' } := by
  cases pc with
  | loadTx | loadHost =>
      simp only [close] at h
      split at h
      all_goals
        cases h
        exact ⟨_, rfl⟩
  | ret => cases h

theorem timeout_frame (hsync : Sync s) (pc : TimeoutPc) :
    Sync (timeout s pc) ∧ SameTx s (timeout s pc) ∧ SameRx s (timeout s pc) ∧
      (timeout s pc).thread = s.thread ∧ ∀ pc', (timeout s pc).isr ≠ .irq pc' := by
  cases pc with
  | loadControl =>
      simp only [timeout]
      split
      · exact ⟨hsync.congr rfl rfl rfl, ⟨rfl, rfl, rfl, rfl⟩, ⟨rfl, rfl, rfl, rfl⟩, rfl, nofun⟩
      · split
        · exact ⟨hsync.congr rfl rfl rfl, ⟨rfl, rfl, rfl, rfl⟩, ⟨rfl, rfl, rfl, rfl⟩, rfl, nofun⟩
        · exact ⟨hsync.congr rfl rfl rfl, ⟨rfl, rfl, rfl, rfl⟩, ⟨rfl, rfl, rfl, rfl⟩, rfl, nofun⟩
  | storeControl =>
      have hAF : (s.driver.irqEnable ||| controlAcMsk).getLsbD 0 = s.core.ienAF := by
        rw [BitVec.getLsbD_or, hsync.ienAF, show controlAcMsk.getLsbD 0 = false by decide,
          Bool.or_false]
      have hAE : (s.driver.irqEnable ||| controlAcMsk).getLsbD 1 = s.core.ienAE := by
        rw [BitVec.getLsbD_or, hsync.ienAE, show controlAcMsk.getLsbD 1 = false by decide,
          Bool.or_false]
      exact ⟨hsync.congr rfl hAF hAE, ⟨rfl, rfl, rfl, hAE⟩, ⟨rfl, rfl, rfl, hAF⟩, rfl, nofun⟩

def IrqPc.onRx : IrqPc → Bool
  | .rxLoop _ _ => true
  | .rxDone _ _ => true
  | _ => false

theorem irq_frame_isr (hsync : Sync s) (isr : Isr) (onRx : Bool) :
    let s' := { s with isr := isr }
    Sync s' ∧ s'.thread = s.thread ∧
      (s'.driver.hostInactive = s.driver.hostInactive ∧ s'.driver.timeout = s.driver.timeout) ∧
      (onRx = true → SameTx s s') ∧ (onRx = false → SameRx s s') :=
  ⟨hsync.congr rfl rfl rfl, rfl, ⟨rfl, rfl⟩, fun _ => ⟨rfl, rfl, rfl, rfl⟩,
    fun _ => ⟨rfl, rfl, rfl, rfl⟩⟩

theorem irq_frame (hsync : Sync s) {late : Option Byte} {pc : IrqPc}
    (h : irq s late pc = some s') :
    Sync s' ∧ s'.thread = s.thread ∧
      (s'.driver.hostInactive = s.driver.hostInactive ∧ s'.driver.timeout = s.driver.timeout) ∧
      (pc.onRx = true → SameTx s s') ∧ (pc.onRx = false → SameRx s s') := by
  cases pc with
  | loadControl =>
      simp only [irq] at h
      split at h
      · cases h
        exact irq_frame_isr hsync _ _
      · split at h
        all_goals
          cases h
          exact irq_frame_isr hsync _ _
  | rxLoop control data =>
      simp only [irq] at h
      split at h
      · cases h
        exact irq_frame_isr hsync _ _
      · split at h
        · cases h
          exact ⟨hsync.congr rfl rfl rfl, rfl, ⟨rfl, rfl⟩, fun _ => ⟨rfl, rfl, rfl, rfl⟩, nofun⟩
        · split at h
          · cases h
            exact ⟨hsync.congr rfl rfl rfl, rfl, ⟨rfl, rfl⟩, fun _ => ⟨rfl, rfl, rfl, rfl⟩, nofun⟩
          · cases h
  | rxDone control data =>
      simp only [irq] at h
      split at h
      · cases h
        exact ⟨hsync.disable _ _, rfl, ⟨rfl, rfl⟩,
          fun _ => ⟨rfl, rfl, rfl, ienAE_disable_re hsync _⟩, nofun⟩
      · cases h
        exact irq_frame_isr hsync _ _
  | txLoop space =>
      simp only [irq] at h
      split at h
      · split at h
        · cases h
          refine ⟨hsync.congr rfl ?_ ?_, rfl, ⟨rfl, rfl⟩, nofun, fun _ => ⟨rfl, ?_, ?_, ?_⟩⟩
          all_goals
            unfold JtagUart.storeData
            split
            all_goals rfl
        · cases h
      · split at h
        · cases h
          exact ⟨hsync.disable _ _, rfl, ⟨rfl, rfl⟩, nofun,
            fun _ => ⟨rfl, rfl, rfl, ienAF_disable_we hsync _⟩⟩
        · cases h
          exact irq_frame_isr hsync _ _

/-! ## What a step can do -/

inductive Stepped (s : System) : Event → System → Prop
  | write {data : List Byte} {nonblock : Bool} (hidle : s.thread = .idle) (hisr : s.isr = .idle) :
      Stepped s (.write data nonblock)
        { s with thread := .write ⟨data, nonblock, 0⟩ (WriteCall.next ⟨data, nonblock, 0⟩ 0) }
  | read {space : Nat} {nonblock : Bool} (hidle : s.thread = .idle) (hisr : s.isr = .idle) :
      Stepped s (.read space nonblock)
        { s with
          thread := .read ⟨space, nonblock, [], 0⟩ (if 0 < space then .loadIn else .ret) }
  | close {nonblock : Bool} (hidle : s.thread = .idle) (hisr : s.isr = .idle) :
      Stepped s (.close nonblock) { s with thread := .close nonblock .loadTx }
  | thread {s' : System} (hisr : s.isr = .idle) (h : Hal.thread s = some s') :
      Stepped s .thread s'
  | returnWrite {c : WriteCall} (hret : s.thread = .write c .ret) (hisr : s.isr = .idle) :
      Stepped s (.returnWrite c) { s with thread := .idle }
  | returnRead {c : ReadCall} (hret : s.thread = .read c .ret) (hisr : s.isr = .idle) :
      Stepped s (.returnRead c) { s with thread := .idle }
  | returnClose {rc : Int} {nonblock : Bool} (hret : s.thread = .close nonblock (.ret rc))
      (hisr : s.isr = .idle) : Stepped s (.returnClose rc) { s with thread := .idle }
  | enterIrq (hisr : s.isr = .idle) (hirq : s.core.avIrq = true) :
      Stepped s .enterIrq { s with isr := .irq .loadControl }
  | irq {late : Option Byte} {pc : IrqPc} {s' : System} (hisr : s.isr = .irq pc)
      (hlate : s.admits late) (h : Hal.irq s late pc = some s') : Stepped s (.irq late) s'
  | enterTimeout (hisr : s.isr = .idle) (halarm : s.driver.alarm = true) :
      Stepped s .enterTimeout { s with isr := .timeout .loadControl }
  | timeout {pc : TimeoutPc} (hisr : s.isr = .timeout pc) :
      Stepped s .timeout (Hal.timeout s pc)
  | hostTake {b : Byte} (hhead : s.core.wfifo.head? = some b) :
      Stepped s (.hostTake b) { s with core := s.core.hostTake }
  | hostGive {b : Byte} (hroom : s.core.rfifo.length < fifoDepth) :
      Stepped s (.hostGive b) { s with core := s.core.hostGive b }
  | hostPause : Stepped s .hostPause { s with core := s.core.hostPause }

theorem stepped {e : Event} (h : step s e = some s') : Stepped s e s' := by
  cases e with
  | irq late =>
      simp only [step] at h
      split at h
      · next hisr =>
          obtain ⟨hlate, h⟩ := Option.ite_none_right_eq_some.mp h
          exact .irq hisr hlate h
      · cases h
  | timeout =>
      simp only [step] at h
      split at h
      · next hisr =>
          cases h
          exact .timeout hisr
      · cases h
  | hostPause =>
      cases h
      exact .hostPause
  | returnClose rc =>
      simp only [step, Option.ite_none_right_eq_some] at h
      obtain ⟨⟨hret | hret, hisr⟩, ⟨⟩⟩ := h
      all_goals exact .returnClose hret hisr
  | thread =>
      obtain ⟨hisr, h⟩ := Option.ite_none_right_eq_some.mp h
      exact .thread hisr h
  | hostTake | hostGive =>
      obtain ⟨hguard, ⟨⟩⟩ := Option.ite_none_right_eq_some.mp h
      constructor
      exact hguard
  | write | read | close | returnWrite | returnRead | enterIrq | enterTimeout =>
      obtain ⟨⟨hfirst, hsecond⟩, ⟨⟩⟩ := Option.ite_none_right_eq_some.mp h
      constructor
      · exact hfirst
      · exact hsecond

theorem sync_step (hsync : Sync s) {e : Event} (h : step s e = some s') : Sync s' := by
  cases stepped h with
  | write | read | close | returnWrite | returnRead | returnClose | enterIrq | enterTimeout
  | hostTake | hostGive | hostPause => exact hsync.congr rfl rfl rfl
  | thread _ h =>
      simp only [thread] at h
      split at h
      · cases h
      · exact (write_frame hsync h).1.sync
      · exact (read_frame hsync h).1.sync
      · obtain ⟨_, rfl⟩ := close_frame h
        exact hsync.congr rfl rfl rfl
  | irq _ _ h => exact (irq_frame hsync h).1
  | timeout => exact (timeout_frame hsync _).1

theorem sync_init (alarm : Bool) : Sync (init alarm) where
  ienAF := show controlReMsk.getLsbD 0 = controlReMsk.getLsbD 0 from rfl
  ienAE := show controlReMsk.getLsbD 1 = controlReMsk.getLsbD 1 from rfl
  ac := show controlReMsk.getLsbD 10 = false by decide

theorem sync_run {alarm : Bool} {es : List Event} (h : Runs step Always (init alarm) es s) :
    Sync s :=
  h.invariant (fun _ s => Sync s) (sync_init alarm) fun _ _ _ _ hsync _ => sync_step hsync

end Esd1.Hal
