import Esd1.Hal.Proofs.JtagUart

/-!
# The receive side of the JTAG UART driver

A byte of the host goes through the FIFO and the receive buffer to a call.  The
interrupt routine is the producer here, and the call that reads owns the other index.
-/

namespace Esd1.Hal

open Interleaving Circular

variable {s s' : System} {es : List Event} {e : Event} {D S log log' out : List Byte} {r : Nat}

/-! ## The invariant -/

structure Draining (log : List Byte) (r : Nat) (rx : Buffer Byte) (c : ReadCall)
    (outIdx n i : Nat) : Prop where
  outIdx_eq : outIdx = rx.outIdx
  le : i ≤ n
  space : c.done + n ≤ c.space
  run : outIdx + n ≤ bufLen
  available : r + n ≤ log.length
  length_eq : c.buffer.length = c.done + i
  copied : c.buffer.drop c.done = (log.drop r).take i

def RxRead (log : List Byte) (r : Nat) (rx : Buffer Byte) (c : ReadCall) : ReadPc → Prop
  | .loadIn => c.buffer.length = c.done ∧ c.done < c.space
  | .copy _ outIdx n i => 0 < n ∧ Draining log r rx c outIdx n i
  | .waitIn inIdx => c.buffer.length = c.done ∧ c.done = 0 ∧ 0 < c.space ∧ inIdx = rx.outIdx
  | .waitHost inIdx => c.buffer.length = c.done ∧ c.done = 0 ∧ 0 < c.space ∧ inIdx = rx.outIdx
  | .recheck inIdx => c.buffer.length = c.done ∧ c.done = 0 ∧ 0 < c.space ∧ inIdx = rx.outIdx
  | .kick => c.buffer.length = c.done ∧ c.done ≠ 0
  | .ret => c.buffer.length = c.done

def RxThread (log : List Byte) (r : Nat) (rx : Buffer Byte) : Thread → Prop
  | .read c pc => RxRead log r rx c pc
  | _ => True

/-- Where the routine may turn the receive interrupt off, the buffer is not empty. -/
def RxIsr (rfifo : List Byte) (rx : Buffer Byte) : Isr → Prop
  | .irq (.rxLoop _ _) => rfifo ≠ [] ∨ rx.inIdx ≠ rx.outIdx
  | .irq (.rxDone _ _) => rx.inIdx ≠ rx.outIdx
  | _ => True

/-- A call that took bytes out of the buffer, before its critical section. -/
def RxOwes : Thread → Prop
  | .read _ .ret => False
  | .read c _ => c.done ≠ 0
  | _ => False

/-- `log` is what was put into the buffer, `out` the part of it that calls took. -/
structure Rx (log out : List Byte) (s : System) : Prop where
  ring : Holds bufLen s.driver.rx log out.length
  out_prefix : out <+: log
  room : s.core.rfifo.length ≤ fifoDepth
  pause : s.core.pauseIrq = true → s.core.rfifo ≠ []
  thread : RxThread log out.length s.driver.rx s.thread
  isr : RxIsr s.core.rfifo s.driver.rx s.isr
  wake : s.driver.rx.inIdx ≠ s.driver.rx.outIdx ∨ s.core.ienAF = true ∨ RxOwes s.thread

/-- The routine adds to the log, and the call keeps its part. -/
theorem RxThread.mono {rx rx' : Buffer Byte} {t : Thread} (h : RxThread log r rx t)
    (hlog : log <+: log') (hout : rx'.outIdx = rx.outIdx) : RxThread log' r rx' t := by
  cases t with
  | idle | write | close => trivial
  | read c pc =>
      cases pc with
      | loadIn | kick | ret => exact h
      | waitIn | waitHost | recheck =>
          change _ ∧ _ ∧ _ ∧ _ = rx'.outIdx
          rw [hout]
          exact h
      | copy inIdx outIdx n i =>
          obtain ⟨hpos, hdrain⟩ := h
          have havail := hdrain.available
          have hle := hdrain.le
          have hlen := hlog.length_le
          refine ⟨hpos, ?_, hle, hdrain.space, hdrain.run, by omega, hdrain.length_eq, ?_⟩
          · rw [hout, hdrain.outIdx_eq]
          · obtain ⟨more, rfl⟩ := hlog
            rw [hdrain.copied, List.drop_append_of_le_length (by omega),
              List.take_append_of_le_length (by rw [List.length_drop]; omega)]

/-- A step that leaves the receive side alone. -/
theorem Rx.congr (h : Rx log out s) (hsame : SameRx s s')
    (hthread : RxThread log out.length s.driver.rx s'.thread)
    (hisr : RxIsr s.core.rfifo s.driver.rx s'.isr)
    (howes : RxOwes s.thread → RxOwes s'.thread) : Rx log out s' where
  ring := by
    rw [hsame.rx]
    exact h.ring
  out_prefix := h.out_prefix
  room := by
    rw [hsame.rfifo]
    exact h.room
  pause := by
    rw [hsame.pauseIrq, hsame.rfifo]
    exact h.pause
  thread := by rwa [hsame.rx]
  isr := by rwa [hsame.rx, hsame.rfifo]
  wake := by
    rw [hsame.rx, hsame.ienAF]
    rcases h.wake with hne | hien | how
    · exact Or.inl hne
    · exact Or.inr (Or.inl hien)
    · exact Or.inr (Or.inr (howes how))

/-! ## The calls -/

theorem rxRead_afterCopy {rx : Buffer Byte} {c : ReadCall} {inIdx : Nat}
    (hlen : c.buffer.length = c.done) (hspace : c.done = 0 → 0 < c.space ∧ inIdx = rx.outIdx) :
    RxRead log r rx c (c.afterCopy inIdx) := by
  unfold ReadCall.afterCopy
  split
  · next hdone => exact ⟨hlen, hdone⟩
  · next hdone =>
      split
      · exact hlen
      · exact ⟨hlen, not_not.mp hdone, hspace (not_not.mp hdone)⟩

theorem rxOwes_afterCopy {c : ReadCall} {inIdx : Nat} (hdone : c.done ≠ 0) :
    RxOwes (.read c (c.afterCopy inIdx)) := by
  unfold ReadCall.afterCopy
  rw [if_pos hdone]
  exact hdone

theorem rx_loadIn {c : ReadCall} (h : Rx log out s) (hthread : s.thread = .read c .loadIn)
    (hr : read s c .loadIn = some s') : Rx log out s' := by
  obtain ⟨hlen, hspace⟩ : c.buffer.length = c.done ∧ c.done < c.space := by
    have hinv := h.thread
    rwa [hthread] at hinv
  have hring := h.ring
  have hspec := usedRun_spec hring.released_le hring.room
  rw [← hring.inIdx_eq, ← hring.outIdx_eq] at hspec
  obtain ⟨hrun, havail, hzero⟩ := hspec
  simp only [read] at hr
  split at hr
  · next hn =>
      cases hr
      refine h.congr ⟨rfl, rfl, rfl, rfl⟩ ?_ h.isr ?_
      · apply rxRead_afterCopy hlen
        intro hdone
        exact ⟨by omega, hring.empty_iff.mpr (hzero.mp hn)⟩
      · rw [hthread]
        exact rxOwes_afterCopy
  · next hn =>
      cases hr
      have hmin := Nat.min_le_left (usedRun bufLen s.driver.rx.inIdx s.driver.rx.outIdx)
        (c.space - c.done)
      have hmin' := Nat.min_le_right (usedRun bufLen s.driver.rx.inIdx s.driver.rx.outIdx)
        (c.space - c.done)
      have hpos : 0 < min (usedRun bufLen s.driver.rx.inIdx s.driver.rx.outIdx)
          (c.space - c.done) := by
        rw [Nat.lt_min]
        omega
      refine h.congr ⟨rfl, rfl, rfl, rfl⟩ ?_ h.isr (by rw [hthread]; exact id)
      refine ⟨hpos, rfl, Nat.zero_le _, by omega, by omega, by omega, hlen, ?_⟩
      rw [← hlen, List.drop_length, List.take_zero]

theorem Draining.load {c : ReadCall} {rx : Buffer Byte} {outIdx n i : Nat}
    (h : Draining log r rx c outIdx n i) (hring : Holds bufLen rx log r) (hi : i < n) :
    Draining log r rx { c with buffer := c.buffer ++ [rx.cell (outIdx + i)] } outIdx n (i + 1) where
  outIdx_eq := h.outIdx_eq
  le := hi
  space := h.space
  run := h.run
  available := h.available
  length_eq := by
    rw [List.length_append, List.length_singleton, h.length_eq, Nat.add_assoc]
  copied := by
    have havail := h.available
    have hrun := h.run
    have hlen := h.length_eq
    have hcell : rx.cell (outIdx + i) = log[r + i] := by
      rw [h.outIdx_eq]
      apply hring.cell_outIdx
      rw [← h.outIdx_eq]
      omega
    have hdrop : i < (log.drop r).length := by
      rw [List.length_drop]
      omega
    change (c.buffer ++ [rx.cell (outIdx + i)]).drop c.done = _
    rw [List.drop_append_of_le_length (by omega), h.copied, List.take_succ_eq_append_getElem hdrop,
      List.getElem_drop, hcell]

/-- The bytes of a finished copy are released. -/
theorem Draining.take_buffer {c : ReadCall} {rx : Buffer Byte} {outIdx n : Nat}
    (h : Draining log r rx c outIdx n n) :
    c.buffer.take (c.done + n) = c.buffer.take c.done ++ (log.drop r).take n := by
  rw [← h.copied, List.take_append_drop, ← h.length_eq, List.take_length]

theorem rx_copy {c : ReadCall} {inIdx outIdx n i : Nat}
    (h : Rx log (D ++ c.buffer.take c.done) s)
    (hthread : s.thread = .read c (.copy inIdx outIdx n i)) (hidle : s.isr = .idle)
    (hr : read s c (.copy inIdx outIdx n i) = some s') : Rx log (D ++ s'.thread.delivered) s' := by
  obtain ⟨hpos, hdrain⟩ : 0 < n ∧ Draining log (D ++ c.buffer.take c.done).length s.driver.rx c
      outIdx n i := by
    have hinv := h.thread
    rwa [hthread] at hinv
  simp only [read] at hr
  split at hr
  · next hi =>
      split at hr
      · cases hr
        have htake : (c.buffer ++ [s.driver.rx.cell (outIdx + i)]).take c.done =
            c.buffer.take c.done := by
          have hlen := hdrain.length_eq
          exact List.take_append_of_le_length (by omega)
        change Rx log (D ++ (c.buffer ++ [s.driver.rx.cell (outIdx + i)]).take c.done) _
        rw [htake]
        exact h.congr ⟨rfl, rfl, rfl, rfl⟩ ⟨hpos, hdrain.load h.ring hi⟩ h.isr
          (by rw [hthread]; exact id)
      · cases hr
  · next hi =>
      cases hr
      have hle := hdrain.le
      obtain rfl : i = n := by omega
      have havail := hdrain.available
      have hspace := hdrain.space
      have hout : D ++ c.buffer.take (c.done + i) =
          log.take ((D ++ c.buffer.take c.done).length + i) := by
        rw [hdrain.take_buffer, ← List.append_assoc, List.take_add,
          ← List.prefix_iff_eq_take.mp h.out_prefix]
      have hlen : (D ++ c.buffer.take (c.done + i)).length =
          (D ++ c.buffer.take c.done).length + i := by
        rw [hout, List.length_take]
        exact Nat.min_eq_left havail
      change Rx log (D ++ c.buffer.take (c.done + i)) _
      refine ⟨?_, ?_, h.room, h.pause, ?_, ?_, ?_⟩
      · rw [hlen, hdrain.outIdx_eq]
        exact h.ring.release havail
      · rw [hout]
        exact List.take_prefix _ _
      · have hdone : c.done + i ≠ 0 := by omega
        change RxRead _ _ _ { c with done := c.done + i } (if _ then _ else _)
        split
        · next hmore => exact ⟨hdrain.length_eq, hmore⟩
        · exact rxRead_afterCopy hdrain.length_eq (fun hzero => absurd hzero hdone)
      · change RxIsr _ _ s.isr
        rw [hidle]
        trivial
      · have hdone : c.done + i ≠ 0 := by omega
        right
        right
        change RxOwes (.read { c with done := c.done + i } (if _ then _ else _))
        split
        · exact hdone
        · exact rxOwes_afterCopy hdone

theorem rx_read {c : ReadCall} {pc : ReadPc} (hsync : Sync s)
    (h : Rx log (D ++ s.thread.delivered) s) (hthread : s.thread = .read c pc)
    (hidle : s.isr = .idle) (hr : read s c pc = some s') :
    Rx log (D ++ s'.thread.delivered) s' := by
  have hout : s.thread.delivered = c.buffer.take c.done := by
    rw [hthread]
    rfl
  rw [hout] at h
  have hinv := h.thread
  rw [hthread] at hinv
  cases pc with
  | loadIn =>
      have hrx := rx_loadIn h hthread hr
      simp only [read] at hr
      split at hr
      all_goals
        cases hr
        exact hrx
  | copy inIdx outIdx n i => exact rx_copy h hthread hidle hr
  | waitIn inIdx | waitHost inIdx =>
      simp only [read] at hr
      split at hr
      all_goals
        cases hr
        exact h.congr ⟨rfl, rfl, rfl, rfl⟩ hinv h.isr (by rw [hthread]; exact id)
  | recheck inIdx =>
      obtain ⟨hlen, hdone, hspace, -⟩ := hinv
      have howes : ¬RxOwes s.thread := by
        rw [hthread]
        exact fun hne => hne hdone
      simp only [read] at hr
      split at hr
      · cases hr
        exact h.congr ⟨rfl, rfl, rfl, rfl⟩ hlen h.isr (fun how => absurd how howes)
      · cases hr
        refine h.congr ⟨rfl, rfl, rfl, rfl⟩ ⟨hlen, ?_⟩ h.isr (fun how => absurd how howes)
        rwa [hdone]
  | kick =>
      cases hr
      refine ⟨h.ring, h.out_prefix, h.room, h.pause, hinv.1, h.isr, ?_⟩
      right
      left
      rw [ienAF_enable hsync, show controlReMsk.getLsbD 0 = true by decide, Bool.or_true]
  | ret => cases hr

/-! ## The interrupt routine -/

theorem rxIsr_afterRx {rfifo : List Byte} {rx : Buffer Byte} {control : BitVec 32} :
    RxIsr rfifo rx (.irq (afterRx control)) := by
  rcases afterRx_cases control with heq | heq
  · rw [heq]
    trivial
  · rw [heq]
    trivial

/-- The receive interrupt is pending only with something in the FIFO. -/
theorem rfifo_ne_nil (h : Rx log out s) (hri : s.core.controlWord &&& controlRiMsk ≠ 0#32) :
    s.core.rfifo ≠ [] := by
  rw [ne_eq, JtagUart.controlWord_ri, Bool.not_eq_false] at hri
  unfold JtagUart.ipenAF at hri
  rw [Bool.and_eq_true_iff, Bool.or_eq_true_iff, decide_eq_true_eq] at hri
  rcases hri.2 with hpause | hfull
  · exact h.pause hpause
  · rintro hnil
    rw [hnil] at hfull
    exact absurd hfull (by decide)

theorem room_loadData {late : Option Byte} (h : Rx log out s) (hlate : s.admits late) :
    (s.core.loadData late).rfifo.length ≤ fifoDepth := by
  have hroom := h.room
  change (s.core.rfifo.tail ++ late.toList).length ≤ fifoDepth
  rw [List.length_append, List.length_tail]
  rcases hlate with rfl | ⟨-, hlt⟩
  · change s.core.rfifo.length - 1 + 0 ≤ fifoDepth
    omega
  · have hone : late.toList.length ≤ 1 := by
      cases late with
      | none => exact Nat.zero_le 1
      | some b => exact Nat.le_refl 1
    omega

theorem rx_rxLoop {control data : BitVec 32} {late : Option Byte} (h : Rx log out s)
    (hisr : s.isr = .irq (.rxLoop control data)) (hlate : s.admits late)
    (hi : irq s late (.rxLoop control data) = some s') :
    ∃ log', log' ++ s'.core.rfifo = log ++ s.core.rfifo ++ late.toList ∧ Rx log' out s' := by
  have hne : s.core.rfifo ≠ [] ∨ s.driver.rx.inIdx ≠ s.driver.rx.outIdx := by
    have hinv := h.isr
    rwa [hisr] at hinv
  have hwake := h.wake
  simp only [irq] at hi
  split at hi
  · next hfull =>
      have hnone : late = none := by
        rcases hlate with hnone | ⟨hreads, -⟩
        · exact hnone
        · unfold System.readsData at hreads
          rw [hisr] at hreads
          exact absurd hfull (of_decide_eq_true hreads)
      have hin : s.driver.rx.inIdx ≠ s.driver.rx.outIdx := by
        intro hempty
        have hlen := h.ring.full_iff.mp hfull
        rw [h.ring.empty_iff.mp hempty] at hlen
        unfold bufLen at hlen
        omega
      cases hi
      refine ⟨log, ?_, h.congr ⟨rfl, rfl, rfl, rfl⟩ h.thread hin id⟩
      rw [hnone]
      exact (List.append_nil _).symm
  · next hfull =>
      split at hi
      · next hinvalid =>
          have hnil : s.core.rfifo = [] := by
            have hvalid := (JtagUart.dataWord_rvalid _).mp hinvalid
            change (!s.core.rfifo.isEmpty) = false at hvalid
            rw [Bool.not_eq_false'] at hvalid
            exact List.isEmpty_iff.mp hvalid
          have hin : s.driver.rx.inIdx ≠ s.driver.rx.outIdx := hne.resolve_left (absurd hnil)
          cases hi
          refine ⟨log, ?_, h.ring, h.out_prefix, room_loadData h hlate, fun h => (by cases h), h.thread, hin, hwake⟩
          change log ++ (s.core.rfifo.tail ++ late.toList) = _
          rw [hnil, List.tail_nil, List.nil_append, List.append_nil]
      · next hvalid =>
          split at hi
          · obtain ⟨b, rest, hcons⟩ : ∃ b rest, s.core.rfifo = b :: rest := by
              apply List.exists_cons_of_ne_nil
              intro hnil
              rw [JtagUart.dataWord_rvalid] at hvalid
              apply hvalid
              change (!s.core.rfifo.isEmpty) = false
              rw [hnil]
              rfl
            have hdata : ((s.core.loadData late).dataWord &&& dataDataMsk).setWidth 8 = b := by
              rw [JtagUart.dataWord_data]
              change s.core.rfifo.headD _ = b
              rw [hcons]
              rfl
            have hpush := h.ring.push (x := b) hfull
            have hin : ((s.driver.rx.store s.driver.rx.inIdx b).publish bufLen 1).inIdx ≠
                s.driver.rx.outIdx := by
              intro hempty
              have hlen := hpush.empty_iff.mp hempty
              have hle := h.ring.released_le
              rw [List.length_append, List.length_singleton] at hlen
              omega
            rw [hdata] at hi
            cases hi
            refine ⟨log ++ [b], ?_, hpush, h.out_prefix.trans (List.prefix_append _ _),
              room_loadData h hlate, fun h => (by cases h), h.thread.mono (List.prefix_append _ _) rfl,
              Or.inr hin, Or.inl hin⟩
            change log ++ [b] ++ (s.core.rfifo.tail ++ late.toList) = _
            rw [hcons, List.tail_cons, List.append_assoc, ← List.append_assoc [b] rest,
              List.singleton_append, List.append_assoc]
          · cases hi

theorem late_eq_none {late : Option Byte} {pc : IrqPc} (hisr : s.isr = .irq pc)
    (hpc : ∀ control data, pc ≠ .rxLoop control data) (hlate : s.admits late) : late = none := by
  rcases hlate with hnone | ⟨hreads, -⟩
  · exact hnone
  · unfold System.readsData at hreads
    rw [hisr] at hreads
    cases pc with
    | rxLoop control data => exact absurd rfl (hpc control data)
    | loadControl | rxDone | txLoop => cases hreads

theorem rx_irq {late : Option Byte} {pc : IrqPc} (hsync : Sync s) (h : Rx log out s)
    (hisr : s.isr = .irq pc) (hlate : s.admits late) (hi : irq s late pc = some s') :
    ∃ log', log' ++ s'.core.rfifo = log ++ s.core.rfifo ++ late.toList ∧ Rx log' out s' := by
  cases pc with
  | rxLoop control data => exact rx_rxLoop h hisr hlate hi
  | loadControl =>
      obtain rfl := late_eq_none hisr (fun _ _ h => by cases h) hlate
      simp only [irq] at hi
      split at hi
      · cases hi
        exact ⟨log, (List.append_nil _).symm, h.congr ⟨rfl, rfl, rfl, rfl⟩ h.thread trivial id⟩
      · split at hi
        · next hri =>
            cases hi
            exact ⟨log, (List.append_nil _).symm,
              h.congr ⟨rfl, rfl, rfl, rfl⟩ h.thread (Or.inl (rfifo_ne_nil h hri)) id⟩
        · cases hi
          exact ⟨log, (List.append_nil _).symm,
            h.congr ⟨rfl, rfl, rfl, rfl⟩ h.thread rxIsr_afterRx id⟩
  | rxDone control data =>
      obtain rfl := late_eq_none hisr (fun _ _ h => by cases h) hlate
      have hin : s.driver.rx.inIdx ≠ s.driver.rx.outIdx := by
        have hinv := h.isr
        rwa [hisr] at hinv
      simp only [irq] at hi
      split at hi
      · cases hi
        exact ⟨log, (List.append_nil _).symm, h.ring, h.out_prefix, h.room, h.pause, h.thread,
          rxIsr_afterRx, Or.inl hin⟩
      · cases hi
        exact ⟨log, (List.append_nil _).symm,
          h.congr ⟨rfl, rfl, rfl, rfl⟩ h.thread rxIsr_afterRx id⟩
  | txLoop space =>
      obtain rfl := late_eq_none hisr (fun _ _ h => by cases h) hlate
      obtain ⟨-, hthread, -, -, hrx⟩ := irq_frame hsync hi
      have hsame := hrx rfl
      have hisr' : RxIsr s.core.rfifo s.driver.rx s'.isr := by
        simp only [irq] at hi
        split at hi
        · split at hi
          · cases hi
            trivial
          · cases hi
        · split at hi
          all_goals
            cases hi
            trivial
      refine ⟨log, ?_, h.congr hsame ?_ hisr' ?_⟩
      · rw [hsame.rfifo]
        exact (List.append_nil _).symm
      · rw [hthread]
        exact h.thread
      · rw [hthread]
        exact id

/-! ## The host -/

theorem rx_hostGive (h : Rx log out s) {b : Byte} (hroom : s.core.rfifo.length < fifoDepth) :
    Rx log out { s with core := s.core.hostGive b } := by
  have hne : s.core.rfifo ++ [b] ≠ [] := List.concat_ne_nil b s.core.rfifo
  refine ⟨h.ring, h.out_prefix, ?_, fun _ => hne, h.thread, ?_, h.wake⟩
  · change (s.core.rfifo ++ [b]).length ≤ fifoDepth
    rw [List.length_append, List.length_singleton]
    exact hroom
  · have hinv := h.isr
    change RxIsr (s.core.rfifo ++ [b]) s.driver.rx s.isr
    cases hisr : s.isr with
    | idle | timeout => trivial
    | irq pc =>
        rw [hisr] at hinv
        cases pc with
        | rxLoop => exact Or.inl hne
        | loadControl | rxDone | txLoop => exact hinv

theorem rx_hostPause (h : Rx log out s) : Rx log out { s with core := s.core.hostPause } := by
  refine ⟨h.ring, h.out_prefix, h.room, ?_, h.thread, h.isr, h.wake⟩
  change (s.core.pauseIrq || !s.core.rfifo.isEmpty) = true → s.core.rfifo ≠ []
  intro hpause hnil
  rw [hnil] at hpause
  rcases (Bool.or_eq_true_iff.mp hpause) with hold | hempty
  · exact h.pause hold hnil
  · cases hempty

/-! ## Runs -/

theorem take_buffer_result (c : ReadCall) :
    c.buffer.take c.result.toNat = c.buffer.take c.done := by
  have hresult : c.result.toNat = c.done := by
    unfold ReadCall.result
    split
    · exact Int.toNat_natCast c.done
    · next hdone =>
        rw [not_not.mp hdone]
        split
        all_goals rfl
  rw [hresult]

theorem Rx.setThread {t t' : Thread} (h : Rx log (D ++ s.thread.delivered) s)
    (hthread : s.thread = t) (howes : ¬RxOwes t) (hdelivered : t'.delivered = t.delivered)
    (ht : RxThread log (D ++ s.thread.delivered).length s.driver.rx t') :
    Rx log (D ++ t'.delivered) { s with thread := t' } := by
  rw [hdelivered, ← hthread]
  exact h.congr ⟨rfl, rfl, rfl, rfl⟩ ht h.isr (fun how => absurd (hthread ▸ how) howes)

theorem rx_thread (hsync : Sync s) (h : Rx log (D ++ s.thread.delivered) s)
    (hidle : s.isr = .idle) (hstep : thread s = some s') :
    Rx log (D ++ s'.thread.delivered) s' := by
  simp only [thread] at hstep
  split at hstep
  · cases hstep
  · next hthread =>
      obtain ⟨hcall, hsame, c', pc', hthread'⟩ := write_frame hsync hstep
      rw [hthread] at h
      rw [hthread']
      refine h.congr hsame ?_ ?_ (by rw [hthread]; exact False.elim)
      · rw [hthread']
        trivial
      · rw [hcall.isr]
        exact h.isr
  · next hthread => exact rx_read hsync h hthread hidle hstep
  · next hthread =>
      obtain ⟨_, rfl⟩ := close_frame hstep
      exact h.setThread hthread id rfl trivial

theorem rfifo_thread (hsync : Sync s) (hstep : thread s = some s') :
    s'.core.rfifo = s.core.rfifo := by
  simp only [thread] at hstep
  split at hstep
  · cases hstep
  · exact (write_frame hsync hstep).1.rfifo
  · exact (read_frame hsync hstep).1.rfifo
  · obtain ⟨_, rfl⟩ := close_frame hstep
    rfl

theorem rxIsr_of_not_irq {rfifo : List Byte} {rx : Buffer Byte} {isr : Isr}
    (h : ∀ pc, isr ≠ .irq pc) : RxIsr rfifo rx isr := by
  cases isr with
  | idle | timeout => trivial
  | irq pc => exact absurd rfl (h pc)

theorem rx_step (hsync : Sync s) (hsent : S = log ++ s.core.rfifo)
    (h : Rx log (D ++ s.thread.delivered) s) (hstep : step s e = some s') :
    ∃ log', S ++ hostSent [e] = log' ++ s'.core.rfifo ∧
      Rx log' (D ++ delivered [e] ++ s'.thread.delivered) s' := by
  have silent (hd : delivered [e] = []) (hs : hostSent [e] = [])
      (hrfifo : s'.core.rfifo = s.core.rfifo) (hrx : Rx log (D ++ s'.thread.delivered) s') :
      ∃ log', S ++ hostSent [e] = log' ++ s'.core.rfifo ∧
        Rx log' (D ++ delivered [e] ++ s'.thread.delivered) s' := by
    refine ⟨log, ?_, ?_⟩
    · rw [hs, hrfifo, List.append_nil, hsent]
    · rwa [hd, List.append_nil]
  cases stepped hstep with
  | write hidle | close hidle =>
      apply silent rfl rfl rfl
      exact h.setThread hidle id rfl trivial
  | @read space nonblock hidle =>
      apply silent rfl rfl rfl
      refine h.setThread hidle id ?_ ?_
      · rfl
      · change RxRead _ _ _ ⟨space, nonblock, [], 0⟩ (if 0 < space then .loadIn else .ret)
        split
        · next hspace => exact ⟨rfl, hspace⟩
        · rfl
  | thread hidle hstep =>
      exact silent rfl rfl (rfifo_thread hsync hstep) (rx_thread hsync h hidle hstep)
  | returnWrite hret | returnClose hret =>
      apply silent rfl rfl rfl
      exact h.setThread hret id rfl trivial
  | @returnRead c hret =>
      rw [hret] at h
      have hout : delivered [.returnRead c] = c.buffer.take c.done := by
        change c.buffer.take c.result.toNat ++ [] = c.buffer.take c.done
        rw [List.append_nil, take_buffer_result]
      refine ⟨log, ?_, ?_⟩
      · rw [show hostSent [.returnRead c] = [] from rfl, List.append_nil, hsent]
      · rw [hout]
        change Rx log (D ++ c.buffer.take c.done ++ []) _
        rw [List.append_nil]
        exact h.congr ⟨rfl, rfl, rfl, rfl⟩ trivial h.isr (by rw [hret]; exact False.elim)
  | enterIrq | enterTimeout =>
      apply silent rfl rfl rfl
      exact h.congr ⟨rfl, rfl, rfl, rfl⟩ h.thread trivial id
  | @irq late pc s' hisr hlate hstep =>
      obtain ⟨log', hlog', hrx⟩ := rx_irq hsync h hisr hlate hstep
      refine ⟨log', ?_, ?_⟩
      · rw [hlog', hsent]
        change _ ++ (late.toList ++ []) = _
        rw [List.append_nil]
      · rw [(irq_frame hsync hstep).2.1]
        change Rx log' (D ++ [] ++ s.thread.delivered) s'
        rwa [List.append_nil]
  | @timeout pc =>
      obtain ⟨-, -, hsame, hthread, hisr⟩ := timeout_frame hsync pc
      apply silent rfl rfl hsame.rfifo
      rw [hthread]
      refine h.congr hsame ?_ (rxIsr_of_not_irq hisr) ?_
      · rw [hthread]
        exact h.thread
      · rw [hthread]
        exact id
  | hostTake =>
      apply silent rfl rfl rfl
      exact h.congr ⟨rfl, rfl, rfl, rfl⟩ h.thread h.isr id
  | @hostGive b hroom =>
      refine ⟨log, ?_, ?_⟩
      · rw [hsent]
        exact List.append_assoc log s.core.rfifo [b]
      · change Rx log (D ++ [] ++ s.thread.delivered) _
        rw [List.append_nil]
        exact rx_hostGive h hroom
  | hostPause => exact silent rfl rfl rfl (rx_hostPause h)

theorem rx_init (alarm : Bool) : Rx [] [] (init alarm) where
  ring := holds_empty (by decide) _
  out_prefix := List.prefix_refl []
  room := Nat.zero_le _
  pause h := by cases h
  thread := trivial
  isr := trivial
  wake := Or.inr (Or.inl (show controlReMsk.getLsbD 0 = true by decide))

theorem rx_run {alarm : Bool} (h : Runs step Always (init alarm) es s) :
    ∃ log, hostSent es = log ++ s.core.rfifo ∧ Rx log (delivered es ++ s.thread.delivered) s := by
  have hinv : Sync s ∧ ∃ log, hostSent es = log ++ s.core.rfifo ∧
      Rx log (delivered es ++ s.thread.delivered) s := by
    apply h.invariant fun es s => Sync s ∧ ∃ log, hostSent es = log ++ s.core.rfifo ∧
      Rx log (delivered es ++ s.thread.delivered) s
    · exact ⟨sync_init alarm, [], rfl, rx_init alarm⟩
    · rintro es s e s' ⟨hsync, log, hsent, hrx⟩ _ hstep
      have hnext := rx_step hsync hsent hrx hstep
      unfold hostSent delivered at *
      rw [List.flatMap_append, List.flatMap_append]
      exact ⟨sync_step hsync hstep, hnext⟩
  exact hinv.2

/-! ## What the calls return -/

/-- What the host sends reaches the calls once and in order: it has been returned, is with
the call under way, in the buffer or in the FIFO. -/
theorem receive_in_order {alarm : Bool} (h : Runs step Always (init alarm) es s) :
    delivered es ++ s.thread.delivered ++ s.driver.rx.contents bufLen ++ s.core.rfifo =
      hostSent es := by
  obtain ⟨log, hsent, hinv⟩ := rx_run h
  rw [hsent, hinv.ring.contents_eq]
  congr 1
  exact List.prefix_iff_eq_append.mp hinv.out_prefix

theorem receive_in_order_echo : ∃ s, Runs step Always (init true) echo s ∧
    delivered echo ++ s.thread.delivered ++ s.driver.rx.contents bufLen ++ s.core.rfifo =
      hostSent echo := by
  obtain ⟨s, hruns, -⟩ := Runs.of_exec_map (f := fun _ => ())
    (show (exec step Always (init true) echo).map _ = some () by decide +kernel)
  exact ⟨s, hruns, receive_in_order hruns⟩

/-- With an empty buffer the receive interrupt is enabled at the device, unless a call is
about to enable it: what the host sends wakes the routine. -/
theorem receive_wakes {alarm : Bool} (h : Runs step Always (init alarm) es s)
    (hempty : s.driver.rx.contents bufLen = []) (howes : ¬RxOwes s.thread) :
    s.core.ienAF = true ∧
      (s.core.pauseIrq = true ∨ fifoDepth ≤ s.core.rfifo.length + 8 → s.core.avIrq = true) := by
  obtain ⟨log, -, hinv⟩ := rx_run h
  have hien : s.core.ienAF = true := by
    rcases hinv.wake with hne | hien | how
    · rw [hinv.ring.contents_eq, List.drop_eq_nil_iff] at hempty
      have hle := hinv.ring.released_le
      exact absurd (hinv.ring.empty_iff.mpr (by omega)) hne
    · exact hien
    · exact absurd how howes
  refine ⟨hien, fun hhost => ?_⟩
  have hpending : (s.core.pauseIrq || decide (fifoDepth - s.core.rfifo.length ≤ 8)) = true := by
    rw [Bool.or_eq_true_iff, decide_eq_true_eq, Nat.sub_le_iff_le_add']
    exact hhost
  unfold JtagUart.avIrq JtagUart.ipenAF
  rw [hien, hpending]
  exact Bool.or_true _

theorem receive_wakes_waiting : ∃ s, Runs step Always (init true) waiting s ∧
    s.core.ienAF = true := by
  obtain ⟨s, hruns, hview⟩ := Runs.of_exec_map
    (f := fun s => (s.thread, s.driver.rx.contents bufLen))
    (show (exec step Always (init true) waiting).map _ =
      some (.read ⟨4, false, [], 0⟩ (.waitIn 0), []) by decide +kernel)
  obtain ⟨hthread, hcontents⟩ := Prod.mk.inj hview
  refine ⟨s, hruns, (receive_wakes hruns hcontents ?_).1⟩
  rw [hthread]
  exact fun hdone => hdone rfl

end Esd1.Hal
