import Esd1.Hal.Proofs.JtagUart

/-!
# The transmit side of the JTAG UART driver

A byte that a call accepts goes through the transmit buffer and the FIFO to the host.
The invariant splits the log of accepted bytes where the interrupt routine is: what is
before went to the device, the rest is in the buffer.
-/

namespace Esd1.Hal

open Interleaving Circular

variable {s s' : System} {es : List Event} {e : Event} {A R log out : List Byte} {r r' : Nat}

/-! ## The invariant -/

structure Filling (log : List Byte) (r : Nat) (tx : Buffer Byte) (c : WriteCall)
    (inIdx n i : Nat) : Prop where
  inIdx_eq : inIdx = tx.inIdx
  le : i ≤ n
  count : c.done + n ≤ c.data.length
  run : inIdx + n ≤ bufLen
  room : log.length + n < r + bufLen
  cell_eq : ∀ j < i, c.data[c.done + j]? = some (tx.cell (inIdx + j))

def FoundFull (log : List Byte) (r outIdx : Nat) : Prop :=
  ∃ r₀ ≤ r, outIdx = r₀ % bufLen ∧ log.length + 1 = r₀ + bufLen

def TxWrite (log : List Byte) (r : Nat) (tx : Buffer Byte) (c : WriteCall) : WritePc → Prop
  | .loadOut => c.done < c.data.length
  | .copy inIdx _ n i => 0 < n ∧ Filling log r tx c inIdx n i
  | .kick outIdx => c.done ≤ c.data.length ∧ (c.done < c.data.length → FoundFull log r outIdx)
  | .waitOut outIdx => c.done < c.data.length ∧ FoundFull log r outIdx
  | .waitHost outIdx => c.done < c.data.length ∧ FoundFull log r outIdx
  | .checkHost => c.done < c.data.length
  | .ret => c.done ≤ c.data.length

def TxThread (log : List Byte) (r : Nat) (tx : Buffer Byte) : Thread → Prop
  | .write c pc => TxWrite log r tx c pc
  | _ => True

/-- The routine writes no more than the FIFO has room for. -/
def TxIsr (used : Nat) : Isr → Prop
  | .irq (.rxLoop control _) => used + wspace control ≤ fifoDepth
  | .irq (.rxDone control _) => used + wspace control ≤ fifoDepth
  | .irq (.txLoop space) => used + space ≤ fifoDepth
  | _ => True

/-- A call between its first access and its critical section. -/
def TxOwes : Thread → Prop
  | .write _ .loadOut => True
  | .write _ (.copy ..) => True
  | .write _ (.kick _) => True
  | _ => False

/-- `log` is what was put into the buffer, `out` the part of it that left for the device. -/
structure Tx (log out : List Byte) (s : System) : Prop where
  ring : Holds bufLen s.driver.tx log out.length
  out_prefix : out <+: log
  room : s.core.wfifo.length ≤ fifoDepth
  woverflow : s.core.woverflow = false
  thread : TxThread log out.length s.driver.tx s.thread
  isr : TxIsr s.core.wfifo.length s.isr
  wake : s.driver.tx.inIdx = s.driver.tx.outIdx ∨ s.core.ienAE = true ∨ TxOwes s.thread

theorem FoundFull.mono {outIdx : Nat} (h : FoundFull log r outIdx) (hr : r ≤ r') :
    FoundFull log r' outIdx := by
  obtain ⟨r₀, hle, hout, hlen⟩ := h
  exact ⟨r₀, Nat.le_trans hle hr, hout, hlen⟩

theorem TxThread.mono {tx tx' : Buffer Byte} {t : Thread} (h : TxThread log r tx t)
    (hr : r ≤ r') (hin : tx'.inIdx = tx.inIdx) (hcell : tx'.cell = tx.cell) :
    TxThread log r' tx' t := by
  cases t with
  | idle | read | close => trivial
  | write c pc =>
      cases pc with
      | loadOut | checkHost | ret => exact h
      | copy inIdx outIdx n i =>
          obtain ⟨hpos, hfill⟩ := h
          have hroom := hfill.room
          refine ⟨hpos, ?_, hfill.le, hfill.count, hfill.run, by omega, ?_⟩
          · rw [hin, hfill.inIdx_eq]
          · rw [hcell]
            exact hfill.cell_eq
      | kick outIdx => exact ⟨h.1, fun hlt => (h.2 hlt).mono hr⟩
      | waitOut | waitHost => exact ⟨h.1, h.2.mono hr⟩

theorem Tx.congr (h : Tx log out s) (hsame : SameTx s s')
    (hthread : TxThread log out.length s.driver.tx s'.thread)
    (hisr : TxIsr s.core.wfifo.length s'.isr)
    (howes : TxOwes s.thread → TxOwes s'.thread) : Tx log out s' where
  ring := by
    rw [hsame.tx]
    exact h.ring
  out_prefix := h.out_prefix
  room := by
    rw [hsame.wfifo]
    exact h.room
  woverflow := by rw [hsame.woverflow, h.woverflow]
  thread := by rwa [hsame.tx]
  isr := by rwa [hsame.wfifo]
  wake := by
    rw [hsame.tx, hsame.ienAE]
    rcases h.wake with hempty | hien | how
    · exact Or.inl hempty
    · exact Or.inr (Or.inl hien)
    · exact Or.inr (Or.inr (howes how))

/-! ## The calls -/

theorem tx_loadOut {c : WriteCall} (h : Tx log out s) (hthread : s.thread = .write c .loadOut)
    (hw : write s c .loadOut = some s') : Tx log out s' := by
  have hcount : c.done < c.data.length := by
    have hinv := h.thread
    rwa [hthread] at hinv
  have hring := h.ring
  have hspec := freeRun_spec hring.released_le hring.room
  rw [← hring.inIdx_eq, ← hring.outIdx_eq] at hspec
  obtain ⟨hrun, hroom, hzero⟩ := hspec
  simp only [write] at hw
  split at hw
  · next hn =>
      cases hw
      refine h.congr ⟨rfl, rfl, rfl, rfl⟩ ?_ h.isr (fun _ => trivial)
      exact ⟨Nat.le_of_lt hcount, fun _ => ⟨out.length, Nat.le_refl _, hring.outIdx_eq, hzero.mp hn⟩⟩
  · next hn =>
      cases hw
      have hmin := Nat.min_le_left (freeRun bufLen s.driver.tx.inIdx s.driver.tx.outIdx) c.count
      have hmin' := Nat.min_le_right (freeRun bufLen s.driver.tx.inIdx s.driver.tx.outIdx) c.count
      have hpos : 0 < min (freeRun bufLen s.driver.tx.inIdx s.driver.tx.outIdx) c.count := by
        rw [Nat.lt_min]
        unfold WriteCall.count
        omega
      unfold WriteCall.count at hmin hmin' hpos
      refine h.congr ⟨rfl, rfl, rfl, rfl⟩ ?_ h.isr (fun _ => trivial)
      refine ⟨hpos, rfl, Nat.zero_le _, ?_, ?_, ?_, fun j hj => absurd hj (Nat.not_lt_zero j)⟩
      all_goals
        unfold WriteCall.count
        omega

theorem Filling.store {c : WriteCall} {tx : Buffer Byte} {inIdx n i : Nat} {b : Byte}
    (h : Filling log r tx c inIdx n i) (hi : i < n) (hb : c.data[c.done + i]? = some b) :
    Filling log r (tx.store (inIdx + i) b) c inIdx n (i + 1) where
  inIdx_eq := h.inIdx_eq
  le := hi
  count := h.count
  run := h.run
  room := h.room
  cell_eq j hj := by
    change c.data[c.done + j]? = some (Function.update tx.cell (inIdx + i) b (inIdx + j))
    by_cases hlast : j = i
    · rw [hlast, Function.update_self, hb]
    · rw [Function.update_of_ne (by omega)]
      exact h.cell_eq j (by omega)

/-- The bytes of a finished copy are published. -/
theorem Filling.publish {c : WriteCall} {tx : Buffer Byte} {inIdx n : Nat}
    (h : Filling log r tx c inIdx n n) (hring : Holds bufLen tx log r) :
    Holds bufLen { tx with inIdx := (inIdx + n) % bufLen }
      (log ++ (c.data.drop c.done).take n) r := by
  have hlen : ((c.data.drop c.done).take n).length = n := by
    have hcount := h.count
    rw [List.length_take, List.length_drop]
    omega
  have hpub : Holds bufLen (tx.publish bufLen ((c.data.drop c.done).take n).length)
      (log ++ (c.data.drop c.done).take n) r := by
    apply hring.publish
    · rw [hlen]
      exact h.room
    · rw [hlen, ← h.inIdx_eq]
      exact h.run
    · intro j hj
      rw [hlen] at hj
      obtain ⟨_, hcell⟩ := List.getElem?_eq_some_iff.mp (h.cell_eq j hj)
      rw [List.getElem_take, List.getElem_drop, ← h.inIdx_eq]
      exact hcell.symm
  rw [hlen] at hpub
  rw [h.inIdx_eq]
  exact hpub

theorem tx_copy {c : WriteCall} {inIdx outIdx n i : Nat}
    (h : Tx (A ++ c.data.take c.done) out s)
    (hthread : s.thread = .write c (.copy inIdx outIdx n i))
    (hw : write s c (.copy inIdx outIdx n i) = some s') : Tx (A ++ s'.thread.accepted) out s' := by
  obtain ⟨hpos, hfill⟩ : 0 < n ∧ Filling (A ++ c.data.take c.done) out.length s.driver.tx c
      inIdx n i := by
    have hinv := h.thread
    rwa [hthread] at hinv
  simp only [write] at hw
  split at hw
  · next hi =>
      split at hw
      · obtain ⟨b, hb, rfl⟩ := Option.map_eq_some_iff.mp hw
        have hroom := hfill.room
        refine ⟨?_, h.out_prefix, h.room, h.woverflow, ⟨hpos, hfill.store hi hb⟩, h.isr, ?_⟩
        · change Holds bufLen (s.driver.tx.store (inIdx + i) b) _ _
          rw [hfill.inIdx_eq]
          apply h.ring.store
          · omega
          · have hrun := hfill.run
            rw [← hfill.inIdx_eq]
            omega
        · exact Or.inr (Or.inr trivial)
      · cases hw
  · next hi =>
      cases hw
      have hle := hfill.le
      obtain rfl : i = n := by omega
      have hlog : A ++ c.data.take (c.done + i) =
          A ++ c.data.take c.done ++ (c.data.drop c.done).take i := by
        rw [List.take_add, List.append_assoc]
      have hcount := hfill.count
      change Tx (A ++ c.data.take (c.done + i)) out _
      rw [hlog]
      refine ⟨hfill.publish h.ring, ?_, h.room, h.woverflow, ?_, h.isr, ?_⟩
      · exact h.out_prefix.trans (List.prefix_append _ _)
      · change TxWrite _ _ _ _ (WriteCall.next _ outIdx)
        unfold WriteCall.next WriteCall.count
        split
        · next hmore =>
            change 0 < c.data.length - (c.done + i) at hmore
            exact Nat.lt_of_sub_pos hmore
        · next hmore =>
            change ¬0 < c.data.length - (c.done + i) at hmore
            exact ⟨hcount, fun hlt => absurd (Nat.sub_pos_of_lt hlt) hmore⟩
      · right
        right
        change TxOwes (.write _ (WriteCall.next _ outIdx))
        unfold WriteCall.next
        split
        · trivial
        · trivial

theorem tx_kick {c : WriteCall} {outIdx : Nat} (hsync : Sync s) (h : Tx log out s)
    (hthread : s.thread = .write c (.kick outIdx))
    (hw : write s c (.kick outIdx) = some s') : Tx log out s' := by
  obtain ⟨hle, hfull⟩ : c.done ≤ c.data.length ∧
      (c.done < c.data.length → FoundFull log out.length outIdx) := by
    have hinv := h.thread
    rwa [hthread] at hinv
  cases hw
  refine ⟨h.ring, h.out_prefix, h.room, h.woverflow, ?_, h.isr, ?_⟩
  · change TxWrite _ _ _ c (if 0 < c.count ∧ c.nonblock = false then .waitOut outIdx else .ret)
    split
    · next hmore =>
        have hlt : c.done < c.data.length := by
          have hcount := hmore.1
          unfold WriteCall.count at hcount
          omega
        exact ⟨hlt, hfull hlt⟩
    · exact hle
  · right
    left
    rw [ienAE_enable hsync, show controlWeMsk.getLsbD 1 = true by decide, Bool.or_true]

theorem tx_write {c : WriteCall} {pc : WritePc} (hsync : Sync s)
    (h : Tx (A ++ s.thread.accepted) out s) (hthread : s.thread = .write c pc)
    (hw : write s c pc = some s') : Tx (A ++ s'.thread.accepted) out s' := by
  have hlog : s.thread.accepted = c.data.take c.done := by
    rw [hthread]
    rfl
  rw [hlog] at h
  have hinv := h.thread
  rw [hthread] at hinv
  cases pc with
  | loadOut =>
      have htx := tx_loadOut h hthread hw
      simp only [write] at hw
      split at hw
      all_goals
        cases hw
        exact htx
  | copy inIdx outIdx n i => exact tx_copy h hthread hw
  | kick outIdx =>
      have htx := tx_kick hsync h hthread hw
      cases hw
      exact htx
  | waitOut outIdx | waitHost outIdx =>
      simp only [write] at hw
      split at hw
      · cases hw
        exact h.congr ⟨rfl, rfl, rfl, rfl⟩ hinv h.isr (by rw [hthread]; exact id)
      · cases hw
        exact h.congr ⟨rfl, rfl, rfl, rfl⟩ hinv.1 h.isr (by rw [hthread]; exact id)
  | checkHost =>
      simp only [write] at hw
      split at hw
      · cases hw
        exact h.congr ⟨rfl, rfl, rfl, rfl⟩ (Nat.le_of_lt hinv) h.isr (by rw [hthread]; exact id)
      · cases hw
        exact h.congr ⟨rfl, rfl, rfl, rfl⟩ hinv h.isr (fun _ => trivial)
  | ret => cases hw

/-! ## The interrupt routine -/

theorem txIsr_afterRx {used : Nat} {control : BitVec 32}
    (h : used + wspace control ≤ fifoDepth) : TxIsr used (.irq (afterRx control)) := by
  rcases afterRx_cases control with heq | heq
  · rw [heq]
    exact h
  · rw [heq]
    trivial

theorem tx_pop {space : Nat} (h : Tx log (R ++ s.core.wfifo) s)
    (hisr : s.isr = .irq (.txLoop (space + 1))) (hne : s.driver.tx.outIdx ≠ s.driver.tx.inIdx) :
    Tx log (R ++ (s.core.storeData ((s.driver.tx.cell s.driver.tx.outIdx).signExtend 32)).wfifo)
      { s with
        core := s.core.storeData ((s.driver.tx.cell s.driver.tx.outIdx).signExtend 32)
        driver.tx := s.driver.tx.release bufLen 1
        isr := .irq (.txLoop space) } := by
  have hroom : s.core.wfifo.length + (space + 1) ≤ fifoDepth := by
    have hinv := h.isr
    rwa [hisr] at hinv
  obtain ⟨hlt, hcell⟩ := h.ring.cell_head hne
  have hstore : s.core.storeData ((s.driver.tx.cell s.driver.tx.outIdx).signExtend 32) =
      { s.core with
        wfifo := s.core.wfifo ++ [s.driver.tx.cell s.driver.tx.outIdx]
        woverflow := false } := by
    rw [JtagUart.storeData, if_pos (by omega), Words.setWidth_signExtend _ (by decide)]
  rw [hstore]
  change Tx log (R ++ (s.core.wfifo ++ [s.driver.tx.cell s.driver.tx.outIdx])) _
  rw [← List.append_assoc, hcell]
  have hlen : (R ++ s.core.wfifo ++ [log[(R ++ s.core.wfifo).length]]).length =
      (R ++ s.core.wfifo).length + 1 := List.length_append
  refine ⟨?_, ?_, ?_, rfl, ?_, ?_, ?_⟩
  · rw [hlen]
    exact h.ring.release hlt
  · have htake := List.prefix_iff_eq_take.mp h.out_prefix
    rw [List.prefix_iff_eq_take, hlen, List.take_succ_eq_append_getElem hlt, ← htake]
  · change (s.core.wfifo ++ [_]).length ≤ fifoDepth
    rw [List.length_append, List.length_singleton]
    omega
  · rw [hlen]
    exact h.thread.mono (Nat.le_succ _) rfl rfl
  · change (s.core.wfifo ++ [_]).length + space ≤ fifoDepth
    rw [List.length_append, List.length_singleton]
    omega
  · rcases h.wake with hempty | hwake
    · exact absurd hempty.symm hne
    · exact Or.inr hwake

theorem tx_irq {late : Option Byte} {pc : IrqPc} (hsync : Sync s)
    (h : Tx log (R ++ s.core.wfifo) s) (hisr : s.isr = .irq pc)
    (hi : irq s late pc = some s') : Tx log (R ++ s'.core.wfifo) s' := by
  obtain ⟨-, hthread, -, hrx, -⟩ := irq_frame hsync hi
  have hinv := h.isr
  rw [hisr] at hinv
  have onRx (hpc : pc.onRx = true) (hisr' : TxIsr s.core.wfifo.length s'.isr) :
      Tx log (R ++ s'.core.wfifo) s' := by
    have hsame := hrx hpc
    rw [hsame.wfifo]
    apply h.congr hsame _ hisr'
    · rw [hthread]
      exact id
    · rw [hthread]
      exact h.thread
  cases pc with
  | loadControl =>
      have hspace : s.core.wfifo.length + wspace s.core.controlWord ≤ fifoDepth := by
        have hroom := h.room
        rw [wspace_controlWord hroom]
        omega
      simp only [irq] at hi
      split at hi
      · cases hi
        exact h.congr ⟨rfl, rfl, rfl, rfl⟩ h.thread trivial id
      · split at hi
        · cases hi
          exact h.congr ⟨rfl, rfl, rfl, rfl⟩ h.thread hspace id
        · cases hi
          exact h.congr ⟨rfl, rfl, rfl, rfl⟩ h.thread (txIsr_afterRx hspace) id
  | rxLoop control data =>
      apply onRx rfl
      simp only [irq] at hi
      split at hi
      · cases hi
        exact hinv
      · split at hi
        · cases hi
          exact hinv
        · split at hi
          · cases hi
            exact hinv
          · cases hi
  | rxDone control data =>
      apply onRx rfl
      simp only [irq] at hi
      split at hi
      all_goals
        cases hi
        exact txIsr_afterRx hinv
  | txLoop space =>
      simp only [irq] at hi
      split at hi
      · next hcond =>
          split at hi
          · cases hi
            obtain ⟨k, rfl⟩ := Nat.exists_eq_succ_of_ne_zero (Nat.pos_iff_ne_zero.mp hcond.1)
            exact tx_pop h hisr hcond.2
          · cases hi
      · next hcond =>
          split at hi
          · next hpos =>
              cases hi
              have hempty : s.driver.tx.inIdx = s.driver.tx.outIdx := by
                by_contra hne
                exact hcond ⟨hpos, fun heq => hne heq.symm⟩
              exact ⟨h.ring, h.out_prefix, h.room, h.woverflow, h.thread, trivial, Or.inl hempty⟩
          · cases hi
            exact h.congr ⟨rfl, rfl, rfl, rfl⟩ h.thread trivial id

/-! ## Runs -/

theorem take_result (c : WriteCall) : c.data.take c.result.toNat = c.data.take c.done := by
  have hresult : c.result.toNat = c.done := by
    unfold WriteCall.result
    split
    · exact Int.toNat_natCast c.done
    · next hdone =>
        rw [not_not.mp hdone]
        split
        all_goals rfl
  rw [hresult]

theorem TxIsr.anti {n m : Nat} {isr : Isr} (h : TxIsr n isr) (hm : m ≤ n) : TxIsr m isr := by
  cases isr with
  | idle | timeout => trivial
  | irq pc =>
      cases pc with
      | loadControl => trivial
      | rxLoop | rxDone | txLoop => exact Nat.le_trans (Nat.add_le_add_right hm _) h

theorem Tx.setThread {t t' : Thread} (h : Tx (A ++ s.thread.accepted) out s)
    (hthread : s.thread = t) (howes : ¬TxOwes t) (haccepted : t'.accepted = t.accepted)
    (ht : TxThread (A ++ s.thread.accepted) out.length s.driver.tx t') :
    Tx (A ++ t'.accepted) out { s with thread := t' } := by
  rw [haccepted, ← hthread]
  exact h.congr ⟨rfl, rfl, rfl, rfl⟩ ht h.isr (fun how => absurd (hthread ▸ how) howes)

theorem tx_thread (hsync : Sync s) (h : Tx (A ++ s.thread.accepted) (R ++ s.core.wfifo) s)
    (hstep : thread s = some s') : Tx (A ++ s'.thread.accepted) (R ++ s'.core.wfifo) s' := by
  simp only [thread] at hstep
  split at hstep
  · cases hstep
  · next hthread =>
      rw [(write_frame hsync hstep).1.wfifo]
      exact tx_write hsync h hthread hstep
  · next hthread =>
      obtain ⟨hcall, hsame, c', pc', hthread'⟩ := read_frame hsync hstep
      rw [hthread] at h
      rw [hthread', hsame.wfifo]
      refine h.congr hsame ?_ ?_ (by rw [hthread]; exact False.elim)
      · rw [hthread']
        trivial
      · rw [hcall.isr]
        exact h.isr
  · next hthread =>
      obtain ⟨_, rfl⟩ := close_frame hstep
      exact h.setThread hthread id rfl trivial

theorem tx_hostTake {b : Byte} (h : Tx log (R ++ s.core.wfifo) s)
    (hhead : s.core.wfifo.head? = some b) :
    Tx log (R ++ [b] ++ s.core.hostTake.wfifo) { s with core := s.core.hostTake } := by
  have hcons : [b] ++ s.core.wfifo.tail = s.core.wfifo := List.cons_head?_tail hhead
  have hlen : s.core.wfifo.tail.length ≤ s.core.wfifo.length := by
    rw [List.length_tail]
    exact Nat.sub_le _ _
  change Tx log (R ++ [b] ++ s.core.wfifo.tail) _
  rw [List.append_assoc, hcons]
  exact ⟨h.ring, h.out_prefix, Nat.le_trans hlen h.room, h.woverflow, h.thread, h.isr.anti hlen, h.wake⟩

theorem txIsr_of_not_irq {n : Nat} {isr : Isr} (h : ∀ pc, isr ≠ .irq pc) : TxIsr n isr := by
  cases isr with
  | idle | timeout => trivial
  | irq pc => exact absurd rfl (h pc)

theorem tx_step (hsync : Sync s) (h : Tx (A ++ s.thread.accepted) (R ++ s.core.wfifo) s)
    (hstep : step s e = some s') :
    Tx (A ++ accepted [e] ++ s'.thread.accepted) (R ++ hostReceived [e] ++ s'.core.wfifo) s' := by
  have silent (ha : accepted [e] = []) (hr : hostReceived [e] = [])
      (htx : Tx (A ++ s'.thread.accepted) (R ++ s'.core.wfifo) s') :
      Tx (A ++ accepted [e] ++ s'.thread.accepted) (R ++ hostReceived [e] ++ s'.core.wfifo)
        s' := by
    rwa [ha, hr, List.append_nil, List.append_nil]
  cases stepped hstep with
  | write hidle =>
      apply silent rfl rfl
      refine h.setThread hidle id ?_ ?_
      · rfl
      · change TxWrite _ _ _ _ (WriteCall.next _ 0)
        unfold WriteCall.next
        split
        · next hcount => exact hcount
        · next hcount => exact ⟨Nat.zero_le _, fun hlt => absurd hlt hcount⟩
  | read hidle | close hidle =>
      apply silent rfl rfl
      exact h.setThread hidle id rfl trivial
  | thread _ hstep =>
      apply silent rfl rfl
      exact tx_thread hsync h hstep
  | @returnWrite c hret =>
      rw [hret] at h
      have hlog : accepted [.returnWrite c] = c.data.take c.done := by
        change c.data.take c.result.toNat ++ [] = c.data.take c.done
        rw [List.append_nil, take_result]
      rw [hlog, show hostReceived [.returnWrite c] = [] from rfl, List.append_nil]
      change Tx (A ++ c.data.take c.done ++ []) _ _
      rw [List.append_nil]
      exact h.congr ⟨rfl, rfl, rfl, rfl⟩ trivial h.isr (by rw [hret]; exact False.elim)
  | returnRead hret | returnClose hret =>
      apply silent rfl rfl
      exact h.setThread hret id rfl trivial
  | enterIrq | enterTimeout =>
      apply silent rfl rfl
      exact h.congr ⟨rfl, rfl, rfl, rfl⟩ h.thread trivial id
  | irq hisr _ hstep =>
      apply silent rfl rfl
      rw [(irq_frame hsync hstep).2.1]
      exact tx_irq hsync h hisr hstep
  | @timeout pc =>
      apply silent rfl rfl
      obtain ⟨-, hsame, -, hthread, hisr⟩ := timeout_frame hsync pc
      rw [hsame.wfifo, hthread]
      refine h.congr hsame ?_ (txIsr_of_not_irq hisr) ?_
      · rw [hthread]
        exact h.thread
      · rw [hthread]
        exact id
  | @hostTake b hhead =>
      rw [show accepted [.hostTake b] = [] from rfl, List.append_nil]
      exact tx_hostTake h hhead
  | hostGive | hostPause =>
      apply silent rfl rfl
      exact h.congr ⟨rfl, rfl, rfl, rfl⟩ h.thread h.isr id

theorem tx_init (alarm : Bool) : Tx [] [] (init alarm) where
  ring := holds_empty (by decide) _
  out_prefix := List.prefix_refl []
  room := Nat.zero_le _
  woverflow := rfl
  thread := trivial
  isr := trivial
  wake := Or.inl rfl

theorem tx_run {alarm : Bool} (h : Runs step Always (init alarm) es s) :
    Tx (accepted es ++ s.thread.accepted) (hostReceived es ++ s.core.wfifo) s := by
  have hinv : Sync s ∧ Tx (accepted es ++ s.thread.accepted) (hostReceived es ++ s.core.wfifo) s := by
    apply h.invariant fun es s =>
      Sync s ∧ Tx (accepted es ++ s.thread.accepted) (hostReceived es ++ s.core.wfifo) s
    · exact ⟨sync_init alarm, tx_init alarm⟩
    · intro es s e s' hinv _ hstep
      have htx := tx_step hinv.1 hinv.2 hstep
      unfold accepted hostReceived at *
      rw [List.flatMap_append, List.flatMap_append]
      exact ⟨sync_step hinv.1 hstep, htx⟩
  exact hinv.2

/-! ## What the host receives -/

/-- What the calls accept reaches the host once and in order: it is with the host, in the
FIFO or in the buffer, and the FIFO never overflows. -/
theorem transmit_in_order {alarm : Bool} (h : Runs step Always (init alarm) es s) :
    hostReceived es ++ s.core.wfifo ++ s.driver.tx.contents bufLen =
        accepted es ++ s.thread.accepted ∧
      s.core.woverflow = false := by
  have hinv := tx_run h
  refine ⟨?_, hinv.woverflow⟩
  rw [hinv.ring.contents_eq]
  exact (List.prefix_iff_eq_append.mp hinv.out_prefix)

theorem transmit_in_order_echo : ∃ s, Runs step Always (init true) echo s ∧
    hostReceived echo ++ s.core.wfifo ++ s.driver.tx.contents bufLen =
      accepted echo ++ s.thread.accepted ∧ s.core.woverflow = false := by
  obtain ⟨s, hruns, -⟩ := Runs.of_exec_map (f := fun _ => ())
    (show (exec step Always (init true) echo).map _ = some () by decide +kernel)
  exact ⟨s, hruns, transmit_in_order hruns⟩

/-- While bytes wait in the buffer the transmit interrupt is enabled at the device, unless
a call is about to enable it: the routine runs as soon as the FIFO is nearly empty. -/
theorem transmit_wakes {alarm : Bool} (h : Runs step Always (init alarm) es s)
    (hwaiting : s.driver.tx.contents bufLen ≠ []) (howes : ¬TxOwes s.thread) :
    s.core.ienAE = true ∧ (s.core.wfifo.length ≤ 8 → s.core.avIrq = true) := by
  have hinv := tx_run h
  have hien : s.core.ienAE = true := by
    rcases hinv.wake with hempty | hien | how
    · rw [hinv.ring.contents_eq, ← hinv.ring.empty_iff.mp hempty, List.drop_length] at hwaiting
      exact absurd rfl hwaiting
    · exact hien
    · exact absurd how howes
  refine ⟨hien, fun hlow => ?_⟩
  unfold JtagUart.avIrq JtagUart.ipenAE
  rw [hien, decide_eq_true hlow]
  rfl

theorem transmit_wakes_echo : ∃ s, Runs step Always (init true) (echo.take 21) s ∧
    s.core.ienAE = true := by
  obtain ⟨s, hruns, hview⟩ := Runs.of_exec_map
    (f := fun s => (s.thread, s.driver.tx.contents bufLen))
    (show (exec step Always (init true) (echo.take 21)).map _ = some (.idle, [0x41#8]) by
      decide +kernel)
  obtain ⟨hthread, hcontents⟩ := Prod.mk.inj hview
  refine ⟨s, hruns, (transmit_wakes hruns ?_ ?_).1⟩
  · rw [hcontents]
    exact List.cons_ne_nil _ _
  · rw [hthread]
    exact id

end Esd1.Hal
