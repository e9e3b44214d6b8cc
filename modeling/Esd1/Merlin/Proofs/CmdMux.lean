import Mathlib.Data.List.Chain
import Esd1.Merlin.CmdMux
import Esd1.Merlin.Proofs.Arbitrator

/-!
# The multiplexer keeps packets together

The grant is one sink's or no one's, it does not change inside a packet, and the top
priority stands behind the sink that has it.
-/

namespace Esd1.Merlin.CmdMux

open Circular Arbitrator Words

variable {r : Registers} {i : Inputs} {k : Nat}

structure Inv (r : Registers) : Prop where
  topPriority : ∃ k < 2, r.topPriorityReg = BitVec.twoPow 2 k
  savedGrant : r.savedGrant = 0#2 ∨
    ∃ k < 2, r.savedGrant = BitVec.twoPow 2 k ∧ r.topPriorityReg = BitVec.twoPow 2 ((k + 1) % 2)
  shareCount : r.shareCountZeroFlag = true

/-! ## The wires under a grant -/

theorem getLsbD_pair (a b : Bool) (hk : k < 2) :
    (BitVec.ofBool a ++ BitVec.ofBool b).getLsbD k = if k = 0 then b else a := by
  have hall : ∀ a b : Bool, ∀ k < 2,
      (BitVec.ofBool a ++ BitVec.ofBool b).getLsbD k = if k = 0 then b else a := by decide
  exact hall a b k hk

theorem getLsbD_valid (hk : k < 2) : i.valid.getLsbD k = (i.sink k).valid := by
  rw [Inputs.valid, getLsbD_pair _ _ hk, Inputs.sink, apply_ite Sink.valid]

theorem getLsbD_lock (hk : k < 2) : i.lock.getLsbD k = (i.sink k).lock := by
  rw [Inputs.lock, getLsbD_pair _ _ hk, Inputs.sink, apply_ite Sink.lock]

theorem and_twoPow_ne_zero (x : BitVec 2) (hk : k < 2) :
    (x &&& BitVec.twoPow 2 k != 0#2) = x.getLsbD k := by
  rw [Bool.eq_iff_iff, bne_iff_ne, ne_eq, and_twoPow_eq_zero_iff hk, Bool.not_eq_false]

section Granted

variable (hk : k < 2) (hgrant : r.savedGrant = BitVec.twoPow 2 k)

theorem sinkReady_eq (hgrant : r.savedGrant = BitVec.twoPow 2 k) {j : Nat} (hj : j < 2) :
    sinkReady r i j = (i.srcReady && decide (k = j)) := by
  rw [sinkReady, hgrant, getLsbD_twoPow_of_lt hj]

include hk hgrant

theorem srcValid_eq : srcValid r i = (i.sink k).valid := by
  rw [srcValid, hgrant, BitVec.and_comm, and_twoPow_ne_zero _ hk, getLsbD_valid hk]

theorem srcPayload_eq : srcPayload r i = (i.sink k).payload := by
  rw [srcPayload, hgrant, getLsbD_twoPow_of_lt (by decide), getLsbD_twoPow_of_lt (by decide),
    Inputs.sink]
  by_cases hzero : k = 0
  · rw [decide_eq_true hzero, decide_eq_false (by omega), if_pos hzero]
    exact (congrArg₂ (· ||| ·) BitVec.and_allOnes BitVec.and_zero).trans BitVec.or_zero
  · rw [decide_eq_false hzero, decide_eq_true (by omega), if_neg hzero]
    exact (congrArg₂ (· ||| ·) BitVec.and_zero BitVec.and_allOnes).trans BitVec.zero_or

theorem lastCycle_eq : lastCycle r i = ((i.sink k).valid && i.srcReady &&
    (i.sink k).payload.getLsbD 0 && !(i.sink k).lock) := by
  rw [lastCycle, srcValid_eq hk hgrant, srcEndofpacket, srcPayload_eq hk hgrant, hgrant,
    and_twoPow_ne_zero _ hk, getLsbD_lock hk]

end Granted

theorem srcValid_of_none (hgrant : r.savedGrant = 0#2) : srcValid r i = false := by
  rw [srcValid, hgrant, BitVec.zero_and]
  rfl

theorem lastCycle_of_none (hgrant : r.savedGrant = 0#2) : lastCycle r i = false := by
  rw [lastCycle, srcValid_of_none hgrant, Bool.false_and, Bool.false_and, Bool.false_and]

/-! ## One edge -/

theorem nextGrantShare_eq (r : Registers) (i : Inputs) : nextGrantShare r i = 0#1 := by
  simp only [nextGrantShare, BitVec.zero_and, BitVec.or_zero]

namespace Inv

/-- While a packet is under way the grant stays. -/
theorem held (h : updateGrant r i = false) : (edge r i).savedGrant = r.savedGrant ∧
    (edge r i).topPriorityReg = r.topPriorityReg := by
  have htop : (edge r i).topPriorityReg = Arbitrator.edge arb r.topPriorityReg
      ⟨request r i, updateGrant r i, srcValid r i⟩ := rfl
  have hsaved : (edge r i).savedGrant =
      if updateGrant r i then nextGrant r i else r.savedGrant := rfl
  rw [htop, hsaved, h]
  exact ⟨rfl, rfl⟩

/-- Between packets the grant goes to the next sink that requests, or is taken away. -/
theorem updated (h : updateGrant r i = true) (hk : k < 2)
    (htop : r.topPriorityReg = BitVec.twoPow 2 k) :
    (request r i = 0#2 ∧ (edge r i).savedGrant = 0#2 ∧
      (edge r i).topPriorityReg = r.topPriorityReg) ∨
    ∃ j, IsNext 2 (Wants (request r i)) k j ∧ (edge r i).savedGrant = BitVec.twoPow 2 j ∧
      (edge r i).topPriorityReg = BitVec.twoPow 2 ((j + 1) % 2) := by
  have hsaved : (edge r i).savedGrant =
      if updateGrant r i then nextGrant r i else r.savedGrant := rfl
  have htop' : (edge r i).topPriorityReg = Arbitrator.edge arb r.topPriorityReg
      ⟨request r i, updateGrant r i, srcValid r i⟩ := rfl
  rw [hsaved, htop', h, if_pos rfl]
  by_cases hrequest : request r i = 0#2
  · refine Or.inl ⟨hrequest, ?_, ?_⟩
    · rw [nextGrant, hrequest, grant_zero]
    · rw [hrequest]
      rfl
  · obtain ⟨j, hj⟩ := exists_next hrequest hk
    refine Or.inr ⟨j, hj, ?_, ?_⟩
    · exact grant_eq nofun hk ((topPriority_eq rfl (by decide) _).trans htop) hj
    · rw [htop, Arbitrator.edge_eq rfl (by decide) hk hj, if_pos rfl]

theorem edge (h : Inv r) (i : Inputs) : Inv (edge r i) := by
  obtain ⟨⟨k, hk, htop⟩, hsaved, hshare⟩ := h
  have hcount : (CmdMux.edge r i).shareCountZeroFlag = true := by
    change (if updateGrant r i then nextGrantShare r i == 0#1
      else if lastCycle r i then p1ShareCount r == 0#1 else r.shareCountZeroFlag) = true
    rw [nextGrantShare_eq, p1ShareCount, hshare]
    split
    · rfl
    · split <;> rfl
  cases hupdate : updateGrant r i with
  | false =>
      obtain ⟨hsaved', htop'⟩ := held hupdate
      rw [← hsaved', ← htop'] at hsaved
      exact ⟨⟨k, hk, htop'.trans htop⟩, hsaved, hcount⟩
  | true =>
      rcases updated hupdate hk htop with ⟨-, hsaved', htop'⟩ | ⟨j, hj, hsaved', htop'⟩
      · exact ⟨⟨k, hk, htop'.trans htop⟩, Or.inl hsaved', hcount⟩
      · exact ⟨⟨_, Nat.mod_lt _ (by decide), htop'⟩, Or.inr ⟨j, hj.lt, hsaved', htop'⟩, hcount⟩

theorem reset : Inv machine.reset where
  topPriority := ⟨0, by decide, rfl⟩
  savedGrant := Or.inl rfl
  shareCount := rfl

theorem run (u : Nat → Inputs) (t : Nat) : Inv (machine.run u t) :=
  machine.run_invariant Inv (fun _ _ => True) reset (fun _ i h _ => h.edge i) u t
    fun _ _ => trivial

end Inv

/-! ## Turns -/

section Run

variable (u : Nat → Inputs)

theorem wants_of_valid (hk : k < 2) (hvalid : (i.sink k).valid = true) :
    Wants (request r i) k := by
  rw [Wants, request, BitVec.getLsbD_or, getLsbD_valid hk, hvalid, Bool.true_or]

theorem updateGrant_of_lastCycle (h : Inv r) (hlast : lastCycle r i = true) :
    updateGrant r i = true := by
  rw [updateGrant, hlast, h.shareCount, Bool.true_and, Bool.or_true]

/-- When the other sink has the grant and the grant is given anew, a sink that waits gets it. -/
theorem granted_next (h : Inv r) {j : Nat} (hj : j < 2) (hsaved : r.savedGrant = BitVec.twoPow 2 j)
    (hupdate : updateGrant r i = true) (hk : k < 2) (hne : k ≠ j)
    (hvalid : (i.sink k).valid = true) : (edge r i).savedGrant = BitVec.twoPow 2 k := by
  have hwants := wants_of_valid (r := r) hk hvalid
  have htop : r.topPriorityReg = BitVec.twoPow 2 k := by
    rcases h.savedGrant with hnone | ⟨j', hj', hsaved', htop⟩
    · rw [hnone] at hsaved
      have hbit := congrArg (BitVec.getLsbD · j) hsaved
      simp only [BitVec.getLsbD_zero, getLsbD_twoPow_of_lt hj, decide_true] at hbit
      exact absurd hbit Bool.false_ne_true
    · obtain rfl := twoPow_inj hj' (hsaved'.symm.trans hsaved)
      rw [htop]
      congr 1
      omega
  rcases Inv.updated hupdate hk htop with ⟨hrequest, -⟩ | ⟨j', hj', hsaved', -⟩
  · rw [hrequest] at hwants
    exact absurd (BitVec.getLsbD_zero.symm.trans hwants) Bool.false_ne_true
  · rw [hsaved', hj'.eq_of_wants hk hwants]

theorem granted_of_lastCycle (h : Inv r) (hk : k < 2) (hvalid : (i.sink k).valid = true)
    (hlast : lastCycle r i = true) (hother : r.savedGrant ≠ BitVec.twoPow 2 k) :
    (edge r i).savedGrant = BitVec.twoPow 2 k := by
  rcases h.savedGrant with hnone | ⟨j, hj, hsaved, -⟩
  · rw [lastCycle_of_none hnone] at hlast
    exact absurd hlast Bool.false_ne_true
  · apply granted_next h hj hsaved (updateGrant_of_lastCycle h hlast) hk _ hvalid
    rintro rfl
    exact hother hsaved

/-- No sink sends two packets in a row while the other one waits. -/
theorem takes_turns {t : Nat} (hk : k < 2) (hvalid : ((u t).sink k).valid = true)
    (hlast : lastCycle (machine.run u t) (u t) = true)
    (hother : (machine.run u t).savedGrant ≠ BitVec.twoPow 2 k) :
    (machine.run u (t + 1)).savedGrant = BitVec.twoPow 2 k :=
  granted_of_lastCycle (Inv.run u t) hk hvalid hlast hother

/-- If every packet comes to its end, a sink that keeps its beat valid gets the grant. -/
theorem granted_eventually (s : Nat) (hk : k < 2)
    (hvalid : ∀ t, s ≤ t → ((u t).sink k).valid = true)
    (hends : ∀ t, s ≤ t → srcValid (machine.run u t) (u t) = true ∨
      (machine.run u t).packetInProgress = true →
      ∃ t', t ≤ t' ∧ lastCycle (machine.run u t') (u t') = true) :
    ∃ t, s ≤ t ∧ (machine.run u t).savedGrant = BitVec.twoPow 2 k := by
  by_contra hnever
  have hother (t : Nat) (ht : s ≤ t) : (machine.run u t).savedGrant ≠ BitVec.twoPow 2 k :=
    fun hgrant => hnever ⟨t, ht, hgrant⟩
  have hlast (t : Nat) (ht : s ≤ t) : lastCycle (machine.run u t) (u t) = false := by
    rw [← Bool.not_eq_true]
    intro hlast
    exact hother (t + 1) (Nat.le_succ_of_le ht)
      (granted_of_lastCycle (Inv.run u t) hk (hvalid t ht) hlast (hother t ht))
  have hupdate (t : Nat) (ht : s ≤ t) : updateGrant (machine.run u t) (u t) = true := by
    have hidle : ¬(srcValid (machine.run u t) (u t) = true ∨
        (machine.run u t).packetInProgress = true) := by
      intro hbusy
      obtain ⟨t', ht', hlast'⟩ := hends t ht hbusy
      rw [hlast t' (ht.trans ht')] at hlast'
      exact Bool.false_ne_true hlast'
    obtain ⟨hsrc, hprogress⟩ := not_or.mp hidle
    rw [Bool.not_eq_true] at hsrc hprogress
    rw [updateGrant, hsrc, hprogress]
    rfl
  -- two edges are enough then: the first may give the grant to the other sink
  obtain ⟨k', hk', htop⟩ := (Inv.run u s).topPriority
  rcases Inv.updated (hupdate s (Nat.le_refl s)) hk' htop with ⟨hrequest, -⟩ | ⟨j, hj, hsaved, -⟩
  · have hwants := wants_of_valid (r := machine.run u s) hk (hvalid s (Nat.le_refl s))
    rw [hrequest] at hwants
    exact Bool.false_ne_true (BitVec.getLsbD_zero.symm.trans hwants)
  · have hne : k ≠ j := by
      rintro rfl
      exact hother (s + 1) (Nat.le_succ s) hsaved
    exact hother (s + 1 + 1) (by omega) (granted_next (Inv.run u (s + 1)) hj.lt hsaved
      (hupdate (s + 1) (Nat.le_succ s)) hk hne (hvalid (s + 1) (Nat.le_succ s)))

/-! ## Beats -/

theorem srcBeat_of_none (hgrant : r.savedGrant = 0#2) : srcBeat r i = [] := by
  rw [srcBeat, srcValid_of_none hgrant, Bool.false_and, if_neg Bool.false_ne_true]

theorem srcBeat_eq (hk : k < 2) (hgrant : r.savedGrant = BitVec.twoPow 2 k) : srcBeat r i =
    if (i.sink k).valid && i.srcReady then [(k, (i.sink k).payload)] else [] := by
  have htag : (if r.savedGrant.getLsbD 0 then 0 else 1) = k := by
    rw [hgrant, getLsbD_twoPow_of_lt (by decide)]
    have hall : ∀ k < 2, (if decide (k = 0) = true then 0 else 1) = k := by decide
    exact hall k hk
  rw [srcBeat, srcValid_eq hk hgrant, srcPayload_eq hk hgrant, htag]

theorem sinkBeat_eq (h : Inv r) (hk : k < 2) :
    sinkBeat r i k = ((srcBeat r i).filter (·.1 = k)).map Prod.snd := by
  rcases h.savedGrant with hnone | ⟨j, hj, hsaved, -⟩
  · rw [srcBeat_of_none hnone, sinkBeat, sinkReady, hnone, BitVec.getLsbD_zero, Bool.and_false,
      Bool.false_and, if_neg Bool.false_ne_true]
    rfl
  · rw [srcBeat_eq hj hsaved, sinkBeat, sinkReady_eq hsaved hk]
    by_cases hjk : j = k
    · subst hjk
      rw [decide_eq_true rfl, Bool.and_true, Bool.and_comm]
      split
      · rw [List.filter_singleton, decide_eq_true rfl]
        rfl
      · rfl
    · rw [decide_eq_false hjk, Bool.and_false, Bool.false_and, if_neg Bool.false_ne_true]
      split
      · rw [List.filter_singleton, decide_eq_false hjk]
        rfl
      · rfl

/-- Every beat that a sink hands over is delivered, once and in order, and nothing else is. -/
theorem nothing_lost (hk : k < 2) (n : Nat) :
    handedOver u k n = ((delivered u n).filter (·.1 = k)).map Prod.snd := by
  induction n with
  | zero => rfl
  | succ n ih =>
      unfold handedOver delivered at ih ⊢
      rw [List.range_succ, List.flatMap_append, List.flatMap_append, List.flatMap_singleton,
        List.flatMap_singleton, List.filter_append, List.map_append, ih,
        sinkBeat_eq (Inv.run u n) hk]

theorem closes_payload (s : Sink) : closes s.payload = (s.payload.getLsbD 0 && !s.lock) := by
  have hlock : s.payload.getLsbD 59 = s.lock := by
    rw [Sink.payload, BitVec.getLsbD_append, if_neg (by decide), BitVec.getLsbD_append,
      if_neg (by decide), BitVec.getLsbD_append, if_pos (by decide)]
    rfl
  rw [closes, hlock]

theorem stays (hlast : lastCycle r i = false)
    (hbusy : r.packetInProgress = true ∨ srcValid r i = true) :
    (edge r i).savedGrant = r.savedGrant ∧ (edge r i).packetInProgress = true := by
  have hupdate : updateGrant r i = false := by
    rw [updateGrant, hlast, Bool.false_and, Bool.or_false]
    cases hbusy with
    | inl hprogress => rw [hprogress, Bool.not_true, Bool.false_and]
    | inr hvalid => rw [hvalid, Bool.not_true, Bool.and_false]
  refine ⟨(Inv.held hupdate).1, ?_⟩
  change (if lastCycle r i then false else if srcValid r i then true else r.packetInProgress) = true
  rw [hlast, if_neg Bool.false_ne_true]
  cases hbusy with
  | inl hprogress => rw [hprogress, ite_self]
  | inr hvalid => rw [if_pos hvalid]

/-- The beat was the last one, or its packet goes on. -/
def GoesOn (r : Registers) (a : Nat × BitVec 106) : Prop :=
  closes a.2 = true ∨
    a.1 < 2 ∧ r.savedGrant = BitVec.twoPow 2 a.1 ∧ r.packetInProgress = true

theorem GoesOn.edge {a : Nat × BitVec 106} (h : GoesOn r a) (hbeat : srcBeat r i = []) :
    GoesOn (edge r i) a := by
  rcases h with hcloses | ⟨ha, hsaved, hprogress⟩
  · exact Or.inl hcloses
  · have hlast : lastCycle r i = false := by
      rw [srcBeat_eq ha hsaved] at hbeat
      rw [lastCycle_eq ha hsaved]
      split at hbeat
      · cases hbeat
      · next hno => rw [Bool.not_eq_true] at hno; rw [hno, Bool.false_and, Bool.false_and]
    obtain ⟨hsaved', hprogress'⟩ := stays hlast (Or.inl hprogress)
    exact Or.inr ⟨ha, hsaved'.trans hsaved, hprogress'⟩

theorem goesOn_beat (h : Inv r) {a : Nat × BitVec 106} (hbeat : srcBeat r i = [a]) :
    r.savedGrant = BitVec.twoPow 2 a.1 ∧ GoesOn (CmdMux.edge r i) a := by
  rcases h.savedGrant with hnone | ⟨j, hj, hsaved, -⟩
  · rw [srcBeat_of_none hnone] at hbeat
    cases hbeat
  · rw [srcBeat_eq hj hsaved] at hbeat
    split at hbeat
    · next hmoves =>
        cases hbeat
        refine ⟨hsaved, ?_⟩
        cases hcloses : closes (i.sink j).payload with
        | true => exact Or.inl hcloses
        | false =>
            rw [closes_payload] at hcloses
            have hlast : lastCycle r i = false := by
              rw [lastCycle_eq hj hsaved, Bool.and_assoc, hcloses, Bool.and_false]
            have hvalid : srcValid r i = true := by
              rw [srcValid_eq hj hsaved]
              exact (Bool.and_eq_true_iff.mp hmoves).1
            obtain ⟨hsaved', hprogress'⟩ := stays hlast (Or.inr hvalid)
            exact Or.inr ⟨hj, hsaved'.trans hsaved, hprogress'⟩
    · cases hbeat

/-- A beat that does not end its packet, or whose packet holds the slave for more, is
followed by a beat of the same sink. -/
theorem packets_whole (n : Nat) :
    (delivered u n).IsChain fun a b => closes a.2 = true ∨ a.1 = b.1 := by
  have hrun : (delivered u n).IsChain (fun a b => closes a.2 = true ∨ a.1 = b.1) ∧
      ∀ a ∈ (delivered u n).getLast?, GoesOn (machine.run u n) a := by
    induction n with
    | zero => exact ⟨List.isChain_nil, fun a ha => by cases ha⟩
    | succ n ih =>
        obtain ⟨hchain, hlast⟩ := ih
        have hsucc : delivered u (n + 1) =
            delivered u n ++ srcBeat (machine.run u n) (u n) := by
          unfold delivered
          rw [List.range_succ, List.flatMap_append, List.flatMap_singleton]
        rw [hsucc]
        cases hbeat : srcBeat (machine.run u n) (u n) with
        | nil =>
            rw [List.append_nil]
            exact ⟨hchain, fun a ha => (hlast a ha).edge hbeat⟩
        | cons b bs =>
            have hbs : bs = [] := by
              unfold srcBeat at hbeat
              split at hbeat
              · cases hbeat
                rfl
              · cases hbeat
            subst hbs
            obtain ⟨hsaved, hgoes⟩ := goesOn_beat (Inv.run u n) hbeat
            constructor
            · apply hchain.append (List.isChain_singleton b)
              intro a ha b' hb'
              obtain rfl : b = b' := Option.some.inj hb'
              apply (hlast a ha).imp_right
              rintro ⟨ha, hsaved', -⟩
              exact twoPow_inj ha (hsaved'.symm.trans hsaved)
            · intro a ha
              rw [List.getLast?_append] at ha
              obtain rfl : b = a := Option.some.inj ha
              exact hgoes
  exact hrun.1

end Run

/-! Both sinks send packets of one beat all the time. -/

def oneBeat (channel : BitVec 9) : Sink := ⟨true, 0#95, channel, true, true⟩

def both (_ : Nat) : Inputs := ⟨oneBeat 1#9, oneBeat 2#9, true⟩

theorem takes_turns_both :
    (machine.run both 2).savedGrant = BitVec.twoPow 2 1 :=
  takes_turns both (by decide) rfl (by decide +kernel) (by decide +kernel)

theorem nothing_lost_both :
    handedOver both 1 5 = ((delivered both 5).filter (·.1 = 1)).map Prod.snd :=
  nothing_lost both (by decide) 5

theorem granted_eventually_both :
    ∃ t, 0 ≤ t ∧ (machine.run both t).savedGrant = BitVec.twoPow 2 1 := by
  have hone (k : Nat) : ((both 0).sink k).valid = true ∧
      ((both 0).sink k).payload.getLsbD 0 = true ∧ ((both 0).sink k).lock = false := by
    rw [Inputs.sink]
    split <;> decide
  have hlast {r : Registers} (h : Inv r) (hvalid : srcValid r (both 0) = true) :
      lastCycle r (both 0) = true := by
    rcases h.savedGrant with hnone | ⟨j, hj, hsaved, -⟩
    · rw [srcValid_of_none hnone] at hvalid
      exact absurd hvalid Bool.false_ne_true
    · rw [lastCycle_eq hj hsaved, (hone j).1, (hone j).2.1, (hone j).2.2]
      rfl
  have hidle (t : Nat) : (machine.run both t).packetInProgress = false := by
    induction t with
    | zero => rfl
    | succ t ih =>
        change (if lastCycle (machine.run both t) (both 0) then false
          else if srcValid (machine.run both t) (both 0) then true
          else (machine.run both t).packetInProgress) = false
        cases hvalid : srcValid (machine.run both t) (both 0) with
        | true => rw [if_pos (hlast (Inv.run both t) hvalid)]
        | false => rw [ih, if_neg Bool.false_ne_true, ite_self]
  apply granted_eventually both 0 (by decide) (fun t _ => (hone 1).1)
  rintro t - (hvalid | hprogress)
  · exact ⟨t, Nat.le_refl t, hlast (Inv.run both t) hvalid⟩
  · rw [hidle t] at hprogress
    exact absurd hprogress Bool.false_ne_true

end Esd1.Merlin.CmdMux
