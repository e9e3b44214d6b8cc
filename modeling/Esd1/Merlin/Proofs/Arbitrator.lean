import Esd1.Circular.Turns
import Esd1.Merlin.Arbitrator

/-!
# The arbitrator takes turns

Both adders add.  So the grant goes to the first requester from the top priority on, which
is one of the requesters at all times, and no one is passed over more than once by each of
the others.
-/

namespace Esd1.Merlin

open Circular Words

/-! ## The adders -/

section Adder

variable {w : Nat} (a b : BitVec w)

theorem fullAdder_eq_add : fullAdder a b = a + b := by
  unfold fullAdder
  apply BitVec.iunfoldr_replace_snd (fun i => BitVec.carry i a b false) (a + b)
  · exact BitVec.carry_zero
  · intro i
    have hadd := BitVec.getLsbD_add i.isLt a b
    rw [← BitVec.getLsbD_eq_getElem, hadd, BitVec.carry_succ, fullAdderStage]
    by_cases hi : i.val = 0
    · rw [if_pos hi, hi, BitVec.carry_zero, Bool.atLeastTwo_false_right, Bool.xor_false]
    · rw [if_neg hi]
      generalize a.getLsbD i = x, b.getLsbD i = y, BitVec.carry i a b false = c
      revert x y c
      decide

theorem carryChain_eq_add : carryChain a b = a + b := by
  unfold carryChain
  apply BitVec.eq_of_toNat_eq
  have ha := a.isLt
  have hb := b.isLt
  have hpow : 2 ^ (w + 1) = 2 * 2 ^ w := Nat.pow_succ'
  have hsum : a.toNat + b.toNat < 2 ^ (w + 1) := by omega
  have ha' : a.toNat < 2 ^ (w + 1) := by omega
  have hb' : b.toNat < 2 ^ (w + 1) := by omega
  rw [BitVec.toNat_setWidth, BitVec.toNat_add, BitVec.toNat_setWidth, BitVec.toNat_setWidth,
    BitVec.toNat_add, Nat.mod_eq_of_lt ha', Nat.mod_eq_of_lt hb', Nat.mod_eq_of_lt hsum]

theorem arbAdder_eq_add : arbAdder a b = a + b := by
  unfold arbAdder
  split
  · exact fullAdder_eq_add a b
  · exact carryChain_eq_add a b

end Adder

namespace Arbitrator

/-! ## The grant -/

section Grant

variable {n k i : Nat} {p : Params} {request : BitVec n}

abbrev Wants (x : BitVec n) (i : Nat) : Prop := x.getLsbD i = true

theorem not_append (x y : BitVec n) : ~~~x ++ ~~~y = ~~~(x ++ y) := BitVec.not_append.symm

theorem exists_next (hrequest : request ≠ 0#n) (hk : k < n) :
    ∃ i, IsNext n (Wants request) k i := by
  by_contra hnone
  apply hrequest
  apply BitVec.eq_of_getLsbD_eq
  intro j hj
  rw [BitVec.getLsbD_zero, ← Bool.not_eq_true]
  exact fun hbit => hnone (IsNext.exists_of_wants hk hj hbit)

variable {topPriorityReg : BitVec n}

/-- The grant goes to the first requester from the top priority on. -/
theorem grant_eq (harb : p.scheme ≠ .noArb) (hk : k < n)
    (htop : topPriority p topPriorityReg = BitVec.twoPow n k)
    (h : IsNext n (Wants request) k i) : grant p topPriorityReg request = BitVec.twoPow n i := by
  unfold grant
  rw [htop, zero_append_twoPow hk, arbAdder_eq_add, not_append]
  split
  · next heq => exact (harb heq).elim
  · exact search_eq_twoPow h hk rfl

theorem grant_zero : grant p topPriorityReg 0#n = 0#n := by
  unfold grant
  split
  · rfl
  · have hzero : 0#n ++ 0#n = 0#(n + n) := BitVec.zero_append_zero
    simp only [hzero, BitVec.zero_and, BitVec.extractLsb'_zero, BitVec.or_zero]

end Grant

/-! ## Runs -/

/-- In an unpipelined arbitrator the top priority is saved only while someone requests. -/
def Promised {n : Nat} (p : Params) (i : Inputs n) : Prop :=
  p.pipeline = false → i.incrementTopPriority = false → i.saveTopPriority = true →
    i.request ≠ 0#n

section Run

variable {n : Nat} {p : Params}

theorem topPriority_eq (hrr : p.scheme = .roundRobin) (hn : 1 < n) (x : BitVec n) :
    topPriority p x = x := if_pos ⟨hrr, hn⟩

theorem edge_eq {k j : Nat} {i : Inputs n} (hrr : p.scheme = .roundRobin) (hn : 1 < n)
    (hk : k < n) (h : IsNext n (Wants i.request) k j) :
    edge p (BitVec.twoPow n k) i =
      if i.incrementTopPriority then BitVec.twoPow n ((j + 1) % n)
      else if p.pipeline then BitVec.twoPow n k
      else if i.saveTopPriority then BitVec.twoPow n j
      else BitVec.twoPow n k := by
  have hrequest : i.request ≠ 0#n := by
    intro hzero
    have hwant := h.want
    rw [hzero] at hwant
    exact absurd (BitVec.getLsbD_zero.symm.trans hwant) Bool.false_ne_true
  have harb : p.scheme ≠ .noArb := by
    rw [hrr]
    exact nofun
  unfold edge
  simp only [grant_eq harb hk (topPriority_eq hrr hn _) h, rotateLeft_twoPow hn h.lt, ne_eq,
    hrequest, not_false_eq_true, if_true]
  cases p.pipeline <;> cases i.incrementTopPriority <;> rfl

theorem exists_topPriority (hrr : p.scheme = .roundRobin) (hn : 1 < n) (u : Nat → Inputs n)
    (hu : ∀ t, Promised p (u t)) (t : Nat) :
    ∃ k < n, (machine n p).run u t = BitVec.twoPow n k := by
  apply (machine n p).run_invariant (fun x => ∃ k < n, x = BitVec.twoPow n k)
    (fun _ i => Promised p i) _ _ u t fun t _ => hu t
  · exact ⟨0, by omega, BitVec.twoPow_zero.symm⟩
  · rintro _ i ⟨k, hk, rfl⟩ hi
    change ∃ k' < n, edge p (BitVec.twoPow n k) i = BitVec.twoPow n k'
    by_cases hrequest : i.request = 0#n
    · unfold edge
      rw [rotateLeft_twoPow hn hk]
      have hsame : ∃ k' < n, BitVec.twoPow n k = BitVec.twoPow n k' := ⟨k, hk, rfl⟩
      have hnext : ∃ k' < n, BitVec.twoPow n ((k + 1) % n) = BitVec.twoPow n k' :=
        ⟨_, Nat.mod_lt _ (by omega), rfl⟩
      simp only [hrequest, ne_eq, not_true_eq_false, if_false]
      cases hpipeline : p.pipeline with
      | true =>
          simp only [if_true, ite_self]
          exact hsame
      | false =>
          cases hincrement : i.incrementTopPriority with
          | true => exact hnext
          | false =>
              cases hsave : i.saveTopPriority with
              | true => exact (hi hpipeline hincrement hsave hrequest).elim
              | false => exact hsame
    · obtain ⟨j, hj⟩ := exists_next hrequest hk
      rw [edge_eq hrr hn hk hj]
      split
      · exact ⟨_, Nat.mod_lt _ (by omega), rfl⟩
      · split
        · exact ⟨k, hk, rfl⟩
        · split
          · exact ⟨j, hj.lt, rfl⟩
          · exact ⟨k, hk, rfl⟩

/-- At every edge the grant is the bit of the first requester from the top priority on, or
zero if there is none. -/
theorem grants_next (hrr : p.scheme = .roundRobin) (hn : 1 < n) (u : Nat → Inputs n)
    (hu : ∀ t, Promised p (u t)) (t : Nat) :
    ∃ k < n, (machine n p).run u t = BitVec.twoPow n k ∧
      ((u t).request = 0#n → grant p ((machine n p).run u t) (u t).request = 0#n) ∧
      ((u t).request ≠ 0#n → ∃ i, IsNext n (Wants (u t).request) k i ∧
        grant p ((machine n p).run u t) (u t).request = BitVec.twoPow n i) := by
  obtain ⟨k, hk, hrun⟩ := exists_topPriority hrr hn u hu t
  have harb : p.scheme ≠ .noArb := by
    rw [hrr]
    exact nofun
  refine ⟨k, hk, hrun, ?_, ?_⟩
  · intro hzero
    rw [hzero, grant_zero]
  · intro hrequest
    obtain ⟨i, hi⟩ := exists_next hrequest hk
    refine ⟨i, hi, grant_eq harb hk ?_ hi⟩
    rw [topPriority_eq hrr hn, hrun]

/-- A requester that keeps requesting sees at most `n - 1` grants go to others. -/
theorem bounded_waiting (hrr : p.scheme = .roundRobin) (hn : 1 < n) (u : Nat → Inputs n)
    (hu : ∀ t, Promised p (u t)) {i : Nat} (hi : i < n) (s e : Nat)
    (hwants : ∀ t < e, Wants (u (s + t)).request i)
    (hgrant : ∀ t < e, (u (s + t)).incrementTopPriority = true →
      grant p ((machine n p).run u (s + t)) (u (s + t)).request ≠ BitVec.twoPow n i) :
    Nat.count (fun t => (u (s + t)).incrementTopPriority = true) e ≤ n - 1 := by
  choose place hplace hrun using exists_topPriority hrr hn u hu
  have hedge (t : Nat) (ht : t < e) : ∃ j, IsNext n (Wants (u (s + t)).request) (place (s + t)) j ∧
      BitVec.twoPow n (place (s + t + 1)) =
        if (u (s + t)).incrementTopPriority then BitVec.twoPow n ((j + 1) % n)
        else if p.pipeline then BitVec.twoPow n (place (s + t))
        else if (u (s + t)).saveTopPriority then BitVec.twoPow n j
        else BitVec.twoPow n (place (s + t)) := by
    obtain ⟨j, hj⟩ := IsNext.exists_of_wants (hplace (s + t)) hi (hwants t ht)
    refine ⟨j, hj, ?_⟩
    rw [← hrun (s + t + 1), Clocked.Machine.run_succ, hrun (s + t)]
    exact edge_eq hrr hn (hplace (s + t)) hj
  have harb : p.scheme ≠ .noArb := by
    rw [hrr]
    exact nofun
  have hturn (t : Nat) (ht : t < e) (hincrement : (u (s + t)).incrementTopPriority = true) :
      ahead n (place (s + t + 1)) i < ahead n (place (s + t)) i := by
    obtain ⟨j, hj, hplaced⟩ := hedge t ht
    rw [if_pos hincrement] at hplaced
    rw [twoPow_inj (hplace _) hplaced]
    apply hj.nearer (hplace (s + t)) hi (hwants t ht)
    rintro rfl
    apply hgrant t ht hincrement
    apply grant_eq harb (hplace (s + t)) _ hj
    rw [topPriority_eq hrr hn, hrun]
  have hother (t : Nat) (ht : t < e) (hincrement : ¬(u (s + t)).incrementTopPriority = true) :
      ahead n (place (s + t + 1)) i ≤ ahead n (place (s + t)) i := by
    obtain ⟨j, hj, hplaced⟩ := hedge t ht
    rw [if_neg hincrement] at hplaced
    split at hplaced
    · rw [twoPow_inj (hplace _) hplaced]
    · split at hplaced
      · rw [twoPow_inj (hplace _) hplaced]
        exact hj.not_further (hplace (s + t)) hi (hwants t ht)
      · rw [twoPow_inj (hplace _) hplaced]
  have hcount := @waits n i (fun t => place (s + t))
    (fun t => (u (s + t)).incrementTopPriority = true) _ e hturn hother
  have hlt : ahead n (place (s + 0)) i < n := ahead_lt (by omega) _ i
  omega

def roundRobin : Params := ⟨.roundRobin, true⟩

def busy (_ : Nat) : Inputs 3 := ⟨7#3, true, false⟩

theorem promised_busy (t : Nat) : Promised roundRobin (busy t) := nofun

theorem grants_next_busy : ∃ k < 3, (machine 3 roundRobin).run busy 4 = BitVec.twoPow 3 k ∧
    ∃ i, IsNext 3 (Wants 7#3) k i ∧
      grant roundRobin ((machine 3 roundRobin).run busy 4) 7#3 = BitVec.twoPow 3 i := by
  obtain ⟨k, hk, hrun, -, hgrant⟩ := grants_next (p := roundRobin) rfl (by decide) busy
    promised_busy 4
  exact ⟨k, hk, hrun, hgrant (by decide)⟩

theorem bounded_waiting_busy :
    Nat.count (fun t => (busy (0 + t)).incrementTopPriority = true) 2 ≤ 3 - 1 :=
  bounded_waiting (p := roundRobin) (i := 2) rfl (by decide) busy promised_busy (by decide) 0 2
    (by decide) (by decide +kernel)

end Run

end Arbitrator

end Esd1.Merlin
