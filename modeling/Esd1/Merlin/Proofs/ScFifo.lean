import Mathlib.Data.List.Basic
import Esd1.Merlin.ScFifo

/-!
# The FIFO is a queue

The occupancy bits count: the first `c` of them are set.  An edge is then a step of a queue
of at most `depth` entries.
-/

namespace Esd1.Merlin.ScFifo

variable {w : Nat} {p : Params} {r : Registers w} {i : Inputs w} {c : Nat}

/-- The slots below `c` are occupied. -/
structure Holds (p : Params) (r : Registers w) (c : Nat) : Prop where
  le : c ≤ p.depth
  memUsed : ∀ j < p.depth, r.memUsed j = decide (j < c)

theorem filter_range_lt {n : Nat} (hc : c ≤ n) (f : Nat → Bool)
    (hf : ∀ j < n, f j = decide (j < c)) : (List.range n).filter f = List.range c := by
  induction n with
  | zero =>
      rw [Nat.le_zero.mp hc]
      rfl
  | succ n ih =>
      rw [List.range_succ, List.filter_append, List.filter_singleton, hf n (Nat.lt_succ_self n)]
      by_cases hn : n < c
      · have hlow : (List.range n).filter f = List.range n := by
          rw [List.filter_eq_self]
          intro j hj
          have hj := List.mem_range.mp hj
          rw [hf j (Nat.lt_succ_of_lt hj), decide_eq_true (Nat.lt_trans hj hn)]
        rw [hlow, decide_eq_true hn, Nat.le_antisymm hc hn, List.range_succ]
        rfl
      · rw [ih (Nat.not_lt.mp hn) fun j hj => hf j (Nat.lt_succ_of_lt hj), decide_eq_false hn]
        exact List.append_nil _

theorem Holds.contents_eq (h : Holds p r c) : contents p r = (List.range c).map r.mem := by
  rw [contents, filter_range_lt h.le r.memUsed h.memUsed]

theorem Holds.contents_length (h : Holds p r c) : (contents p r).length = c := by
  rw [h.contents_eq, List.length_map, List.length_range]

/-! ## The wires -/

theorem read_eq : read p r i = (outValid p r i && i.outReady) := by
  unfold read internalOutReady
  cases i.outReady <;> cases outValid p r i <;> rfl

section Wires

variable (h : Holds p r c) (hdepth : 0 < p.depth)

include h hdepth

theorem outValid_eq : outValid p r i = (decide (0 < c) || p.lookahead && i.inValid) := by
  unfold outValid empty
  rw [h.memUsed 0 hdepth]
  cases p.lookahead <;> cases i.inValid <;> cases decide (0 < c) <;> rfl

theorem inReady_eq :
    inReady p r i = (decide (c < p.depth) || decide (p.depth = 1) && read p r i) := by
  have hle := h.le
  unfold inReady full
  by_cases hone : p.depth = 1
  · rw [if_pos hone, h.memUsed 0 hdepth, decide_eq_true hone, hone]
    by_cases hc : 0 < c
    · rw [decide_eq_true hc, decide_eq_false (by omega)]
      cases read p r i <;> rfl
    · rw [decide_eq_false hc, decide_eq_true (by omega)]
      rfl
  · rw [if_neg hone, h.memUsed (p.depth - 1) (by omega), decide_eq_false hone, Bool.false_and,
      Bool.or_false, ← decide_not, decide_eq_decide]
    omega

/-- An empty FIFO is read only with lookahead, when it takes an entry too. -/
theorem lookahead_of_read (hread : read p r i = true) (hc : c = 0) :
    p.lookahead = true ∧ i.inValid = true ∧ write p r i = true := by
  have hvalid := hread
  rw [read_eq, Bool.and_eq_true, outValid_eq h hdepth, hc, decide_eq_false (Nat.lt_irrefl 0),
    Bool.false_or, Bool.and_eq_true] at hvalid
  refine ⟨hvalid.1.1, hvalid.1.2, ?_⟩
  rw [write, inReady_eq h hdepth, hc, decide_eq_true hdepth, Bool.true_or, hvalid.1.2]
  rfl

theorem lt_of_write (hwrite : write p r i = true) (hread : read p r i = false) :
    c < p.depth := by
  rw [write, inReady_eq h hdepth, hread, Bool.and_false, Bool.or_false, Bool.and_eq_true,
    decide_eq_true_iff] at hwrite
  exact hwrite.1

/-- What is read is the oldest entry. -/
theorem outPayload_eq (hc : 0 < c) : outPayload p r i = r.mem 0 := by
  rw [outPayload, h.memUsed 0 hdepth, decide_eq_true hc, Bool.not_true, Bool.and_false,
    Bool.false_and, if_neg Bool.false_ne_true]

end Wires

/-! ## The edge -/

section Edge

variable (h : Holds p r c)

include h

theorem memEdge_shift (hread : read p r i = true) {j : Nat} (hj : j + 1 < c) :
    memEdge p r i j = r.mem (j + 1) := by
  have hlt : j + 1 < p.depth := Nat.lt_of_lt_of_le hj h.le
  rw [memEdge, if_pos hlt, hread, Bool.true_or, if_pos rfl, h.memUsed (j + 1) hlt,
    decide_eq_true hj, Bool.not_true, if_neg Bool.false_ne_true]

theorem memEdge_held (hread : read p r i = false) (hdepth : p.depth = 1 → write p r i = false)
    {j : Nat} (hj : j < c) : memEdge p r i j = r.mem j := by
  have hused := h.memUsed j (Nat.lt_of_lt_of_le hj h.le)
  rw [decide_eq_true hj] at hused
  rw [memEdge, hread, hused, Bool.false_or, Bool.not_true, if_neg Bool.false_ne_true,
    if_neg Bool.false_ne_true]
  split
  · rfl
  · split
    · next hone => rw [hdepth hone, if_neg Bool.false_ne_true]
    · rfl

/-- A new entry goes into the first slot that is free after the edge. -/
theorem memEdge_new (hwrite : write p r i = true) {j : Nat} (hj : j < p.depth)
    (hfree : j = c ∨ j + 1 = c ∧ read p r i = true ∧ (c < p.depth ∨ p.depth = 1)) :
    memEdge p r i j = i.inPayload := by
  have hnext (hlt : j + 1 < p.depth) : r.memUsed (j + 1) = false := by
    rw [h.memUsed (j + 1) hlt, decide_eq_false]
    omega
  rw [memEdge]
  split
  · next hlt =>
      have hfirst : (read p r i || !r.memUsed j) = true := by
        rcases hfree with heq | ⟨-, hread, -⟩
        · rw [h.memUsed j hj, decide_eq_false (by omega), Bool.not_false, Bool.or_true]
        · rw [hread, Bool.true_or]
      rw [if_pos hfirst, hnext hlt, Bool.not_false, if_pos rfl]
  · next hlast =>
      split
      · rfl
      · next hone =>
          have hused : r.memUsed j = false := by
            rw [h.memUsed j hj, decide_eq_false]
            omega
          rw [hused, Bool.not_false, if_pos rfl]

theorem memUsedEdge_eq (hdepth : 0 < p.depth) {c' : Nat}
    (hc' : c' + (read p r i).toNat = c + (write p r i).toNat) (hle : c' ≤ p.depth) :
    Holds p (edge p r i) c' where
  le := hle
  memUsed := by
    intro j hj
    change memUsedEdge p r i j = decide (j < c')
    have hc := h.le
    unfold memUsedEdge
    cases hwrite : write p r i with
    | false =>
        cases hread : read p r i with
        | false =>
            rw [hwrite, hread] at hc'
            obtain rfl : c' = c := hc'
            exact h.memUsed j hj
        | true =>
            rw [hwrite, hread] at hc'
            obtain rfl : c' + 1 = c := hc'
            simp only [Bool.false_xor, if_true, Bool.false_eq_true, if_false]
            split
            · next hzero =>
                subst hzero
                split
                · next hone =>
                    rw [h.memUsed 1 hone, decide_eq_decide]
                    omega
                · rw [eq_comm, decide_eq_false]
                  omega
            · split
              · rw [eq_comm, decide_eq_false]
                omega
              · rw [h.memUsed (j + 1) (by omega), decide_eq_decide]
                omega
    | true =>
        cases hread : read p r i with
        | false =>
            rw [hwrite, hread] at hc'
            obtain rfl : c' = c + 1 := hc'
            simp only [Bool.xor_false, if_true]
            split
            · rw [decide_eq_true (by omega)]
            · split
              · rw [h.memUsed (p.depth - 2) (by omega), decide_eq_decide]
                omega
              · rw [h.memUsed (j - 1) (by omega), decide_eq_decide]
                omega
        | true =>
            rw [hwrite, hread] at hc'
            obtain rfl : c' = c := Nat.add_right_cancel hc'
            exact h.memUsed j hj

end Edge

/-! ## A step of the queue -/

section Step

variable (h : Holds p r c)

include h

theorem contents_idle (hedge : Holds p (edge p r i) c) (hwrite : write p r i = false)
    (hread : read p r i = false) : contents p (edge p r i) = contents p r := by
  rw [hedge.contents_eq, h.contents_eq]
  apply List.map_congr_left
  intro j hj
  exact memEdge_held h hread (fun _ => hwrite) (List.mem_range.mp hj)

theorem contents_write (hedge : Holds p (edge p r i) (c + 1)) (hwrite : write p r i = true)
    (hread : read p r i = false) :
    contents p (edge p r i) = contents p r ++ [i.inPayload] := by
  rw [hedge.contents_eq, h.contents_eq, List.range_succ, List.map_append, List.map_singleton]
  have hnew : (edge p r i).mem c = i.inPayload := memEdge_new h hwrite hedge.le (Or.inl rfl)
  have hold : (List.range c).map (edge p r i).mem = (List.range c).map r.mem := by
    apply List.map_congr_left
    intro j hj
    have hj := List.mem_range.mp hj
    -- a slot below `c` and one for the new entry: the depth is not one
    have hdepth : p.depth = 1 → write p r i = false := by
      intro hone
      have hle := hedge.le
      omega
    exact memEdge_held h hread hdepth hj
  rw [hnew, hold]

theorem contents_read (hedge : Holds p (edge p r i) (c - 1)) (hc : 0 < c)
    (hread : read p r i = true) : contents p r = r.mem 0 :: contents p (edge p r i) := by
  rw [hedge.contents_eq, h.contents_eq]
  calc (List.range c).map r.mem
      = (List.range (c - 1 + 1)).map r.mem := by rw [Nat.sub_add_cancel hc]
    _ = r.mem 0 :: (List.range (c - 1)).map fun j => r.mem (j + 1) := by
        rw [List.range_succ_eq_map, List.map_cons, List.map_map]
        rfl
    _ = r.mem 0 :: (List.range (c - 1)).map (edge p r i).mem := by
        apply congrArg (List.cons _)
        apply List.map_congr_left
        intro j hj
        have hj := List.mem_range.mp hj
        exact (memEdge_shift h hread (Nat.add_lt_of_lt_sub hj)).symm

theorem contents_both (hedge : Holds p (edge p r i) c) (hc : 0 < c)
    (hwrite : write p r i = true) (hread : read p r i = true)
    (hroom : c < p.depth ∨ p.depth = 1) :
    contents p r ++ [i.inPayload] = r.mem 0 :: contents p (edge p r i) := by
  rw [hedge.contents_eq, h.contents_eq]
  obtain ⟨d, rfl⟩ : ∃ d, c = d + 1 := ⟨c - 1, (Nat.sub_add_cancel hc).symm⟩
  have hnew : (edge p r i).mem d = i.inPayload :=
    memEdge_new h hwrite (Nat.lt_of_succ_le h.le) (Or.inr ⟨rfl, hread, hroom⟩)
  calc (List.range (d + 1)).map r.mem ++ [i.inPayload]
      = r.mem 0 :: ((List.range d).map (fun j => r.mem (j + 1)) ++ [i.inPayload]) := by
        rw [List.range_succ_eq_map, List.map_cons, List.map_map]
        rfl
    _ = r.mem 0 :: ((List.range d).map (edge p r i).mem ++ [(edge p r i).mem d]) := by
        rw [hnew]
        apply congrArg (fun l => r.mem 0 :: (l ++ [i.inPayload]))
        apply List.map_congr_left
        intro j hj
        exact (memEdge_shift h hread (Nat.succ_lt_succ (List.mem_range.mp hj))).symm
    _ = r.mem 0 :: (List.range (d + 1)).map (edge p r i).mem := by
        rw [List.range_succ, List.map_append, List.map_singleton]

end Step

/-- An edge puts the entry that is written behind the others, and takes out the one that is
read. -/
theorem Holds.edge (h : Holds p r c) (hdepth : 0 < p.depth) :
    (∃ c', Holds p (edge p r i) c') ∧
      contents p r ++ (if write p r i then [i.inPayload] else []) =
        (if outValid p r i && i.outReady then [outPayload p r i] else []) ++
          contents p (edge p r i) := by
  have hle := h.le
  rw [← read_eq]
  cases hread : read p r i with
  | false =>
      cases hwrite : write p r i with
      | false =>
          have hedge : Holds p (ScFifo.edge p r i) c :=
            memUsedEdge_eq h hdepth (by rw [hread, hwrite]) hle
          simp only [Bool.false_eq_true, if_false, List.append_nil, List.nil_append]
          exact ⟨⟨c, hedge⟩, (contents_idle h hedge hwrite hread).symm⟩
      | true =>
          have hedge : Holds p (ScFifo.edge p r i) (c + 1) :=
            memUsedEdge_eq h hdepth (by rw [hread, hwrite]; rfl) (lt_of_write h hdepth hwrite hread)
          simp only [Bool.false_eq_true, if_false, if_true, List.nil_append]
          exact ⟨⟨c + 1, hedge⟩, (contents_write h hedge hwrite hread).symm⟩
  | true =>
      cases hwrite : write p r i with
      | false =>
          have hc : 0 < c := by
            apply Nat.pos_of_ne_zero
            intro hzero
            have htaken := (lookahead_of_read h hdepth hread hzero).2.2
            rw [hwrite] at htaken
            contradiction
          have hedge : Holds p (ScFifo.edge p r i) (c - 1) :=
            memUsedEdge_eq h hdepth (by rw [hread, hwrite]; exact Nat.sub_add_cancel hc)
              (Nat.le_trans (Nat.sub_le c 1) hle)
          simp only [Bool.false_eq_true, if_false, if_true, List.append_nil]
          rw [outPayload_eq h hdepth hc]
          exact ⟨⟨c - 1, hedge⟩, contents_read h hedge hc hread⟩
      | true =>
          have hedge : Holds p (ScFifo.edge p r i) c :=
            memUsedEdge_eq h hdepth (by rw [hread, hwrite]) hle
          simp only [if_true]
          refine ⟨⟨c, hedge⟩, ?_⟩
          by_cases hc : 0 < c
          · have hroom : c < p.depth ∨ p.depth = 1 := by
              rw [write, inReady_eq h hdepth, Bool.and_eq_true, Bool.or_eq_true,
                decide_eq_true_iff, Bool.and_eq_true, decide_eq_true_iff] at hwrite
              exact hwrite.1.imp_right And.left
            rw [outPayload_eq h hdepth hc]
            exact contents_both h hedge hc hwrite hread hroom
          · -- through the empty FIFO, from its input to its output
            have hzero : c = 0 := Nat.eq_zero_of_not_pos hc
            subst hzero
            obtain ⟨hlook, hvalid, -⟩ := lookahead_of_read h hdepth hread rfl
            have hused : r.memUsed 0 = false := h.memUsed 0 hdepth
            rw [h.contents_eq, hedge.contents_eq, outPayload, hlook, hvalid, hused]
            rfl

/-! ## Runs -/

theorem Holds.reset : Holds p (machine w p).reset 0 where
  le := Nat.zero_le p.depth
  memUsed j _ := (decide_eq_false (Nat.not_lt_zero j)).symm

section Run

variable (u : Nat → Inputs w) (hdepth : 0 < p.depth)

include hdepth

theorem Holds.run (n : Nat) : ∃ c, Holds p ((machine w p).run u n) c := by
  induction n with
  | zero => exact ⟨0, Holds.reset⟩
  | succ n ih =>
      obtain ⟨c, h⟩ := ih
      exact (h.edge hdepth).1

theorem accepted_eq (n : Nat) :
    accepted p u n = delivered p u n ++ contents p ((machine w p).run u n) := by
  induction n with
  | zero => exact Holds.reset.contents_eq.symm
  | succ n ih =>
      obtain ⟨c, h⟩ := Holds.run u hdepth n
      have hstep := (h.edge (i := u n) hdepth).2
      simp only [accepted, delivered, List.range_succ, List.flatMap_append,
        List.flatMap_singleton] at ih ⊢
      rw [ih, List.append_assoc, List.append_assoc, hstep]
      rfl

omit hdepth in
theorem accepted_mono {m n : Nat} (h : m ≤ n) : accepted p u m <+: accepted p u n := by
  induction h with
  | refl => exact List.prefix_refl _
  | @step n _ ih =>
      apply ih.trans
      rw [accepted, accepted, List.range_succ, List.flatMap_append]
      exact List.prefix_append _ _

omit hdepth in
theorem delivered_mono (n : Nat) : delivered p u n <+: delivered p u (n + 1) := by
  rw [delivered, delivered, List.range_succ, List.flatMap_append]
  exact List.prefix_append _ _

/-- An edge that finds the reader ready delivers an entry if there is one. -/
theorem delivered_grows {n : Nat} (hready : (u n).outReady = true)
    (hsome : (delivered p u n).length < (accepted p u n).length) :
    (delivered p u (n + 1)).length = (delivered p u n).length + 1 := by
  have hentry : contents p ((machine w p).run u n) ≠ [] := by
    intro hempty
    rw [accepted_eq u hdepth, hempty, List.append_nil] at hsome
    exact Nat.lt_irrefl _ hsome
  obtain ⟨c, h⟩ := Holds.run u hdepth n
  have hc : 0 < c := by
    rwa [← List.length_pos_iff_ne_nil, h.contents_length] at hentry
  have hvalid : outValid p ((machine w p).run u n) (u n) = true := by
    rw [outValid_eq h hdepth, decide_eq_true hc, Bool.true_or]
  calc (delivered p u (n + 1)).length
      = (delivered p u n ++ [outPayload p ((machine w p).run u n) (u n)]).length := by
        rw [delivered, List.range_succ, List.flatMap_append, List.flatMap_singleton, hvalid,
          hready, Bool.true_and, if_pos rfl, ← delivered]
    _ = (delivered p u n).length + 1 := by rw [List.length_append, List.length_singleton]

end Run

/-- At every edge, the FIFO is a queue of at most `depth` entries: what it took in is what
it gave out and what it still holds, in this order.  It offers an entry unless it is empty,
and takes one unless it is full; with lookahead an empty FIFO offers its input, and a single
slot takes an entry while it is read. -/
theorem is_queue (u : Nat → Inputs w) (hdepth : 0 < p.depth) (n : Nat) :
    accepted p u n = delivered p u n ++ contents p ((machine w p).run u n) ∧
      (contents p ((machine w p).run u n)).length ≤ p.depth ∧
      (outValid p ((machine w p).run u n) (u n) = true ↔
        contents p ((machine w p).run u n) ≠ [] ∨ p.lookahead = true ∧ (u n).inValid = true) ∧
      (inReady p ((machine w p).run u n) (u n) = true ↔
        (contents p ((machine w p).run u n)).length < p.depth ∨
          p.depth = 1 ∧ (u n).outReady = true) := by
  obtain ⟨c, h⟩ := Holds.run u hdepth n
  have hlength := h.contents_length
  refine ⟨accepted_eq u hdepth n, ?_, ?_, ?_⟩
  · rw [hlength]
    exact h.le
  · rw [outValid_eq h hdepth, Bool.or_eq_true, Bool.and_eq_true, decide_eq_true_iff,
      ← List.length_pos_iff_ne_nil, hlength]
  · rw [inReady_eq h hdepth, Bool.or_eq_true, Bool.and_eq_true, decide_eq_true_iff,
      decide_eq_true_iff, hlength]
    apply or_congr_right'
    intro hfull
    apply and_congr_right
    intro hone
    have hc : 0 < c := by
      rw [hone] at hfull
      exact Nat.not_lt.mp hfull
    rw [read_eq, outValid_eq h hdepth, decide_eq_true hc, Bool.true_or, Bool.true_and]

/-! Two slots, an entry offered at every edge and the reader ready at every other. -/

def everyOther (t : Nat) : Inputs 8 := ⟨BitVec.ofNat 8 t, true, decide (t % 2 = 1)⟩

theorem is_queue_two :
    accepted ⟨2, false⟩ everyOther 5 =
      delivered ⟨2, false⟩ everyOther 5 ++
        contents ⟨2, false⟩ ((machine 8 ⟨2, false⟩).run everyOther 5) :=
  (is_queue everyOther (by decide) 5).1

/-- A reader that is ready at `depth` edges has then seen everything that was in. -/
theorem drains (u : Nat → Inputs w) (hdepth : 0 < p.depth) (t : Nat)
    (hready : ∀ k < p.depth, (u (t + k)).outReady = true) :
    accepted p u t <+: delivered p u (t + p.depth) := by
  have hcount (k : Nat) (hk : k ≤ p.depth) :
      min (accepted p u t).length ((delivered p u t).length + k) ≤
        (delivered p u (t + k)).length := by
    induction k with
    | zero => exact Nat.min_le_right _ _
    | succ k ih =>
        have ih := ih (Nat.le_of_succ_le hk)
        have hmono := (delivered_mono (p := p) u (t + k)).length_le
        have haccepted := (accepted_mono (p := p) u (Nat.le_add_right t k)).length_le
        rw [← Nat.add_assoc t k 1]
        by_cases hall : (accepted p u t).length ≤ (delivered p u (t + k)).length
        · exact Nat.le_trans (Nat.min_le_left _ _) (Nat.le_trans hall hmono)
        · have hgrow := delivered_grows u hdepth (hready k hk)
            (Nat.lt_of_lt_of_le (Nat.not_le.mp hall) haccepted)
          omega
  have hin : (accepted p u t).length ≤ (delivered p u t).length + p.depth := by
    obtain ⟨c, h⟩ := Holds.run u hdepth t
    rw [accepted_eq u hdepth, List.length_append, h.contents_length]
    exact Nat.add_le_add_left h.le _
  have hout : (accepted p u t).length ≤ (delivered p u (t + p.depth)).length := by
    have hcount := hcount p.depth (Nat.le_refl _)
    rwa [Nat.min_eq_left hin] at hcount
  apply List.prefix_of_prefix_length_le (accepted_mono u (Nat.le_add_right t p.depth)) ?_ hout
  rw [accepted_eq u hdepth]
  exact List.prefix_append _ _

theorem drains_two :
    accepted ⟨2, false⟩ (fun t => ⟨BitVec.ofNat 8 t, true, decide (3 ≤ t)⟩) 3 <+:
      delivered ⟨2, false⟩ (fun t => ⟨BitVec.ofNat 8 t, true, decide (3 ≤ t)⟩) 5 :=
  drains _ (by decide) 3 (by decide)

end Esd1.Merlin.ScFifo
