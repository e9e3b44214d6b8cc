import Esd1.Lab2.Episodes
import Esd1.NiosII.Rules

/-!
# `hex_zero.s` counts modulo ten

The cut points are the heads of the two polling loops, the switch read and the common
display path.  Between two of them the registers that hold addresses stand still, `r5`
moves with the position, and the stores to `Hex0` follow the episodes; on the way from
a release to the display one of the two is behind.
-/

namespace Esd1.Lab2

open Esd1.NiosII Esd1.Interleaving

/-! ## The registers -/

/-- The registers that hold addresses, with `r5` at entry `x`. -/
structure Pointing (hstart : Word) (x : ZMod 10) (ρ : Regs) : Prop where
  r2 : ρ.read .r2 = switches
  r3 : ρ.read .r3 = keys
  r4 : ρ.read .r4 = hex0
  r5 : ρ.read .r5 = pointer hstart x
  r6 : ρ.read .r6 = hstart
  r7 : ρ.read .r7 = hstart + 9#32

namespace Pointing

variable {hstart : Word} {x y : ZMod 10} {ρ : Regs} {r : Reg} {w : Word}

theorem write (h : Pointing hstart x ρ) (hr : r ∉ [Reg.r2, .r3, .r4, .r5, .r6, .r7]) :
    Pointing hstart x (ρ.write r w) := by
  simp only [List.mem_cons, List.not_mem_nil, or_false, not_or] at hr
  obtain ⟨h2, h3, h4, h5, h6, h7⟩ := hr
  constructor
  · rw [Regs.read_write_of_ne _ _ (Ne.symm h2), h.r2]
  · rw [Regs.read_write_of_ne _ _ (Ne.symm h3), h.r3]
  · rw [Regs.read_write_of_ne _ _ (Ne.symm h4), h.r4]
  · rw [Regs.read_write_of_ne _ _ (Ne.symm h5), h.r5]
  · rw [Regs.read_write_of_ne _ _ (Ne.symm h6), h.r6]
  · rw [Regs.read_write_of_ne _ _ (Ne.symm h7), h.r7]

theorem move (h : Pointing hstart x ρ) (hw : w = pointer hstart y) :
    Pointing hstart y (ρ.write .r5 w) := by
  constructor
  · rw [Regs.read_write_of_ne _ _ (by decide), h.r2]
  · rw [Regs.read_write_of_ne _ _ (by decide), h.r3]
  · rw [Regs.read_write_of_ne _ _ (by decide), h.r4]
  · rw [Regs.read_write_self _ _ (by decide), hw]
  · rw [Regs.read_write_of_ne _ _ (by decide), h.r6]
  · rw [Regs.read_write_of_ne _ _ (by decide), h.r7]

end Pointing

/-! ## The events -/

/-- Every release has had its switch read, except for `unread`, and every switch read
its store, except for `unshown`. -/
structure Tally (unread unshown : Nat) (reads : List Read) (stores : List Byte) : Prop where
  switchReads_eq : switchReads reads = episodes reads
  releases_eq : releases (keyReads reads) = (episodes reads).length + unread
  stores_eq : stores.length + unshown = 1 + (episodes reads).length

namespace Tally

variable {unread unshown : Nat} {reads : List Read} {stores : List Byte} {value : Byte}

theorem keys (h : Tally unread unshown reads stores)
    (hvalue : releases (value :: keyReads reads) = releases (keyReads reads)) :
    Tally unread unshown (.keys value :: reads) stores where
  switchReads_eq := by rw [switchReads_keys, episodes_keys, h.switchReads_eq]
  releases_eq := by rw [keyReads_keys, hvalue, episodes_keys, h.releases_eq]
  stores_eq := by rw [episodes_keys, h.stores_eq]

theorem release (h : Tally 0 unshown reads stores) (hpressed : Pressed reads)
    (hvalue : ¬ Down value) : Tally 1 unshown (.keys value :: reads) stores where
  switchReads_eq := by rw [switchReads_keys, episodes_keys, h.switchReads_eq]
  releases_eq := by
    rw [keyReads_keys, releases_of_pressed hpressed hvalue, h.releases_eq, episodes_keys]
    omega
  stores_eq := by rw [episodes_keys, h.stores_eq]

theorem switches (h : Tally 1 0 reads stores) (hreleased : Released reads) :
    Tally 0 1 (.switches value :: reads) stores where
  switchReads_eq := by
    rw [switchReads_switches, episodes_switches hreleased, h.switchReads_eq]
  releases_eq := by
    rw [keyReads_switches, episodes_switches hreleased, h.releases_eq]
    rfl
  stores_eq := by
    have hstores := h.stores_eq
    rw [episodes_switches hreleased, List.length_cons]
    omega

theorem store (h : Tally 0 1 reads stores) : Tally 0 0 reads (stores ++ [value]) where
  switchReads_eq := h.switchReads_eq
  releases_eq := h.releases_eq
  stores_eq := by
    rw [List.length_append, ← h.stores_eq]
    rfl

end Tally

/-- The display shows the position, as far as its seven segments go. -/
def Shown (reads : List Read) (stores : List Byte) : Prop :=
  ∃ b t, stores.getLast? = some b ∧ table[(position (episodes reads)).val]? = some t ∧
    b.setWidth 7 = t.setWidth 7

/-! ## The annotation -/

def cuts : List Label := [.loop, .press, .release, .display]

inductive At (hstart : Word) (reads : List Read) (stores : List Byte) : State → Prop
  | loop {ρ : Regs} (hρ : Pointing hstart (position (episodes reads)) ρ)
      (htally : Tally 0 0 reads stores) (hshown : Shown reads stores) (hidle : Idle reads) :
      At hstart reads stores ⟨address (hexZero hstart) .loop, ρ⟩
  | press {ρ : Regs} (hρ : Pointing hstart (position (episodes reads)) ρ)
      (htally : Tally 0 0 reads stores) (hpressed : Pressed reads) :
      At hstart reads stores ⟨address (hexZero hstart) .press, ρ⟩
  | release {ρ : Regs} (hρ : Pointing hstart (position (episodes reads)) ρ)
      (htally : Tally 1 0 reads stores) (hreleased : Released reads) :
      At hstart reads stores ⟨address (hexZero hstart) .release, ρ⟩
  | display {ρ : Regs} (hρ : Pointing hstart (position (episodes reads)) ρ)
      (htally : Tally 0 1 reads stores) (hidle : Idle reads) :
      At hstart reads stores ⟨address (hexZero hstart) .display, ρ⟩

def Assertion (hstart : Word) (es : List Access) (s : State) : Prop :=
  (∀ e ∈ es, Intended hstart e) ∧ At hstart (history es) (hexStores es) s

section Assertion

variable {hstart : Word} {es : List Access} {s : State}

theorem assertion_append (e : Access) :
    Assertion hstart (es ++ [e]) s ↔
      (∀ e' ∈ es, Intended hstart e') ∧ Intended hstart e ∧
        At hstart ((read? e).toList ++ history es) (hexStores es ++ (hexStore? e).toList) s := by
  rw [Assertion, history_append, hexStores_append, List.forall_mem_append,
    List.forall_mem_singleton, and_assoc]

@[simp] theorem assertion_internal :
    Assertion hstart (es ++ [Access.internal]) s ↔ Assertion hstart es s := by
  rw [assertion_append]
  simp [Assertion, Intended, read?, hexStore?]

theorem assertion_keys {value : Byte} (hint : ∀ e ∈ es, Intended hstart e)
    (hat : At hstart (.keys value :: history es) (hexStores es) s) :
    Assertion hstart (es ++ [Access.load .r3 keys value]) s := by
  rw [assertion_append]
  exact ⟨hint, rfl, by simpa [read?, hexStore?] using hat⟩

theorem assertion_switches {value : Byte} (hint : ∀ e ∈ es, Intended hstart e)
    (hat : At hstart (.switches value :: history es) (hexStores es) s) :
    Assertion hstart (es ++ [Access.load .r2 switches value]) s := by
  rw [assertion_append]
  exact ⟨hint, rfl, by simpa [read?, hexStore?] using hat⟩

theorem assertion_display {addr : Word} {value : Byte} (hint : ∀ e ∈ es, Intended hstart e)
    (haddr : Intended hstart (.load .r5 addr value))
    (hat : At hstart (history es) (hexStores es ++ [value]) s) :
    Assertion hstart (es ++ [Access.load .r5 addr value] ++ [Access.store .r4 hex0 value]) s := by
  rw [assertion_append, history_append, hexStores_append, List.forall_mem_append,
    List.forall_mem_singleton]
  exact ⟨⟨hint, haddr⟩, rfl, by simpa [read?, hexStore?] using hat⟩

end Assertion

/-! ## From one cut point to the next -/

theorem key_masked (value : Byte) :
    AluOp.andi.eval (value.signExtend 32) 2 = 0#32 ↔ Down value :=
  andi_signExtend_eq_zero_iff value 1 (by decide)

theorem switch_masked (value : Byte) :
    AluOp.andi.eval (value.signExtend 32) 1 = 0#32 ↔ value.getLsbD 0 = false :=
  andi_signExtend_eq_zero_iff value 0 (by decide)

theorem responsive_tableLoaded (hstart : Word) : Responsive (TableLoaded hstart) where
  internal _ := trivial
  load s base addr := by
    refine ⟨(tableAt hstart addr).getD 0, ?_⟩
    intro _ b hb
    rw [Option.mem_def.mp hb]
    rfl
  store _ _ _ _ := trivial

section Segments

variable {hstart : Word} {ok : State → Access → Prop} (hok : Responsive ok)
  {A : List Access → State → Prop} {n : Nat} {es : List Access} {x : ZMod 10} {ρ : Regs}

include hok

/-- The pointer moves, and the program goes on to the display. -/
theorem within_addi_br {k : Nat} {d : BitVec 16} {y : ZMod 10}
    (hcut : (cuts.map (address (hexZero hstart))).contains k = false)
    (hcut' : (cuts.map (address (hexZero hstart))).contains (k + 1) = false)
    (hcode : (code (hexZero hstart))[k]? = some (.alu .addi .r5 .r5 d))
    (hcode' : (code (hexZero hstart))[k + 1]? = some (.branch .always .r0 .r0 .display))
    (hρ : Pointing hstart x ρ) (hd : AluOp.addi.eval (pointer hstart x) d = pointer hstart y)
    (h : ∀ ρ', Pointing hstart y ρ' →
      Within (step (hexZero hstart)) ok (AtLabel (hexZero hstart) cuts) A n
        (es ++ [Access.internal] ++ [Access.internal]) ⟨address (hexZero hstart) .display, ρ'⟩) :
    Within (step (hexZero hstart)) ok (AtLabel (hexZero hstart) cuts) A (n + 2) es
      ⟨k, ρ⟩ := by
  apply within_alu hok hcut hcode
  apply within_br hok hcut' hcode'
  apply h
  apply hρ.move
  rw [hρ.r5, hd]

theorem within_addC (hρ : Pointing hstart x ρ)
    (h : ∀ ρ', Pointing hstart (x + 1) ρ' →
      Within (step (hexZero hstart)) ok (AtLabel (hexZero hstart) cuts) A n
        (es ++ [Access.internal] ++ [Access.internal] ++ [Access.internal])
        ⟨address (hexZero hstart) .display, ρ'⟩) :
    Within (step (hexZero hstart)) ok (AtLabel (hexZero hstart) cuts) A (n + 3) es
      ⟨address (hexZero hstart) .addC, ρ⟩ := by
  have hlast : Cond.eq.Holds (ρ.read .r5) (ρ.read .r7) ↔ x = 9 := by
    rw [hρ.r5, hρ.r7]
    exact pointer_eq_last_iff
  by_cases hx : x = 9
  · apply within_branch_taken hok rfl rfl (hlast.mpr hx)
    apply within_addi_br hok rfl rfl rfl rfl hρ _ h
    rw [hx]
    exact pointer_wrap_last
  · apply within_branch_not_taken hok rfl rfl (mt hlast.mp hx)
    exact within_addi_br hok rfl rfl rfl rfl hρ (pointer_add_one hx) h

theorem within_subC (hρ : Pointing hstart x ρ)
    (h : ∀ ρ', Pointing hstart (x - 1) ρ' →
      Within (step (hexZero hstart)) ok (AtLabel (hexZero hstart) cuts) A n
        (es ++ [Access.internal] ++ [Access.internal] ++ [Access.internal])
        ⟨address (hexZero hstart) .display, ρ'⟩) :
    Within (step (hexZero hstart)) ok (AtLabel (hexZero hstart) cuts) A (n + 3) es
      ⟨address (hexZero hstart) .subC, ρ⟩ := by
  have hfirst : Cond.eq.Holds (ρ.read .r5) (ρ.read .r6) ↔ x = 0 := by
    rw [hρ.r5, hρ.r6]
    exact pointer_eq_first_iff
  by_cases hx : x = 0
  · apply within_branch_taken hok rfl rfl (hfirst.mpr hx)
    apply within_addi_br hok rfl rfl rfl rfl hρ _ h
    rw [hx]
    exact pointer_wrap_first
  · apply within_branch_not_taken hok rfl rfl (mt hfirst.mp hx)
    exact within_addi_br hok rfl rfl rfl rfl hρ (pointer_sub_one hx) h

end Segments

section Cuts

variable {hstart : Word} {n : Nat} {es : List Access} {ρ : Regs} {value : Byte}
  (hint : ∀ e ∈ es, Intended hstart e)

include hint

theorem loop_next (hρ : Pointing hstart (position (episodes (history es))) ρ)
    (htally : Tally 0 0 (history es) (hexStores es))
    (hshown : Shown (history es) (hexStores es)) (hidle : Idle (history es)) :
    Within (step (hexZero hstart)) (TableLoaded hstart) (AtLabel (hexZero hstart) cuts)
      (Assertion hstart) (n + 3) (es ++ [Access.load .r3 keys value])
      ⟨address (hexZero hstart) .loop + 1, ρ.write .r13 (value.signExtend 32)⟩ := by
  have hok := responsive_tableLoaded hstart
  apply within_masked_branches hok (by decide) rfl rfl rfl rfl rfl rfl
  · exact fun x y h => h
  · intro hdown
    rw [Cond.Holds, key_masked] at hdown
    apply Within.of_cut (atLabel_of_mem (by decide))
    rw [assertion_internal, assertion_internal]
    apply assertion_keys hint
    exact At.press (hρ.write (by decide)) (htally.keys (releases_of_down hdown)) hdown
  · intro hup
    rw [Cond.Holds, key_masked] at hup
    apply Within.of_cut (atLabel_of_mem (by decide))
    rw [assertion_internal, assertion_internal, assertion_internal]
    apply assertion_keys hint
    exact At.loop (hρ.write (by decide)) (htally.keys (releases_of_idle hidle)) hshown
      (idle_keys hup)

theorem press_next (hρ : Pointing hstart (position (episodes (history es))) ρ)
    (htally : Tally 0 0 (history es) (hexStores es)) (hpressed : Pressed (history es)) :
    Within (step (hexZero hstart)) (TableLoaded hstart) (AtLabel (hexZero hstart) cuts)
      (Assertion hstart) (n + 3) (es ++ [Access.load .r3 keys value])
      ⟨address (hexZero hstart) .press + 1, ρ.write .r13 (value.signExtend 32)⟩ := by
  have hok := responsive_tableLoaded hstart
  apply within_masked_branches hok (by decide) rfl rfl rfl rfl rfl rfl
  · exact fun x y h => not_not.mp h
  · intro hup
    rw [Cond.Holds, ne_eq, key_masked] at hup
    apply Within.of_cut (atLabel_of_mem (by decide))
    rw [assertion_internal, assertion_internal]
    apply assertion_keys hint
    exact At.release (hρ.write (by decide)) (htally.release hpressed hup)
      (hpressed.released hup)
  · intro hdown
    rw [Cond.Holds, ne_eq, not_not, key_masked] at hdown
    apply Within.of_cut (atLabel_of_mem (by decide))
    rw [assertion_internal, assertion_internal, assertion_internal]
    apply assertion_keys hint
    exact At.press (hρ.write (by decide)) (htally.keys (releases_of_down hdown)) hdown

theorem release_next (hρ : Pointing hstart (position (episodes (history es))) ρ)
    (htally : Tally 1 0 (history es) (hexStores es)) (hreleased : Released (history es)) :
    Within (step (hexZero hstart)) (TableLoaded hstart) (AtLabel (hexZero hstart) cuts)
      (Assertion hstart) (n + 6) (es ++ [Access.load .r2 switches value])
      ⟨address (hexZero hstart) .release + 1, ρ.write .r12 (value.signExtend 32)⟩ := by
  have hok := responsive_tableLoaded hstart
  apply within_masked_branches hok (by decide) rfl rfl rfl rfl rfl rfl
  · exact fun x y h => not_not.mp h
  · intro hup
    rw [Cond.Holds, ne_eq, switch_masked, Bool.not_eq_false] at hup
    apply within_addC hok (hρ.write (by decide))
    intro ρ' hρ'
    apply Within.of_cut (atLabel_of_mem (by decide))
    simp only [assertion_internal]
    apply assertion_switches hint
    apply At.display _ (htally.switches hreleased) hreleased.idle
    rw [episodes_switches hreleased, position_cons_of_up hup]
    exact hρ'
  · intro hdown
    rw [Cond.Holds, ne_eq, not_not, switch_masked] at hdown
    apply within_subC hok (hρ.write (by decide))
    intro ρ' hρ'
    apply Within.of_cut (atLabel_of_mem (by decide))
    simp only [assertion_internal]
    apply assertion_switches hint
    apply At.display _ (htally.switches hreleased) hreleased.idle
    rw [episodes_switches hreleased, position_cons_of_down hdown]
    exact hρ'

theorem display_next (hwrap : hstart.toNat + 9 < 2 ^ 32)
    (hρ : Pointing hstart (position (episodes (history es))) ρ)
    (htally : Tally 0 1 (history es) (hexStores es)) (hidle : Idle (history es))
    (hvalue : tableAt hstart (pointer hstart (position (episodes (history es)))) =
      some value) :
    Within (step (hexZero hstart)) (TableLoaded hstart) (AtLabel (hexZero hstart) cuts)
      (Assertion hstart) (n + 2)
      (es ++ [Access.load .r5 (pointer hstart (position (episodes (history es)))) value])
      ⟨address (hexZero hstart) .display + 1, ρ.write .r14 (value.signExtend 32)⟩ := by
  have hok := responsive_tableLoaded hstart
  apply within_stbio hok rfl rfl
  rw [Regs.read_write_of_ne _ _ (by decide), Regs.read_write_self _ _ (by decide), hρ.r4,
    add_signExtend_zero, Words.setWidth_signExtend _ (by decide)]
  apply within_br hok rfl rfl
  apply Within.of_cut (atLabel_of_mem (by decide))
  rw [assertion_internal]
  apply assertion_display hint
  · have hlt := (position (episodes (history es))).val_lt
    rw [Intended, toNat_pointer hwrap]
    omega
  · rw [tableAt_pointer] at hvalue
    exact At.loop (hρ.write (by decide)) htally.store
      ⟨value, value, List.getLast?_concat, hvalue, rfl⟩ hidle

end Cuts

theorem main_within (hstart : Word) (ρ : Regs) :
    Within (step (hexZero hstart)) (TableLoaded hstart) (AtLabel (hexZero hstart) cuts)
      (Assertion hstart) 13 [] ⟨address (hexZero hstart) .main, ρ⟩ := by
  have hok := responsive_tableLoaded hstart
  apply within_movhi_ori hok (by decide) rfl rfl rfl rfl
  apply within_movhi_ori hok (by decide) rfl rfl rfl rfl
  apply within_movhi_ori hok (by decide) rfl rfl rfl rfl
  apply within_movhi_ori hok (by decide) rfl rfl rfl rfl
  apply within_movhi_ori hok (by decide) rfl rfl rfl rfl
  apply within_alu hok rfl rfl
  apply within_alu hok rfl rfl
  apply within_stbio hok rfl rfl
  change Within _ _ _ _ 0 _ (State.mk (address (hexZero hstart) .loop) _)
  apply Within.of_cut (atLabel_of_mem (by decide))
  rw [assertion_append]
  refine ⟨by simp [Intended], rfl, ?_⟩
  change At hstart [] [0xC0#8] _
  apply At.loop
  · rw [episodes, position_nil]
    constructor
    · rfl
    · rfl
    · rfl
    · rw [pointer_zero]
      rfl
    · rfl
    · rfl
  · constructor <;> rfl
  · -- 0xC0 differs from the first entry of the table in its eighth bit only
    refine ⟨0xC0#8, 0x40#8, rfl, ?_, rfl⟩
    rw [episodes, position_nil]
    rfl
  · intro value hvalue
    cases hvalue

section Runs

variable {hstart : Word} (hwrap : hstart.toNat + 9 < 2 ^ 32)

include hwrap

theorem annotated :
    Annotated (step (hexZero hstart)) (TableLoaded hstart) (AtLabel (hexZero hstart) cuts)
      (Assertion hstart) 13 where
  canStep es s _ hA := by
    have hok := responsive_tableLoaded hstart
    cases hA.2 with
    | loop => exact hok.canStep rfl
    | press => exact hok.canStep rfl
    | release => exact hok.canStep rfl
    | display => exact hok.canStep rfl
  next es s e s' _ hA hok hs := by
    obtain ⟨hint, hat⟩ := hA
    -- every cut point is a load, and the byte it returns decides how to go on
    cases hat with
    | loop hρ htally hshown hidle =>
        obtain ⟨value, rfl, rfl⟩ := step_ldbio rfl hs
        rw [hρ.r3, add_signExtend_zero]
        exact loop_next hint hρ htally hshown hidle
    | press hρ htally hpressed =>
        obtain ⟨value, rfl, rfl⟩ := step_ldbio rfl hs
        rw [hρ.r3, add_signExtend_zero]
        exact press_next hint hρ htally hpressed
    | release hρ htally hreleased =>
        obtain ⟨value, rfl, rfl⟩ := step_ldbio rfl hs
        rw [hρ.r2, add_signExtend_zero]
        exact release_next hint hρ htally hreleased
    | display hρ htally hidle =>
        obtain ⟨value, rfl, rfl⟩ := step_ldbio rfl hs
        rw [hρ.r5, add_signExtend_zero] at hok ⊢
        obtain ⟨b, hb⟩ := exists_tableAt_pointer hstart (position (episodes (history es)))
        rw [hok rfl b hb]
        exact display_next hint hwrap hρ htally hidle hb

structure Counts (hstart : Word) (reads : List Read) (stores : List Byte) (ρ : Regs) :
    Prop where
  pointer_eq : ((ρ.read .r5).toNat : Int) =
    hstart.toNat + ((ups (episodes reads) : Int) - downs (episodes reads)) % 10
  shown : ∃ b t, stores.getLast? = some b ∧ tableAt hstart (ρ.read .r5) = some t ∧
    b.setWidth 7 = t.setWidth 7
  stores_eq : stores.length = 1 + releases (keyReads reads)
  episodes_eq : (episodes reads).length = releases (keyReads reads)
  switchReads_eq : switchReads reads = episodes reads

omit hwrap in
theorem address_ne_loop (l : Label) (hl : l ∈ [Label.press, .release, .display]) :
    address (hexZero hstart) l ≠ address (hexZero hstart) .loop := by
  rw [address_hexZero, address_hexZero hstart .loop]
  revert l
  decide

omit hwrap in
theorem At.of_loop {reads : List Read} {stores : List Byte} {s : State}
    (h : At hstart reads stores s) (hpc : s.pc = address (hexZero hstart) .loop) :
    Pointing hstart (position (episodes reads)) s.regs ∧ Tally 0 0 reads stores ∧
      Shown reads stores := by
  cases h with
  | loop hρ htally hshown _ => exact ⟨hρ, htally, hshown⟩
  | press => exact absurd hpc (address_ne_loop .press (by decide))
  | release => exact absurd hpc (address_ne_loop .release (by decide))
  | display => exact absurd hpc (address_ne_loop .display (by decide))

theorem counts_of_at {reads : List Read} {stores : List Byte} {s : State}
    (h : At hstart reads stores s) (hpc : s.pc = address (hexZero hstart) .loop) :
    Counts hstart reads stores s.regs := by
  obtain ⟨hρ, htally, b, t, hlast, hentry, hlow⟩ := h.of_loop hpc
  have hreleases : releases (keyReads reads) = (episodes reads).length := htally.releases_eq
  constructor
  · rw [hρ.r5, toNat_pointer hwrap, Nat.cast_add, val_position]
  · refine ⟨b, t, hlast, ?_, hlow⟩
    rw [hρ.r5, tableAt_pointer, hentry]
  · rw [hreleases]
    exact htally.stores_eq
  · exact hreleases.symm
  · exact htally.switchReads_eq

/-- From `main`, whatever the ports return: every visit to `loop` finds the counter
right, every access goes where it is meant to, and the program never gets stuck. -/
theorem hexZero_counts {s₀ s : State} {es : List Access}
    (hmain : s₀.pc = address (hexZero hstart) .main)
    (hruns : Runs (step (hexZero hstart)) (TableLoaded hstart) s₀ es s) :
    (s.pc = address (hexZero hstart) .loop →
        Counts hstart (history es) (hexStores es) s.regs) ∧
      (∀ e ∈ es, Intended hstart e) ∧
      CanStep (step (hexZero hstart)) (TableLoaded hstart) s := by
  obtain ⟨pc, ρ⟩ := s₀
  subst hmain
  have hmain := main_within hstart ρ
  have hannotated := annotated hwrap
  refine ⟨?_, ?_, hannotated.canStep_of_runs hmain hruns⟩
  · intro hpc
    have hcut : AtLabel (hexZero hstart) cuts s := by
      obtain ⟨pc, ρ'⟩ := s
      subst hpc
      exact atLabel_of_mem (by decide)
    have hA := (hannotated.within hmain hruns).assertion hcut
    exact counts_of_at hwrap hA.2 hpc
  · apply hannotated.events hmain (fun es => ∀ e ∈ es, Intended hstart e) _ _ hruns
    · intro es s hA
      exact hA.1
    · intro es fs h e he
      exact h e (List.mem_append_left fs he)

end Runs

def onePress (hstart : Word) : List Access :=
  List.replicate 12 .internal ++ ([
    .store .r4 hex0 0xC0#8,
    .load .r3 keys 0x01#8, .internal, .internal,
    .load .r3 keys 0x03#8, .internal, .internal,
    .load .r2 switches 0x01#8, .internal, .internal,
    .internal, .internal, .internal,
    .load .r5 (hstart + 1#32) 0x79#8, .store .r4 hex0 0x79#8, .internal ] : List Access)

theorem hexZero_counts_onePress : ∃ s,
    Runs (step (hexZero 0x8000#32)) (TableLoaded 0x8000#32) ⟨0, fun _ => 0#32⟩
      (onePress 0x8000#32) s ∧
    Counts 0x8000#32 (history (onePress 0x8000#32)) (hexStores (onePress 0x8000#32))
      s.regs := by
  have hsome : (exec (step (hexZero 0x8000#32)) (TableLoaded 0x8000#32) ⟨0, fun _ => 0#32⟩
      (onePress 0x8000#32)).isSome := by decide +kernel
  have hruns := Runs.of_exec (Option.some_get hsome).symm
  exact ⟨_, hruns, (hexZero_counts (by decide) rfl hruns).1 rfl⟩

end Esd1.Lab2
