import Esd1.Lab3.Invocation
import Esd1.Lab3.Proofs.Ticks

/-!
# Polling and interrupts

`Pre-Lab.c` acts when KEY1 is released, on the switches as they were when it was
pressed; `pushbutton_isr` acts when it is pressed.  While the key is held the polling
version is one press behind, and the press it owes is the one in `switch_val`.
-/

namespace Esd1.Lab3

open Interleaving

def segments (d : Digit) : BitVec 8 := hexValues.get d

theorem getElem?_hexValues {i : BitVec 16} {d : Digit} (h : i.toNat = d.val) :
    hexValues[i.toNat]? = some (segments d) := by
  rw [h]
  exact List.getElem?_eq_getElem d.isLt

/-! ## The polling version -/

namespace PreLab

structure State.Shows (s : State) (d : Display) : Prop where
  arrayIdx : s.arrayIdx.toNat = d.digit.val
  hex : s.hex = d.shown.map segments

variable {s : State} {d : Display}

theorem storeHex_digit {digit : Digit} (h : s.arrayIdx.toNat = digit.val) :
    storeHex s = some { s with hex := s.hex ++ [segments digit] } := by
  have hget : hexValues[s.arrayIdx.toNat]? = some (segments digit) := getElem?_hexValues h
  rw [storeHex, hget]
  rfl

theorem storeHex_shows (h : s.Shows d) {i : BitVec 16} {digit : Digit}
    (hi : i.toNat = digit.val) :
    ∃ s', storeHex { s with arrayIdx := i } = some s' ∧ s'.pc = s.pc ∧
      s'.Shows ⟨digit, d.shown ++ [digit]⟩ := by
  refine ⟨_, storeHex_digit hi, rfl, hi, ?_⟩
  rw [List.map_append, ← h.hex]
  rfl

theorem updateIdx_shows (h : s.Shows d) (switchVal : BitVec 8) :
    ∃ s', updateIdx s switchVal = some s' ∧ s'.pc = s.pc ∧ s'.Shows (d.press switchVal) := by
  have hstay : ∀ digit : Digit, digit = d.digit → s.Shows ⟨digit,
      if digit = d.digit then d.shown else d.shown ++ [digit]⟩ := by
    rintro digit rfl
    rw [if_pos rfl]
    exact h
  unfold updateIdx Display.press
  by_cases h0 : switchVal = 0x00#8
  · subst h0
    rw [if_pos rfl, Digit.press_zero]
    by_cases hd0 : d.digit.val = 0
    · rw [if_pos ((Digit.index_eq_zero_iff h.arrayIdx).mpr hd0)]
      exact ⟨s, rfl, rfl, hstay _ (Digit.down_of_eq hd0)⟩
    · rw [if_neg (fun hi => hd0 ((Digit.index_eq_zero_iff h.arrayIdx).mp hi)),
        if_neg (Digit.down_ne hd0)]
      exact storeHex_shows h (Digit.index_sub_one h.arrayIdx hd0)
  · rw [if_neg h0]
    by_cases h1 : switchVal = 0x01#8
    · subst h1
      rw [if_pos rfl, Digit.press_one]
      by_cases hd9 : d.digit.val = 9
      · rw [if_pos ((Digit.index_eq_nine_iff h.arrayIdx).mpr hd9)]
        exact ⟨s, rfl, rfl, hstay _ (Digit.up_of_eq hd9)⟩
      · rw [if_neg (fun hi => hd9 ((Digit.index_eq_nine_iff h.arrayIdx).mp hi)),
          if_neg (Digit.up_ne hd9)]
        exact storeHex_shows h (Digit.index_add_one h.arrayIdx hd9)
    · rw [if_neg h1]
      exact ⟨s, rfl, rfl, hstay _ (Digit.press_other d.digit h0 h1)⟩

/-- The `break` of the inner loop is never taken. -/
theorem keys_ne_one (x : Sample) : x.keys &&& 0x02#8 ≠ 1#8 := by
  intro h
  have hbit := congrArg (BitVec.getLsbD · 0) h
  simp at hbit

theorem step_outer (hpc : s.pc = .outer) (x : Sample) :
    step s x = some (if x.Pressed then { s with pc := .inner x.switches } else s) := by
  unfold step
  rw [hpc]
  exact (apply_ite some _ _ _).symm

theorem step_inner {switchVal : BitVec 8} (hpc : s.pc = .inner switchVal) (x : Sample) :
    step s x = if x.Pressed then some s else released s switchVal := by
  unfold step
  rw [hpc]
  exact if_neg (keys_ne_one x)

theorem released_shows (h : s.Shows d) (switchVal : BitVec 8) :
    ∃ s', released s switchVal = some s' ∧ s'.pc = .outer ∧
      s'.Shows (d.press switchVal) := by
  obtain ⟨s', hs', -, hshows⟩ := updateIdx_shows h switchVal
  refine ⟨{ s' with pc := .outer }, ?_, rfl, hshows.arrayIdx, hshows.hex⟩
  rw [released, hs']
  rfl

end PreLab

/-! ## The interrupt version -/

/-- Between two calls of `pushbutton_isr`, with nothing captured. -/
structure Serving.Shows (q : Serving) (d : Display) : Prop where
  cpu : q.system.cpu = .mainLoop
  edgeCapture : q.system.pushbuttons.edgeCapture = 0#4
  irqMask : q.system.pushbuttons.irqMask = 2#4
  arrayIdx : q.system.arrayIdx.toNat = d.digit.val
  hex : q.hex = d.shown.map segments

section Isr

variable {s s' : System} {pc : PushbuttonPc} {hex : List (BitVec 8)}

theorem returnIsr_succ (hcpu : s.cpu = .pushbuttonIsr pc) (h : pushbuttonIsr s pc = some s')
    (fuel : Nat) :
    returnIsr (fuel + 1) s hex = returnIsr fuel s' (hex ++ hexStore s pc) := by
  rw [returnIsr, hcpu]
  simp only [h, Option.bind_some]

theorem returnIsr_mainLoop (hcpu : s.cpu = .mainLoop) (fuel : Nat) :
    returnIsr (fuel + 1) s hex = some (s, hex) := by
  rw [returnIsr, hcpu]

/-- The acknowledgement at the end of the routine. -/
theorem returnIsr_loadEdgeCapture (hcpu : s.cpu = .pushbuttonIsr .loadEdgeCapture)
    (fuel : Nat) :
    returnIsr (fuel + 3) s hex = some ({ s with
      pushbuttons := { s.pushbuttons with edgeCapture := 0#4 }
      cpu := .mainLoop }, hex) := by
  rw [returnIsr_succ hcpu rfl, returnIsr_succ rfl rfl, returnIsr_mainLoop rfl]
  simp [hexStore, Pushbuttons.write, interruptmask]

theorem returnIsr_storeHex {digit : Digit} (hcpu : s.cpu = .pushbuttonIsr .storeHex)
    (h : s.arrayIdx.toNat = digit.val) (fuel : Nat) :
    returnIsr (fuel + 1) s hex = returnIsr fuel { s with
      hex0 := (segments digit).setWidth 7
      cpu := .pushbuttonIsr .loadEdgeCapture } (hex ++ [segments digit]) := by
  have hget := getElem?_hexValues h
  have hstore : pushbuttonIsr s .storeHex = some { s with
      hex0 := (segments digit).setWidth 7
      cpu := .pushbuttonIsr .loadEdgeCapture } := by
    rw [pushbuttonIsr, hget]
    rfl
  rw [returnIsr_succ hcpu hstore, hexStore, hget]
  rfl

/-- A call of the routine is one press. -/
theorem returnIsr_press {d : Display} (hcpu : s.cpu = .pushbuttonIsr .loadSwitches)
    (hidx : s.arrayIdx.toNat = d.digit.val) (hhex : hex = d.shown.map segments)
    (hmask : s.pushbuttons.irqMask = 2#4) (released : Bool) :
    ∃ s' hex', returnIsr 6 s hex = some (s', hex') ∧
      Serving.Shows ⟨s', released, hex'⟩ (d.press s.switches) := by
  obtain ⟨hdigit, hnext⟩ := updateIdx_press
    { s with cpu := .pushbuttonIsr (.updateIdx s.switches) } s.switches hidx
  have hupdate : pushbuttonIsr { s with cpu := .pushbuttonIsr (.updateIdx s.switches) }
      (.updateIdx s.switches) = some _ := rfl
  have hport := (pushbuttonIsr_peripherals hupdate).1
  rw [returnIsr_succ hcpu rfl, returnIsr_succ rfl rfl]
  simp only [hexStore, List.append_nil]
  generalize updateIdx { s with cpu := .pushbuttonIsr (.updateIdx s.switches) } s.switches =
    s₁ at hdigit hnext hport ⊢
  have hmask₁ : s₁.pushbuttons.irqMask = 2#4 := by
    rw [hport]
    exact hmask
  by_cases hsame : d.digit.press s.switches = d.digit
  · rw [if_pos hsame] at hnext
    rw [Display.press_of_eq hsame]
    rw [hsame] at hdigit
    exact ⟨_, _, returnIsr_loadEdgeCapture hnext 1, rfl, rfl, hmask₁, hdigit, hhex⟩
  · rw [if_neg hsame] at hnext
    rw [returnIsr_storeHex hnext hdigit, returnIsr_loadEdgeCapture rfl]
    refine ⟨_, _, rfl, rfl, rfl, hmask₁, hdigit, ?_⟩
    rw [Display.press, if_neg hsame, List.map_append, hhex]
    rfl

end Isr

theorem serve_quiet {q : Serving} {d : Display} {x : Sample} (h : q.Shows d)
    (hx : ¬ (x.Pressed ∧ q.wasReleased = true)) :
    ∃ q', serve q x = some q' ∧ q'.wasReleased = !x.Pressed ∧ q'.Shows d :=
  ⟨_, if_neg hx, rfl, h.cpu, h.edgeCapture, h.irqMask, h.arrayIdx, h.hex⟩

theorem serve_press {q : Serving} {d : Display} {x : Sample} (h : q.Shows d)
    (hx : x.Pressed) (hreleased : q.wasReleased = true) :
    ∃ q', serve q x = some q' ∧ q'.wasReleased = false ∧ q'.Shows (d.press x.switches) := by
  have hirq : (q.system.pushbuttons.fallingEdge key1).irq = true := by
    rw [Pushbuttons.irq, Pushbuttons.fallingEdge]
    simp only [h.edgeCapture, h.irqMask]
    decide
  obtain ⟨s', hex', hreturn, hshows⟩ := returnIsr_press (s := { q.system with
    pushbuttons := q.system.pushbuttons.fallingEdge key1
    switches := x.switches
    cpu := .pushbuttonIsr .loadSwitches }) rfl h.arrayIdx h.hex h.irqMask false
  refine ⟨⟨s', false, hex'⟩, ?_, rfl, hshows⟩
  have henter : step { q.system with
      pushbuttons := q.system.pushbuttons.fallingEdge key1
      switches := x.switches } .enterPushbuttonIsr = some { q.system with
      pushbuttons := q.system.pushbuttons.fallingEdge key1
      switches := x.switches
      cpu := .pushbuttonIsr .loadSwitches } := if_pos ⟨h.cpu, hirq⟩
  rw [serve, step, Option.bind_some, if_pos ⟨hx, hreleased⟩, step, Option.bind_some, henter,
    Option.bind_some, hreturn]
  rfl

/-! ## Both on one stream -/

/-- What both versions show while the stream lasts: with the key up the same, with the
key down the polling version owes the press that it has latched. -/
def InStep (p : PreLab.State) (q : Serving) : Prop :=
  match p.pc with
  | .outer => q.wasReleased = true ∧ ∃ d, p.Shows d ∧ q.Shows d
  | .inner switchVal => q.wasReleased = false ∧ ∃ d, p.Shows d ∧ q.Shows (d.press switchVal)

theorem inStep_outer {p : PreLab.State} {q : Serving} {d : Display} (hpc : p.pc = .outer)
    (hreleased : q.wasReleased = true) (hp : p.Shows d) (hq : q.Shows d) : InStep p q := by
  rw [InStep, hpc]
  exact ⟨hreleased, d, hp, hq⟩

theorem inStep_inner {p : PreLab.State} {q : Serving} {d : Display} {switchVal : BitVec 8}
    (hpc : p.pc = .inner switchVal) (hreleased : q.wasReleased = false) (hp : p.Shows d)
    (hq : q.Shows (d.press switchVal)) : InStep p q := by
  rw [InStep, hpc]
  exact ⟨hreleased, d, hp, hq⟩

theorem inStep_sample {p : PreLab.State} {q : Serving} (h : InStep p q) (x : Sample) :
    ∃ p' q', PreLab.step p x = some p' ∧ serve q x = some q' ∧ InStep p' q' ∧
      (¬ x.Pressed → p'.pc = .outer) := by
  unfold InStep at h
  split at h
  · next hpc =>
      obtain ⟨hreleased, d, hp, hq⟩ := h
      rw [PreLab.step_outer hpc]
      by_cases hx : x.Pressed
      · -- the interrupt version presses, the polling version latches the switches
        obtain ⟨q', hq', hwas, hshows⟩ := serve_press hq hx hreleased
        rw [if_pos hx]
        exact ⟨_, q', rfl, hq', inStep_inner rfl hwas ⟨hp.arrayIdx, hp.hex⟩ hshows,
          fun hnot => absurd hx hnot⟩
      · obtain ⟨q', hq', hwas, hshows⟩ := serve_quiet (x := x) hq (fun hxq => hx hxq.1)
        rw [if_neg hx]
        exact ⟨p, q', rfl, hq', inStep_outer hpc (by simp [hwas, hx]) hp hshows, fun _ => hpc⟩
  · next switchVal hpc =>
      obtain ⟨hreleased, d, hp, hq⟩ := h
      rw [PreLab.step_inner hpc]
      obtain ⟨q', hq', hwas, hshows⟩ := serve_quiet (x := x) hq
        (fun hxq => Bool.false_ne_true (hreleased.symm.trans hxq.2))
      by_cases hx : x.Pressed
      · rw [if_pos hx]
        refine ⟨p, q', rfl, hq', ?_, fun hnot => absurd hx hnot⟩
        unfold InStep
        rw [hpc]
        exact ⟨by simp [hwas, hx], d, hp, hshows⟩
      · -- the polling version pays its press
        obtain ⟨p', hp', hpc', hpays⟩ := PreLab.released_shows hp switchVal
        rw [if_neg hx]
        exact ⟨p', q', hp', hq', inStep_outer hpc' (by simp [hwas, hx]) hpays hshows,
          fun _ => hpc'⟩

theorem inStep_bounds {p : PreLab.State} {q : Serving} (h : InStep p q) :
    p.arrayIdx.toNat ≤ 9 ∧ q.system.arrayIdx.toNat ≤ 9 := by
  have hle : ∀ d : Digit, d.val ≤ 9 := fun d => Nat.le_of_lt_succ d.isLt
  unfold InStep at h
  split at h
  · obtain ⟨-, d, hp, hq⟩ := h
    rw [hp.arrayIdx, hq.arrayIdx]
    exact ⟨hle _, hle _⟩
  · obtain ⟨-, d, hp, hq⟩ := h
    rw [hp.arrayIdx, hq.arrayIdx]
    exact ⟨hle _, hle _⟩

section Stream

variable {s₀ : System} (h₀ : Start s₀) {x : Sample} (hx : ¬ x.Pressed)

include h₀ hx

theorem inStep_first : ∃ q, serve (Serving.start s₀) x = some q ∧
    PreLab.step PreLab.start x = some PreLab.start ∧ InStep PreLab.start q := by
  have hshows : (Serving.start s₀).Shows Display.start := by
    refine ⟨h₀.cpu, h₀.edgeCapture, h₀.irqMask, ?_, rfl⟩
    change s₀.arrayIdx.toNat = 0
    rw [h₀.arrayIdx]
    rfl
  obtain ⟨q, hq, hwas, hq'⟩ := serve_quiet (x := x) hshows (fun hxq => hx hxq.1)
  refine ⟨q, hq, ?_, ?_⟩
  · rw [PreLab.step_outer rfl, if_neg hx]
  · exact inStep_outer (d := Display.start) rfl (by simp [hwas, hx]) ⟨rfl, rfl⟩ hq'

theorem inStep_stream (xs : List Sample) : ∃ p q, PreLab.main (x :: xs) = some p ∧
    serveAll s₀ (x :: xs) = some q ∧ InStep p q := by
  obtain ⟨q₁, hq₁, hp₁, hstep⟩ := inStep_first h₀ hx
  obtain ⟨p, q, hp, hq, h⟩ := foldlM_related InStep (fun p q x hpq => by
    obtain ⟨p', q', hp', hq', hpq', -⟩ := inStep_sample hpq x
    exact ⟨p', q', hp', hq', hpq'⟩) hstep xs
  refine ⟨p, q, ?_, ?_, h⟩
  · rw [PreLab.main, List.foldlM_cons, hp₁]
    exact hp
  · rw [serveAll, List.foldlM_cons, hq₁]
    exact hq

/-- A stream that ends with the key up leaves no press owed. -/
theorem inStep_end (xs : List Sample) (hlast : ∀ y ∈ (x :: xs).getLast?, ¬ y.Pressed) :
    ∃ p q d, PreLab.main (x :: xs) = some p ∧ serveAll s₀ (x :: xs) = some q ∧
      p.Shows d ∧ q.Shows d := by
  have hout : ∃ p q, PreLab.main (x :: xs) = some p ∧ serveAll s₀ (x :: xs) = some q ∧
      InStep p q ∧ p.pc = .outer := by
    rcases List.eq_nil_or_concat xs with rfl | ⟨ys, y, rfl⟩
    · obtain ⟨q, hq, hp, h⟩ := inStep_first h₀ hx
      refine ⟨PreLab.start, q, ?_, ?_, h, rfl⟩
      · rw [PreLab.main, List.foldlM_cons, hp]
        rfl
      · rw [serveAll, List.foldlM_cons, hq]
        rfl
    · obtain ⟨p, q, hp, hq, h⟩ := inStep_stream h₀ hx ys
      obtain ⟨p', q', hp', hq', h', hpc⟩ := inStep_sample h y
      have hy : ¬ y.Pressed := by
        apply hlast
        rw [List.concat_eq_append, ← List.cons_append, List.getLast?_concat]
        exact Option.mem_some_self y
      refine ⟨p', q', ?_, ?_, h', hpc hy⟩
      · rw [PreLab.main] at hp ⊢
        rw [List.concat_eq_append, ← List.cons_append, List.foldlM_append, hp]
        exact (bind_pure _).trans hp'
      · rw [serveAll] at hq ⊢
        rw [List.concat_eq_append, ← List.cons_append, List.foldlM_append, hq]
        exact (bind_pure _).trans hq'
  obtain ⟨p, q, hp, hq, h, hpc⟩ := hout
  unfold InStep at h
  rw [hpc] at h
  obtain ⟨-, d, hpd, hqd⟩ := h
  exact ⟨p, q, d, hp, hq, hpd, hqd⟩

end Stream

/-- On every stream of samples that begins and ends with KEY1 up, both versions end
with the same index and have stored the same bytes to the display.  Neither reads its
table out of bounds, in this stream or in any part of it. -/
theorem polling_agrees {s₀ : System} (h₀ : Start s₀) (samples : List Sample)
    (hfirst : ∀ x ∈ samples.head?, ¬ x.Pressed)
    (hlast : ∀ x ∈ samples.getLast?, ¬ x.Pressed) :
    ∃ p q, PreLab.main samples = some p ∧ serveAll s₀ samples = some q ∧
      p.arrayIdx = q.system.arrayIdx ∧ p.hex.getLast? = q.hex.getLast? ∧ p.hex = q.hex ∧
      ∀ n, ∃ p' q', PreLab.main (samples.take n) = some p' ∧
        serveAll s₀ (samples.take n) = some q' ∧
        p'.arrayIdx.toNat ≤ 9 ∧ q'.system.arrayIdx.toNat ≤ 9 := by
  have hzero : s₀.arrayIdx = 0#16 := h₀.arrayIdx
  have hempty : PreLab.main [] = some PreLab.start ∧
      serveAll s₀ [] = some (Serving.start s₀) := ⟨rfl, rfl⟩
  have hbounds : PreLab.start.arrayIdx.toNat ≤ 9 ∧
      (Serving.start s₀).system.arrayIdx.toNat ≤ 9 := by
    refine ⟨by decide, ?_⟩
    change s₀.arrayIdx.toNat ≤ 9
    rw [hzero]
    decide
  cases samples with
  | nil =>
      refine ⟨_, _, hempty.1, hempty.2, hzero.symm, rfl, rfl, fun n => ?_⟩
      rw [List.take_nil]
      exact ⟨_, _, hempty.1, hempty.2, hbounds⟩
  | cons x xs =>
      have hx : ¬ x.Pressed := hfirst x rfl
      obtain ⟨p, q, d, hp, hq, hpd, hqd⟩ := inStep_end h₀ hx xs hlast
      have hhex : p.hex = q.hex := hpd.hex.trans hqd.hex.symm
      have hidx : p.arrayIdx = q.system.arrayIdx :=
        BitVec.eq_of_toNat_eq (hpd.arrayIdx.trans hqd.arrayIdx.symm)
      refine ⟨p, q, hp, hq, hidx, by rw [hhex], hhex, fun n => ?_⟩
      cases n with
      | zero => exact ⟨_, _, hempty.1, hempty.2, hbounds⟩
      | succ n =>
          obtain ⟨p', q', hp', hq', h⟩ := inStep_stream h₀ hx (xs.take n)
          exact ⟨p', q', hp', hq', inStep_bounds h⟩

def backToBack : List Sample :=
  [⟨0x0F#8, 1#8⟩, ⟨0x0D#8, 1#8⟩, ⟨0x0F#8, 0#8⟩, ⟨0x0D#8, 1#8⟩, ⟨0x0D#8, 0#8⟩, ⟨0x0D#8, 0#8⟩,
    ⟨0x0F#8, 0#8⟩, ⟨0x0D#8, 0#8⟩, ⟨0x0F#8, 1#8⟩]

theorem polling_agrees_backToBack : ∃ p q, PreLab.main backToBack = some p ∧
    serveAll (main (altSysInit (reset 1#8))) backToBack = some q ∧ p.hex = q.hex := by
  obtain ⟨p, q, hp, hq, -, -, hhex, -⟩ :=
    polling_agrees (start_main 1#8) backToBack (by decide) (by decide)
  exact ⟨p, q, hp, hq, hhex⟩

example : (PreLab.main backToBack).map (·.hex) = some [0x40#8, 0x79#8, 0x24#8, 0x79#8] := by
  decide

/-! ## The stream as a run of the system -/

theorem returnIsr_runs {fuel : Nat} {s s' : System} {hex hex' : List (BitVec 8)}
    (h : returnIsr fuel s hex = some (s', hex')) : ∃ es, Runs step Always s es s' := by
  induction fuel generalizing s hex with
  | zero => cases h
  | succ fuel ih =>
      unfold returnIsr at h
      split at h
      · next pc hcpu =>
          obtain ⟨s₁, hs₁, hreturn⟩ := Option.bind_eq_some_iff.mp h
          obtain ⟨es, hes⟩ := ih hreturn
          have hstep : step s (.pushbuttonIsr pc) = some s₁ := (if_pos hcpu).trans hs₁
          exact ⟨_, (Runs.nil.snoc trivial hstep).append hes⟩
      · cases h
        exact ⟨[], Runs.nil⟩

theorem serve_runs {q q' : Serving} {x : Sample} (h : serve q x = some q') :
    ∃ es, Runs step Always q.system es q'.system := by
  obtain ⟨s, hs, h⟩ := Option.bind_eq_some_iff.mp h
  have hswitches : Runs step Always q.system _ s := Runs.nil.snoc trivial hs
  split at h
  · obtain ⟨s₂, hs₂, h⟩ := Option.bind_eq_some_iff.mp h
    obtain ⟨s₁, hs₁, hs₂⟩ := Option.bind_eq_some_iff.mp hs₂
    obtain ⟨⟨s₃, hex⟩, hreturn, rfl⟩ := Option.map_eq_some_iff.mp h
    obtain ⟨es, hes⟩ := returnIsr_runs hreturn
    exact ⟨_, ((hswitches.snoc trivial hs₁).snoc trivial hs₂).append hes⟩
  · cases h
    exact ⟨_, hswitches⟩

theorem foldlM_serve_runs {samples : List Sample} {q q' : Serving}
    (h : samples.foldlM serve q = some q') : ∃ es, Runs step Always q.system es q'.system := by
  induction samples generalizing q with
  | nil =>
      cases h
      exact ⟨[], Runs.nil⟩
  | cons x xs ih =>
      rw [List.foldlM_cons] at h
      obtain ⟨q₁, hq₁, hrest⟩ := Option.bind_eq_some_iff.mp h
      obtain ⟨es, hes⟩ := serve_runs hq₁
      obtain ⟨fs, hfs⟩ := ih hrest
      exact ⟨_, hes.append hfs⟩

/-- The calls on a stream make a run of the system, so what holds of its runs holds
here: between two samples the display register shows the index. -/
theorem hex0_serveAll {s₀ : System} (h₀ : Start s₀) {samples : List Sample} {q : Serving}
    (h : serveAll s₀ samples = some q) (hcpu : q.system.cpu = .mainLoop) :
    hexValues[q.system.arrayIdx.toNat]? = some (q.system.hex0.setWidth 8) := by
  obtain ⟨es, hes⟩ := foldlM_serve_runs h
  apply (displayInv_run h₀ hes).hex0
  rw [hcpu]
  intro hne
  cases hne

end Esd1.Lab3
