import Mathlib.Algebra.Group.Nat.Defs
import Esd1.Hal.Alarms

/-!
# Alarms: the list and the clock

The invariant ties the 32-bit times and the rollover flags to the unbounded schedule, and
the pointers to the alarms that are registered.
-/

namespace Esd1.Hal.Alarms

open Interleaving
open Linked (IsRing Links)

/-! ## One alarm and the counter -/

/-- Seen at `clock`, the alarm stands for a callback at `due`. -/
structure Alarm.Keeps (alarm : Alarm) (clock due : Nat) : Prop where
  time : alarm.time = BitVec.ofNat 32 due
  later : clock < due
  within : due < clock + 2 ^ 32
  rollover : alarm.rollover = true ↔ due / 2 ^ 32 ≠ clock / 2 ^ 32

structure Alarm.Rings (alarm : Alarm) (clock due : Nat) : Prop where
  time : alarm.time = BitVec.ofNat 32 due
  now : due = clock
  rollover : alarm.rollover = false

/-- Within one turn of the counter, a smaller time is one of the next turn. -/
theorem lt_iff_turn {clock due : Nat} (hlater : clock < due) (hwithin : due < clock + 2 ^ 32) :
    BitVec.ofNat 32 due < BitVec.ofNat 32 clock ↔ due / 2 ^ 32 ≠ clock / 2 ^ 32 := by
  rw [BitVec.lt_def, BitVec.toNat_ofNat, BitVec.toNat_ofNat]
  omega

theorem keeps_start {nticks : BitVec 32} (clock : Nat) (hnticks : nticks ≠ BitVec.allOnes 32) :
    Alarm.Keeps
      ⟨nticks + BitVec.ofNat 32 clock + 1#32,
        decide (nticks + BitVec.ofNat 32 clock + 1#32 < BitVec.ofNat 32 clock)⟩
      clock (clock + nticks.toNat + 1) := by
  have htime : nticks + BitVec.ofNat 32 clock + 1#32 =
      BitVec.ofNat 32 (clock + nticks.toNat + 1) := by
    apply BitVec.eq_of_toNat_eq
    simp only [BitVec.toNat_add, BitVec.toNat_ofNat]
    omega
  have hlt : nticks.toNat < 2 ^ 32 - 1 := by
    have hne : nticks.toNat ≠ 2 ^ 32 - 1 := fun h => hnticks (BitVec.eq_of_toNat_eq h)
    have := nticks.isLt
    omega
  rw [htime]
  refine ⟨rfl, by omega, by omega, ?_⟩
  rw [decide_eq_true_iff]
  exact lt_iff_turn (by omega) (by omega)

theorem Alarm.Rings.again {alarm : Alarm} {clock due : Nat} {nextCallback : BitVec 32}
    (h : alarm.Rings clock due) (hnext : nextCallback ≠ 0#32) :
    (alarm.again (BitVec.ofNat 32 clock) nextCallback).Keeps clock
      (due + nextCallback.toNat) := by
  have hpos : 0 < nextCallback.toNat :=
    Nat.pos_of_ne_zero fun hzero => hnext (BitVec.eq_of_toNat_eq hzero)
  have hlt := nextCallback.isLt
  have htime : alarm.time + nextCallback = BitVec.ofNat 32 (due + nextCallback.toNat) := by
    rw [h.time, BitVec.ofNat_add, BitVec.ofNat_toNat, BitVec.setWidth_eq]
  have hnow := h.now
  refine ⟨htime, by omega, by omega, ?_⟩
  change (alarm.rollover || decide (alarm.time + nextCallback < BitVec.ofNat 32 clock)) = true ↔ _
  rw [h.rollover, Bool.false_or, decide_eq_true_iff, htime]
  exact lt_iff_turn (by omega) (by omega)

section Visit

variable {alarm : Alarm} {clock due : Nat}

theorem rollOver_time (nticks : BitVec 32) : (alarm.rollOver nticks).time = alarm.time := by
  unfold Alarm.rollOver
  split <;> rfl

/-- The flag is cleared with the tick that begins a turn, so it is the one for that tick. -/
theorem Alarm.Keeps.rollOver_rollover (h : alarm.Keeps clock due) :
    (alarm.rollOver (BitVec.ofNat 32 (clock + 1))).rollover = true ↔
      due / 2 ^ 32 ≠ (clock + 1) / 2 ^ 32 := by
  have hzero : BitVec.ofNat 32 (clock + 1) = 0#32 ↔ (clock + 1) % 2 ^ 32 = 0 := by
    rw [← BitVec.toNat_inj, BitVec.toNat_ofNat]
    exact Iff.rfl
  have hlater := h.later
  have hwithin := h.within
  have hrollover := h.rollover
  unfold Alarm.rollOver
  split
  · next hclear =>
      obtain ⟨hflag, hturn⟩ := hclear
      rw [hzero] at hturn
      have := hrollover.mp hflag
      simp only [Bool.false_eq_true, false_iff, not_not]
      omega
  · next hclear =>
      rw [hrollover, hzero] at hclear
      rw [hrollover]
      omega

theorem Alarm.Keeps.expired_iff (h : alarm.Keeps clock due) :
    (alarm.rollOver (BitVec.ofNat 32 (clock + 1))).expired (BitVec.ofNat 32 (clock + 1)) = true ↔
      due = clock + 1 := by
  have hlater := h.later
  have hwithin := h.within
  have hflag := h.rollOver_rollover
  unfold Alarm.expired
  rw [Bool.and_eq_true, Bool.not_eq_true', decide_eq_true_iff, rollOver_time, h.time,
    Bool.eq_false_iff, ne_eq, hflag, BitVec.le_def, BitVec.toNat_ofNat, BitVec.toNat_ofNat]
  omega

theorem Alarm.Keeps.rings (h : alarm.Keeps clock due) (hdue : due = clock + 1) :
    (alarm.rollOver (BitVec.ofNat 32 (clock + 1))).Rings (clock + 1) due where
  time := (rollOver_time _).trans h.time
  now := hdue
  rollover := by
    rw [Bool.eq_false_iff, ne_eq, h.rollOver_rollover, hdue]
    exact fun hne => hne rfl

theorem Alarm.Keeps.visit (h : alarm.Keeps clock due) (hdue : due ≠ clock + 1) :
    (alarm.rollOver (BitVec.ofNat 32 (clock + 1))).Keeps (clock + 1) due where
  time := (rollOver_time _).trans h.time
  later := by
    have := h.later
    omega
  within := by
    have := h.within
    omega
  rollover := h.rollOver_rollover

end Visit

/-! ## The registered alarms

The walk has passed the alarms `done` and has still to come to `todo`.  Those in front carry
the times for this tick already, the others still those for the last one. -/

theorem mem_ring {α : Type} (b : α) (xs : List α) : Ptr.alarm b ∉ Ptr.list :: xs.map .alarm ↔ b ∉ xs := by
  rw [List.mem_cons, List.mem_map]
  constructor
  · exact fun h hb => h (Or.inr ⟨b, hb, rfl⟩)
  · rintro h (heq | ⟨c, hc, heq⟩)
    · cases heq
    · cases heq
      exact h hc

theorem eq_nil_of_headD {α : Type} {todo : List α}
    (h : Ptr.list = (todo.map Ptr.alarm).headD .list) : todo = [] := by
  cases todo with
  | nil => rfl
  | cons a todo => cases h

theorem eq_cons_of_headD {α : Type} {a : α} {todo : List α}
    (h : Ptr.alarm a = (todo.map Ptr.alarm).headD .list) :
    ∃ todo', todo = a :: todo' := by
  cases todo with
  | nil => cases h
  | cons b todo =>
      cases h
      exact ⟨todo, rfl⟩

variable {α : Type} [DecidableEq α] {done todo : List α} {t : Schedule α} {s s' : System α}
  {a : α}

structure Keeping (running : Option α) (done todo : List α) (t : Schedule α) (s : System α) :
    Prop where
  ready : t.ready = true ↔ s.tickRate ≠ 0#32
  nticks : s.nticks = BitVec.ofNat 32 t.clock
  ring : IsRing s.links .list ((done ++ todo).map .alarm)
  free : ∀ a ∉ done ++ todo, s.links.next (.alarm a) = none ∨
    s.links.next (.alarm a) = some (.alarm a) ∧ s.links.previous (.alarm a) = some (.alarm a)
  due : ∀ a, (t.due a).isSome = true ↔ a ∈ done ++ todo
  passed : ∀ a ∈ done, ∀ d, t.due a = some d →
    if running = some a then (s.alarms a).Rings t.clock d else (s.alarms a).Keeps t.clock d
  ahead : ∀ a ∈ todo, ∀ d, t.due a = some d →
    ∃ clock, t.clock = clock + 1 ∧ (s.alarms a).Keeps clock d

def Stands (done todo : List α) (s : System α) : Prop :=
  match s.phase with
  | .idle => todo = []
  | .walking p => p = (todo.map .alarm).headD .list
  | .calling a next => next = (todo.map .alarm).headD .list ∧ a ∉ todo ∧
      (a ∈ done ∨ s.links.next (.alarm a) = some (.alarm a))

structure Inv (done todo : List α) (t : Schedule α) (s : System α) : Prop where
  keeping : Keeping s.phase.running done todo t s
  stands : Stands done todo s

namespace Keeping

variable {running : Option α}

theorem nodup (h : Keeping running done todo t s) : (done ++ todo).Nodup :=
  (List.nodup_cons.mp h.ring.nodup).2.of_map

theorem not_mem_of_free (h : Keeping running done todo t s) (hfree : s.Free a) :
    a ∉ done ++ todo := by
  intro ha
  obtain ⟨p, hp, hne⟩ := h.ring.next_of_mem (List.mem_map_of_mem ha)
  cases hfree with
  | inl hnone => cases hp.symm.trans hnone
  | inr hself => exact hne (Option.some.inj (hp.symm.trans hself))

theorem altAlarmStart {nticks : BitVec 32} (h : Keeping running done todo t s)
    (hrate : s.tickRate ≠ 0#32) (hnticks : nticks ≠ BitVec.allOnes 32) (hfree : s.Free a)
    (hrunning : running ≠ some a) :
    ∃ s', altAlarmStart s (some a) nticks = some (.ok s') ∧ s'.phase = s.phase ∧
      (∀ b ∉ a :: (done ++ todo), s'.links.next (.alarm b) = s.links.next (.alarm b)) ∧
      Keeping running (a :: done) todo (t.step (.start (some a) nticks)) s' := by
  have ha := h.not_mem_of_free hfree
  obtain ⟨links, hlinks, hring, hframe⟩ := h.ring.insert ((mem_ring a _).mpr ha)
  rw [Alarms.altAlarmStart, if_neg hrate]
  simp only [hlinks, Option.map_some]
  have hframe' (b : α) (hb : b ∉ a :: (done ++ todo)) :
      links.next (.alarm b) = s.links.next (.alarm b) ∧
        links.previous (.alarm b) = s.links.previous (.alarm b) :=
    hframe (.alarm b) ((mem_ring b (a :: (done ++ todo))).mpr hb)
  refine ⟨_, rfl, rfl, fun b hb => (hframe' b hb).1, ?_⟩
  rw [Schedule.step, if_pos (h.ready.mpr hrate)]
  have hother (b : α) (hb : b ∈ done ++ todo) : b ≠ a := fun heq => ha (heq ▸ hb)
  refine ⟨h.ready, h.nticks, hring, ?_, ?_, ?_, ?_⟩
  · intro b hb
    rw [(hframe' b hb).1, (hframe' b hb).2]
    exact h.free b fun hmem => hb (List.mem_cons_of_mem a hmem)
  · intro b
    by_cases hb : b = a
    · subst hb
      simp only [Function.update_self, Option.isSome_some, true_iff]
      exact List.mem_cons_self
    · simp only [Function.update_of_ne hb, h.due b]
      exact (List.mem_cons.trans (or_iff_right hb)).symm
  · intro b hb d hd
    cases List.mem_cons.mp hb with
    | inl heq =>
        subst heq
        simp only [Function.update_self, Option.some.injEq] at hd ⊢
        rw [if_neg hrunning, ← hd, h.nticks]
        exact keeps_start t.clock hnticks
    | inr hb =>
        have hne := hother b (List.mem_append_left todo hb)
        simp only [Function.update_of_ne hne] at hd ⊢
        exact h.passed b hb d hd
  · intro b hb d hd
    have hne := hother b (List.mem_append_right done hb)
    simp only [Function.update_of_ne hne] at hd ⊢
    exact h.ahead b hb d hd

theorem erase_append (h : (done ++ todo).Nodup) :
    (done ++ todo).erase a = done.erase a ++ todo.erase a := by
  by_cases ha : a ∈ done
  · have hdisjoint := (List.nodup_append'.mp h).2.2
    rw [List.erase_append_left _ ha, List.erase_of_not_mem (hdisjoint ha)]
  · rw [List.erase_append_right _ ha, List.erase_of_not_mem ha]

theorem altAlarmStop (h : Keeping running done todo t s)
    (ha : a ∈ done ++ todo ∨ s.links.next (.alarm a) = some (.alarm a)) :
    ∃ s', altAlarmStop s a = some s' ∧ s'.phase = s.phase ∧
      s'.links.next (.alarm a) = some (.alarm a) ∧
      (∀ b ∉ done ++ todo, s'.links.next (.alarm b) = s.links.next (.alarm b)) ∧
      Keeping running (done.erase a) (todo.erase a)
        { t with due := Function.update t.due a none } s' := by
  have hlinks : ∃ links, s.links.remove (.alarm a) = some links ∧
      IsRing links .list (((done ++ todo).erase a).map .alarm) ∧
      (links.next (.alarm a) = some (.alarm a) ∧ links.previous (.alarm a) = some (.alarm a)) ∧
      ∀ b ∉ done ++ todo, links.next (.alarm b) = s.links.next (.alarm b) ∧
        links.previous (.alarm b) = s.links.previous (.alarm b) := by
    by_cases hmem : a ∈ done ++ todo
    · obtain ⟨links, hremove, hring, hself, hframe⟩ := h.ring.remove (List.mem_map_of_mem hmem)
      rw [List.map_erase (fun _ _ => Ptr.alarm.inj)]
      exact ⟨links, hremove, hring, hself, fun b hb => hframe _ ((mem_ring b _).mpr hb)⟩
    · have hnext := ha.resolve_left hmem
      have hself := (h.free a hmem).resolve_left fun hnone => by cases hnone.symm.trans hnext
      rw [List.erase_of_not_mem hmem]
      exact ⟨s.links, Links.remove_self hself.1 hself.2, h.ring, hself, fun _ _ => ⟨rfl, rfl⟩⟩
  obtain ⟨links, hremove, hring, hself, hframe⟩ := hlinks
  have hmem (b : α) : b ∈ done.erase a ++ todo.erase a ↔ b ≠ a ∧ b ∈ done ++ todo := by
    rw [← erase_append h.nodup, h.nodup.mem_erase_iff]
  rw [Alarms.altAlarmStop, hremove]
  refine ⟨_, rfl, rfl, hself.1, fun b hb => (hframe b hb).1, h.ready, h.nticks, ?_, ?_, ?_, ?_, ?_⟩
  · rw [← erase_append h.nodup]
    exact hring
  · intro b hb
    by_cases heq : b = a
    · exact Or.inr (heq ▸ hself)
    · have hb : b ∉ done ++ todo := fun hdt => hb ((hmem b).mpr ⟨heq, hdt⟩)
      rw [(hframe b hb).1, (hframe b hb).2]
      exact h.free b hb
  · intro b
    rw [hmem b, ← h.due b]
    by_cases heq : b = a
    · subst heq
      simp only [Function.update_self, Option.isSome_none, Bool.false_eq_true, ne_eq,
        not_true_eq_false, false_and]
    · simp only [Function.update_of_ne heq, ne_eq, heq, not_false_eq_true, true_and]
  · intro b hb d hd
    have hne := ((hmem b).mp (List.mem_append_left _ hb)).1
    simp only [Function.update_of_ne hne] at hd
    exact h.passed b (List.mem_of_mem_erase hb) d hd
  · intro b hb d hd
    have hne := ((hmem b).mp (List.mem_append_right _ hb)).1
    simp only [Function.update_of_ne hne] at hd
    exact h.ahead b (List.mem_of_mem_erase hb) d hd

/-- With a tick the walk has everything before it. -/
theorem altTick (h : Keeping none done [] t s) :
    ∃ s', altTick s = some s' ∧ s'.phase = .walking ((done.map .alarm).headD .list) ∧
      Keeping none [] done { t with clock := t.clock + 1 } s' := by
  rw [Alarms.altTick, h.ring.next_head, List.append_nil]
  refine ⟨_, rfl, rfl, h.ready, ?_, ?_, ?_, ?_, ?_, ?_⟩
  · change s.nticks + 1#32 = BitVec.ofNat 32 (t.clock + 1)
    rw [h.nticks, BitVec.ofNat_add]
  · have hring := h.ring
    rw [List.append_nil] at hring
    exact hring
  · have hfree := h.free
    rw [List.append_nil] at hfree
    exact hfree
  · have hdue := h.due
    rw [List.append_nil] at hdue
    exact hdue
  · exact fun b hb => (List.not_mem_nil hb).elim
  · intro b hb d hd
    have hkeeps := h.passed b hb d hd
    rw [if_neg nofun] at hkeeps
    exact ⟨t.clock, rfl, hkeeps⟩

/-- The walk comes to an alarm, and calls back exactly when it is due. -/
theorem visit (h : Keeping none done (a :: todo) t s) :
    ∃ s', visit s a = some s' ∧ (s'.phase.running = some a ↔ t.due a = some t.clock) ∧
      (s'.phase = .calling a ((todo.map .alarm).headD .list) ∨
        s'.phase = .walking ((todo.map .alarm).headD .list)) ∧
      Keeping s'.phase.running (done ++ [a]) todo t s' := by
  have hsame : done ++ [a] ++ todo = done ++ a :: todo := by
    rw [List.append_assoc, List.singleton_append]
  have hnodup := h.nodup
  obtain ⟨-, htodo, hdisjoint⟩ := List.nodup_append'.mp hnodup
  have hdone (b : α) (hb : b ∈ done) : b ≠ a := fun heq => hdisjoint (heq ▸ hb) List.mem_cons_self
  have htodo (b : α) (hb : b ∈ todo) : b ≠ a :=
    fun heq => (List.nodup_cons.mp htodo).1 (heq ▸ hb)
  obtain ⟨d, hd⟩ := Option.isSome_iff_exists.mp
    ((h.due a).mpr (List.mem_append_right done List.mem_cons_self))
  obtain ⟨clock, hclock, hkeeps⟩ := h.ahead a List.mem_cons_self d hd
  have hnticks := h.nticks
  rw [hclock] at hnticks
  have hnext : s.links.next (.alarm a) = some ((todo.map .alarm).headD .list) := by
    have hring := h.ring
    rw [List.map_append, List.map_cons] at hring
    exact hring.next_eq
  have hkeeping (phase : Phase α) (hphase : ∀ b ∈ done, phase.running ≠ some b)
      (ha : if phase.running = some a then ((s.alarms a).rollOver s.nticks).Rings t.clock d
        else ((s.alarms a).rollOver s.nticks).Keeps t.clock d) :
      Keeping phase.running (done ++ [a]) todo t
        { s with
          alarms := Function.update s.alarms a ((s.alarms a).rollOver s.nticks)
          phase := phase } := by
    refine ⟨h.ready, h.nticks, hsame ▸ h.ring, hsame ▸ h.free, hsame ▸ h.due, ?_, ?_⟩
    · intro b hb d' hd'
      cases List.mem_append.mp hb with
      | inl hb =>
          simp only [Function.update_of_ne (hdone b hb)]
          have hpassed := h.passed b hb d' hd'
          rw [if_neg nofun] at hpassed
          rw [if_neg (hphase b hb)]
          exact hpassed
      | inr hb =>
          obtain rfl := List.mem_singleton.mp hb
          obtain rfl := Option.some.inj (hd.symm.trans hd')
          simp only [Function.update_self]
          exact ha
    · intro b hb d' hd'
      simp only [Function.update_of_ne (htodo b hb)]
      exact h.ahead b (List.mem_cons_of_mem a hb) d' hd'
  rw [Alarms.visit, hnext]
  refine ⟨_, rfl, ?_⟩
  by_cases hdue : d = clock + 1
  · have hexpired := hkeeps.expired_iff.mpr hdue
    rw [← hnticks] at hexpired
    simp only [hexpired, if_true]
    refine ⟨?_, Or.inl trivial, hkeeping (.calling a _) ?_ ?_⟩
    · exact iff_of_true rfl (by rw [hd, hclock, hdue])
    · exact fun b hb heq => hdone b hb (Option.some.inj heq).symm
    · rw [if_pos (show (Phase.calling a _).running = some a from rfl), hnticks, hclock]
      exact hkeeps.rings hdue
  · have hexpired := mt hkeeps.expired_iff.mp hdue
    rw [← hnticks, Bool.not_eq_true] at hexpired
    simp only [hexpired, Bool.false_eq_true, if_false]
    refine ⟨?_, Or.inr trivial, hkeeping (.walking _) (fun b _ => nofun) ?_⟩
    · apply iff_of_false nofun
      rw [hd, hclock]
      exact fun heq => hdue (Option.some.inj heq)
    · rw [if_neg nofun, hnticks, hclock]
      exact hkeeps.visit hdue

/-- A callback that answers an interval sets its alarm for the next time. -/
theorem again (next : Ptr α) {nextCallback : BitVec 32} (h : Keeping (some a) done todo t s)
    (htodo : a ∉ todo) (hanswer : nextCallback ≠ 0#32) :
    ∃ s', answer s a next nextCallback = some s' ∧ s'.phase = .walking next ∧
      Keeping none done todo (t.step (.answer a nextCallback)) s' := by
  rw [answer, if_neg hanswer]
  refine ⟨_, rfl, rfl, ?_⟩
  rw [Schedule.step, if_neg hanswer]
  have hdue (b : α) : (Function.update t.due a ((t.due a).map (· + nextCallback.toNat)) b).isSome =
      (t.due b).isSome := by
    by_cases hb : b = a
    · rw [hb, Function.update_self, Option.isSome_map]
    · rw [Function.update_of_ne hb]
  refine ⟨h.ready, h.nticks, h.ring, h.free, ?_, ?_, ?_⟩
  · intro b
    rw [hdue b]
    exact h.due b
  · intro b hb d hd
    rw [if_neg nofun]
    by_cases heq : b = a
    · subst heq
      simp only [Function.update_self] at hd ⊢
      obtain ⟨d', hd', rfl⟩ := Option.map_eq_some_iff.mp hd
      have hrings := h.passed b hb d' hd'
      rw [if_pos rfl] at hrings
      rw [h.nticks]
      exact hrings.again hanswer
    · simp only [Function.update_of_ne heq] at hd ⊢
      have hkeeps := h.passed b hb d hd
      rw [if_neg fun hsome => heq (Option.some.inj hsome).symm] at hkeeps
      exact hkeeps
  · intro b hb d hd
    have hne : b ≠ a := fun heq => htodo (heq ▸ hb)
    simp only [Function.update_of_ne hne] at hd ⊢
    exact h.ahead b hb d hd

/-- The callback's alarm is out of the list, or keeps its time like the others. -/
theorem returned (h : Keeping (some a) done todo t s) (ha : a ∉ done) :
    Keeping none done todo t s := by
  refine ⟨h.ready, h.nticks, h.ring, h.free, h.due, ?_, h.ahead⟩
  intro b hb d hd
  have hkeeps := h.passed b hb d hd
  have hne : some a ≠ some b := fun heq => ha (Option.some.inj heq ▸ hb)
  rw [if_neg hne] at hkeeps
  rw [if_neg nofun]
  exact hkeeps

theorem altSysclkInit (h : Keeping running done todo t s) (nticks : BitVec 32) :
    Keeping running done todo (t.step (.sysclkInit nticks)) (altSysclkInit s nticks) := by
  have hready := h.ready
  unfold Alarms.altSysclkInit
  split
  · next hrate =>
      refine ⟨?_, h.nticks, h.ring, h.free, h.due, h.passed, h.ahead⟩
      rw [hrate] at hready
      have hfalse : t.ready = false := Bool.not_eq_true _ ▸ mt hready.mp fun hne => hne rfl
      change (t.ready || decide (nticks ≠ 0#32)) = true ↔ nticks ≠ 0#32
      rw [hfalse, Bool.false_or, decide_eq_true_iff]
  · next hrate =>
      refine ⟨?_, h.nticks, h.ring, h.free, h.due, h.passed, h.ahead⟩
      change (t.ready || decide (nticks ≠ 0#32)) = true ↔ s.tickRate ≠ 0#32
      rw [hready.mpr hrate, Bool.true_or]
      exact iff_of_true rfl hrate

theorem withPhase (h : Keeping running done todo t s) (phase : Phase α) :
    Keeping running done todo t { s with phase := phase } :=
  ⟨h.ready, h.nticks, h.ring, h.free, h.due, h.passed, h.ahead⟩

end Keeping

/-! ## The walk -/

def Ahead (done todo todo' : List α) : Event α → Prop
  | .tick => todo' = done
  | .visit a => todo = a :: todo'
  | .stop a => todo' = todo.erase a
  | _ => todo' = todo

/-- The saved `next` stays the next one when another alarm is taken out. -/
theorem headD_erase (h : Ptr.alarm a ≠ (todo.map Ptr.alarm).headD .list) :
    ((todo.erase a).map Ptr.alarm).headD .list = (todo.map Ptr.alarm).headD .list := by
  cases todo with
  | nil => rfl
  | cons b todo =>
      have hne : b ≠ a := fun heq => h (heq ▸ rfl)
      rw [List.erase_cons_tail (by simpa using hne)]
      rfl

namespace Inv

variable {e : Event α}

theorem sysclkInit (h : Inv done todo t s) {nticks : BitVec 32}
    (hstep : step s (.sysclkInit nticks) = some s') :
    Inv done todo (t.step (.sysclkInit nticks)) s' := by
  simp only [step] at hstep
  split at hstep
  · cases hstep
    have hsame : (altSysclkInit s nticks).phase = s.phase ∧
        (altSysclkInit s nticks).links = s.links := by
      unfold altSysclkInit
      split <;> exact ⟨rfl, rfl⟩
    refine ⟨?_, ?_⟩
    · rw [hsame.1]
      exact h.keeping.altSysclkInit nticks
    · unfold Stands
      rw [hsame.1, hsame.2]
      exact h.stands
  · cases hstep

theorem start (h : Inv done todo t s) {alarm : Option α} {nticks : BitVec 32}
    (hok : Promised s (.start alarm nticks)) (hstep : step s (.start alarm nticks) = some s') :
    ∃ done', Inv done' todo (t.step (.start alarm nticks)) s' := by
  simp only [step] at hstep
  split at hstep
  · cases hstep
  · next hwalking =>
      by_cases hrate : s.tickRate = 0#32
      · unfold altAlarmStart at hstep
        rw [if_pos hrate] at hstep
        cases hstep
        have hready : ¬t.ready = true := mt h.keeping.ready.mp (not_not.mpr hrate)
        cases alarm with
        | none => exact ⟨done, h⟩
        | some a =>
            rw [Schedule.step, if_neg hready]
            exact ⟨done, h⟩
      · cases alarm with
        | none =>
            rw [altAlarmStart, if_neg hrate] at hstep
            cases hstep
            exact ⟨done, h⟩
        | some a =>
            obtain ⟨hnticks, hfree, hrunning⟩ := hok
            obtain ⟨s'', hs'', hphase, hframe, hkeeping⟩ :=
              h.keeping.altAlarmStart hrate hnticks hfree hrunning
            rw [hs''] at hstep
            cases hstep
            refine ⟨a :: done, hphase ▸ hkeeping, ?_⟩
            have hstands := h.stands
            unfold Stands at hstands ⊢
            rw [hphase]
            cases hp : s.phase with
            | idle =>
                rw [hp] at hstands
                exact hstands
            | walking p =>
                rw [hp] at hwalking
                exact (hwalking rfl).elim
            | calling b next =>
                rw [hp] at hstands hrunning
                obtain ⟨hnext, hb, hdone⟩ := hstands
                refine ⟨hnext, hb, ?_⟩
                by_cases hmem : b ∈ a :: (done ++ todo)
                · rw [← List.cons_append] at hmem
                  exact Or.inl ((List.mem_append.mp hmem).resolve_right hb)
                · rw [hframe b hmem]
                  exact Or.inr (hdone.resolve_left fun hb' =>
                    hmem (List.mem_cons_of_mem a (List.mem_append_left todo hb')))

theorem stop (h : Inv done todo t s) (hok : Promised s (.stop a))
    (hstep : step s (.stop a) = some s') :
    Inv (done.erase a) (todo.erase a) (t.step (.stop a)) s' := by
  simp only [step] at hstep
  split at hstep
  · cases hstep
  · next hwalking =>
      have ha : a ∈ done ++ todo ∨ s.links.next (.alarm a) = some (.alarm a) := by
        by_cases hmem : a ∈ done ++ todo
        · exact Or.inl hmem
        · refine Or.inr ((h.keeping.free a hmem).elim (fun hnone => ?_) And.left)
          rw [altAlarmStop, Links.remove, hnone] at hstep
          cases hstep
      obtain ⟨s'', hs'', hphase, hself, hframe, hkeeping⟩ := h.keeping.altAlarmStop ha
      obtain rfl := Option.some.inj (hs''.symm.trans hstep)
      refine ⟨hphase ▸ hkeeping, ?_⟩
      have hstands := h.stands
      unfold Stands at hstands ⊢
      rw [hphase]
      cases hp : s.phase with
      | idle =>
          rw [hp] at hstands
          change todo.erase a = []
          rw [show todo = [] from hstands]
          rfl
      | walking p =>
          rw [hp] at hwalking
          exact (hwalking rfl).elim
      | calling b next =>
          rw [hp] at hstands
          obtain ⟨hnext, hb, hdone⟩ := hstands
          have hsaved : Ptr.alarm a ≠ next := by
            intro heq
            apply hok
            rw [hp, heq]
            rfl
          rw [hnext] at hsaved
          refine ⟨hnext.trans (headD_erase hsaved).symm, fun hmem => hb (List.mem_of_mem_erase hmem),
            ?_⟩
          by_cases hba : b = a
          · exact Or.inr (hba ▸ hself)
          · by_cases hmem : b ∈ done
            · exact Or.inl ((List.mem_erase_of_ne hba).mpr hmem)
            · rw [hframe b (mt List.mem_append.mp (not_or.mpr ⟨hmem, hb⟩))]
              exact Or.inr (hdone.resolve_left hmem)

theorem tick (h : Inv done todo t s) (hstep : step s .tick = some s') :
    Inv [] done (t.step .tick) s' := by
  simp only [step] at hstep
  split at hstep
  · next hidle =>
      obtain ⟨hkeeping, hstands⟩ := h
      unfold Stands at hstands
      rw [hidle] at hkeeping hstands
      obtain rfl : todo = [] := hstands
      obtain ⟨s'', hs'', hphase, hkeeping'⟩ := hkeeping.altTick
      obtain rfl := Option.some.inj (hs''.symm.trans hstep)
      refine ⟨?_, ?_⟩
      · rw [hphase]
        exact hkeeping'
      · unfold Stands
        rw [hphase]
  · cases hstep

theorem visit (h : Inv done todo t s) (hstep : step s (.visit a) = some s') :
    (s'.phase.running = some a ↔ t.due a = some t.clock) ∧
      ∃ todo', todo = a :: todo' ∧ Inv (done ++ [a]) todo' t s' := by
  simp only [step] at hstep
  split at hstep
  · next hwalking =>
      obtain ⟨hkeeping, hstands⟩ := h
      have hnodup := hkeeping.nodup
      unfold Stands at hstands
      rw [hwalking] at hkeeping hstands
      obtain ⟨todo', rfl⟩ := eq_cons_of_headD hstands
      obtain ⟨s'', hs'', hrunning, hphase, hkeeping'⟩ := hkeeping.visit
      obtain rfl := Option.some.inj (hs''.symm.trans hstep)
      refine ⟨hrunning, todo', rfl, hkeeping', ?_⟩
      have ha := (List.nodup_cons.mp (List.nodup_append'.mp hnodup).2.1).1
      unfold Stands
      cases hphase with
      | inl hcalling =>
          rw [hcalling]
          exact ⟨rfl, ha, Or.inl (List.mem_append_right done (List.mem_singleton.mpr rfl))⟩
      | inr hgone => rw [hgone]
  · cases hstep

theorem answer (h : Inv done todo t s) {nextCallback : BitVec 32}
    (hstep : step s (.answer a nextCallback) = some s') :
    ∃ done', Inv done' todo (t.step (.answer a nextCallback)) s' := by
  simp only [step] at hstep
  split at hstep
  · next b next hp =>
      split at hstep
      · next hba =>
          subst hba
          obtain ⟨hkeeping, hstands⟩ := h
          unfold Stands at hstands
          rw [hp] at hkeeping hstands
          obtain ⟨hnext, hb, hdone⟩ := hstands
          by_cases hanswer : nextCallback = 0#32
          · obtain ⟨s'', hs'', -, -, -, hkeeping'⟩ :=
              hkeeping.altAlarmStop (hdone.imp_left (List.mem_append_left todo))
            rw [Alarms.answer, if_pos hanswer, hs''] at hstep
            cases hstep
            rw [List.erase_of_not_mem hb] at hkeeping'
            have hout : b ∉ done.erase b :=
              (List.nodup_append'.mp hkeeping.nodup).1.not_mem_erase
            rw [Schedule.step, if_pos hanswer]
            exact ⟨done.erase b, (hkeeping'.returned hout).withPhase _, hnext⟩
          · obtain ⟨s'', hs'', hphase, hkeeping'⟩ := hkeeping.again next hb hanswer
            obtain rfl := Option.some.inj (hs''.symm.trans hstep)
            refine ⟨done, ?_, ?_⟩
            · rw [hphase]
              exact hkeeping'
            · unfold Stands
              rw [hphase]
              exact hnext
      · cases hstep
  · cases hstep

/-- A registered alarm answers at the tick it is due. -/
theorem due_of_answer (h : Inv done todo t s) {nextCallback : BitVec 32} {d : Nat}
    (hstep : step s (.answer a nextCallback) = some s') (hd : t.due a = some d) :
    d = t.clock := by
  simp only [step] at hstep
  split at hstep
  · next b next hp =>
      split at hstep
      · next hba =>
          subst hba
          obtain ⟨hkeeping, hstands⟩ := h
          unfold Stands at hstands
          rw [hp] at hkeeping hstands
          have hb := (hkeeping.due b).mp (Option.isSome_iff_exists.mpr ⟨d, hd⟩)
          have hdone := (List.mem_append.mp hb).resolve_right hstands.2.1
          have hrings := hkeeping.passed b hdone d hd
          rw [if_pos (show (Phase.calling b next).running = some b from rfl)] at hrings
          exact hrings.now
      · cases hstep
  · cases hstep

theorem finish (h : Inv done todo t s) (hstep : step s .finish = some s') :
    Inv done todo t s' := by
  simp only [step] at hstep
  split at hstep
  · next hwalking =>
      cases hstep
      obtain ⟨hkeeping, hstands⟩ := h
      unfold Stands at hstands
      rw [hwalking] at hkeeping hstands
      exact ⟨hkeeping.withPhase _, eq_nil_of_headD hstands⟩
  · cases hstep

theorem step (h : Inv done todo t s) (hok : Promised s e) (hstep : step s e = some s') :
    ∃ done' todo', Inv done' todo' (t.step e) s' ∧ Ahead done todo todo' e := by
  cases e with
  | sysclkInit nticks => exact ⟨done, todo, h.sysclkInit hstep, rfl⟩
  | start alarm nticks =>
      obtain ⟨done', h'⟩ := h.start hok hstep
      exact ⟨done', todo, h', rfl⟩
  | stop a => exact ⟨_, _, h.stop hok hstep, rfl⟩
  | tick => exact ⟨_, _, h.tick hstep, rfl⟩
  | visit a =>
      obtain ⟨-, todo', htodo, h'⟩ := h.visit hstep
      exact ⟨done ++ [a], todo', h', htodo⟩
  | answer a nextCallback =>
      obtain ⟨done', h'⟩ := h.answer hstep
      exact ⟨done', todo, h', rfl⟩
  | finish => exact ⟨done, todo, h.finish hstep, rfl⟩

end Inv

theorem init_inv : Inv [] [] (schedule ([] : List (Event α))) init where
  keeping :=
    { ready := iff_of_false nofun (not_not.mpr rfl)
      nticks := rfl
      ring := ⟨List.nodup_singleton _, rfl, rfl⟩
      free := fun _ _ => Or.inl rfl
      due := fun _ => iff_of_false nofun List.not_mem_nil
      passed := fun _ h => (List.not_mem_nil h).elim
      ahead := fun _ h => (List.not_mem_nil h).elim }
  stands := rfl

/-- The invariant holds after every run, with the schedule of its events. -/
theorem inv {es : List (Event α)} (h : Runs step Promised init es s) :
    ∃ done todo, Inv done todo (schedule es) s := by
  apply h.invariant (fun es s => ∃ done todo, Inv done todo (schedule es) s) ⟨[], [], init_inv⟩
  rintro es s e s' ⟨done, todo, hinv⟩ hok hstep
  obtain ⟨done', todo', hinv', -⟩ := hinv.step hok hstep
  rw [schedule_snoc]
  exact ⟨done', todo', hinv'⟩

end Esd1.Hal.Alarms
