import Esd1.Hal.Proofs.Alarms

/-!
# Alarms: whole runs

The promises hold; nothing is said of how long a callback takes, of what it starts and
stops, or of how often the 32-bit counter has come round.
-/

namespace Esd1.Hal.Alarms

open Interleaving

def started : List (Event Bool) :=
  [.sysclkInit 10#32, .start (some true) 1#32, .start (some false) 0#32]

/-- Three ticks; the alarm `true` calls back at the second and takes itself out. -/
def ticked : List (Event Bool) :=
  [ .tick, .visit false, .answer false 2#32, .visit true, .finish,
    .tick, .visit false, .visit true, .answer true 0#32, .finish,
    .tick, .visit false, .answer false 2#32, .finish ]

variable {α : Type} [DecidableEq α] {s s₁ s₂ : System α} {es fs : List (Event α)}

/-! ## On time -/

/-- Between ticks, what is registered is due later. -/
theorem Inv.later {done todo : List α} {t : Schedule α} (hinv : Inv done todo t s)
    (hidle : s.phase = .idle) {a : α} {d : Nat} (hd : t.due a = some d) : t.clock < d := by
  obtain ⟨hkeeping, hstands⟩ := hinv
  unfold Stands at hstands
  rw [hidle] at hkeeping hstands
  obtain rfl : todo = [] := hstands
  have ha := (hkeeping.due a).mp (Option.isSome_iff_exists.mpr ⟨d, hd⟩)
  rw [List.append_nil] at ha
  have hkeeps := hkeeping.passed a ha d hd
  rw [if_neg nofun] at hkeeps
  exact hkeeps.later

/-- An alarm that the walk comes to calls back at the tick it is due and at no other, and
after each tick what is registered is due later. -/
theorem on_time (h : Runs step Promised init es s) :
    (∀ a s', step s (.visit a) = some s' →
      (s'.phase.running = some a ↔ (schedule es).due a = some (schedule es).clock)) ∧
    (s.phase = .idle → ∀ a d, (schedule es).due a = some d → (schedule es).clock < d) := by
  obtain ⟨done, todo, hinv⟩ := inv h
  exact ⟨fun a s' hstep => (hinv.visit hstep).1, fun hidle a d hd => hinv.later hidle hd⟩

theorem on_time_ticked : ∃ s, Runs step Promised init (started ++ ticked) s ∧
    ∀ a d, (schedule (started ++ ticked)).due a = some d →
      (schedule (started ++ ticked)).clock < d := by
  have hexec : (exec step Promised init (started ++ ticked)).map System.phase = some .idle := by
    decide +kernel
  obtain ⟨s, hruns, hidle⟩ := Runs.of_exec_map hexec
  exact ⟨s, hruns, (on_time hruns).2 hidle⟩

/-! ## The walk -/

/-- Whatever the callers do within their promises, no null pointer is followed, and the
walk of a tick goes on. -/
theorem never_stuck (h : Runs step Promised init es s) :
    match s.phase with
    | .idle => ∃ s', step s .tick = some s'
    | .walking .list => ∃ s', step s .finish = some s'
    | .walking (.alarm a) => ∃ s', step s (.visit a) = some s'
    | .calling a _ => ∀ nextCallback, ∃ s', step s (.answer a nextCallback) = some s' := by
  obtain ⟨done, todo, hkeeping, hstands⟩ := inv h
  unfold Stands at hstands
  cases hp : s.phase with
  | idle =>
      rw [hp] at hkeeping hstands
      obtain rfl : todo = [] := hstands
      obtain ⟨s', hs', -⟩ := hkeeping.altTick
      exact ⟨s', by rw [step, if_pos hp, hs']⟩
  | walking p =>
      rw [hp] at hkeeping hstands
      cases p with
      | list => exact ⟨_, by rw [step, if_pos hp]⟩
      | alarm a =>
          obtain ⟨todo', rfl⟩ := eq_cons_of_headD hstands
          obtain ⟨s', hs', -⟩ := hkeeping.visit
          exact ⟨s', by rw [step, if_pos hp, hs']⟩
  | calling a next =>
      rw [hp] at hkeeping hstands
      obtain ⟨-, htodo, hdone⟩ := hstands
      intro nextCallback
      by_cases hanswer : nextCallback = 0#32
      · obtain ⟨s', hs', -⟩ := hkeeping.altAlarmStop (hdone.imp_left (List.mem_append_left todo))
        exact ⟨_, by simp only [step, hp, if_true, answer, if_pos hanswer, hs']; rfl⟩
      · obtain ⟨s', hs', -⟩ := hkeeping.again next htodo hanswer
        exact ⟨s', by simp only [step, hp, if_true, hs']⟩

theorem never_stuck_ticked : ∃ s, Runs step Promised init (started ++ ticked) s ∧
    ∃ s', step s .tick = some s' := by
  have hexec : (exec step Promised init (started ++ ticked)).map System.phase = some .idle := by
    decide +kernel
  obtain ⟨s, hruns, hidle⟩ := Runs.of_exec_map hexec
  have hstuck := never_stuck hruns
  rw [hidle] at hstuck
  exact ⟨s, hruns, hstuck⟩

def Event.visited : Event α → Option α
  | .visit a => some a
  | _ => none

/-- What is behind the walk of a tick and what is ahead of it, by what has happened since. -/
structure Walk (registered : α → Prop) (fs : List (Event α)) (todo : List α) : Prop where
  nodup : (fs.filterMap Event.visited ++ todo).Nodup
  within : ∀ a ∈ fs.filterMap Event.visited ++ todo, registered a
  all : ∀ a, registered a →
    a ∈ fs.filterMap Event.visited ++ todo ∨ Event.stop a ∈ fs

theorem Walk.step {registered : α → Prop} {done todo todo' : List α} {e : Event α}
    (h : Walk registered fs todo) (hahead : Ahead done todo todo' e) (he : e ≠ .tick) :
    Walk registered (fs ++ [e]) todo' := by
  have hsame (hvisited : e.visited = none) (htodo : todo' = todo) :
      Walk registered (fs ++ [e]) todo' := by
    subst htodo
    have hvisits : (fs ++ [e]).filterMap Event.visited = fs.filterMap Event.visited := by
      rw [List.filterMap_append, List.filterMap_cons_none hvisited, List.filterMap_nil,
        List.append_nil]
    refine ⟨hvisits ▸ h.nodup, hvisits ▸ h.within, ?_⟩
    rw [hvisits]
    exact fun a ha => (h.all a ha).imp_right (List.mem_append_left [e])
  cases e with
  | tick => exact (he rfl).elim
  | visit a =>
      obtain rfl : todo = a :: todo' := hahead
      have hvisits : (fs ++ [Event.visit a]).filterMap Event.visited ++ todo' =
          fs.filterMap Event.visited ++ a :: todo' := by
        rw [List.filterMap_append, List.append_assoc]
        rfl
      refine ⟨hvisits ▸ h.nodup, hvisits ▸ h.within, ?_⟩
      rw [hvisits]
      exact fun b hb => (h.all b hb).imp_right (List.mem_append_left [Event.visit a])
  | stop a =>
      obtain rfl : todo' = todo.erase a := hahead
      have hvisits : (fs ++ [Event.stop a]).filterMap Event.visited =
          fs.filterMap Event.visited := by
        rw [List.filterMap_append]
        exact List.append_nil _
      have hsublist := (List.erase_sublist (a := a) (l := todo)).append_left
        (fs.filterMap Event.visited)
      refine ⟨?_, ?_, ?_⟩
      · rw [hvisits]
        exact hsublist.nodup h.nodup
      · rw [hvisits]
        exact fun b hb => h.within b (hsublist.subset hb)
      · intro b hb
        rw [hvisits]
        by_cases hba : b = a
        · exact Or.inr (hba ▸ List.mem_append_right fs (List.mem_singleton.mpr rfl))
        · refine (h.all b hb).imp (fun hmem => ?_) (List.mem_append_left [Event.stop a])
          exact List.mem_append.mpr
            ((List.mem_append.mp hmem).imp_right (List.mem_erase_of_ne hba).mpr)
  | sysclkInit nticks => exact hsame rfl hahead
  | start alarm nticks => exact hsame rfl hahead
  | answer a nextCallback => exact hsame rfl hahead
  | finish => exact hsame rfl hahead

/-- A tick visits the alarms that were registered when it began, each at most once, and
leaves out none that no callback has stopped. -/
theorem walk (h : Runs step Promised init es s) (htick : step s .tick = some s₁)
    (hwalk : Runs step Promised s₁ fs s₂) (hfs : Event.tick ∉ fs) :
    (fs.filterMap Event.visited).Nodup ∧
      (∀ a ∈ fs.filterMap Event.visited, ((schedule es).due a).isSome = true) ∧
      (s₂.phase = .idle → ∀ a, ((schedule es).due a).isSome = true →
        a ∈ fs.filterMap Event.visited ∨ Event.stop a ∈ fs) := by
  obtain ⟨done, todo, hinv⟩ := inv h
  have htodo : todo = [] := by
    have hstands := hinv.stands
    unfold Stands at hstands
    simp only [step] at htick
    split at htick
    · next hidle =>
        rw [hidle] at hstands
        exact hstands
    · cases htick
  have hdue := hinv.keeping.due
  rw [htodo, List.append_nil] at hdue
  have hnodup := (List.nodup_append'.mp hinv.keeping.nodup).1
  have hrun : Event.tick ∉ fs → ∃ done' todo' t, Inv done' todo' t s₂ ∧
      Walk (fun a => ((schedule es).due a).isSome = true) fs todo' := by
    refine hwalk.invariant (fun fs s => Event.tick ∉ fs → ∃ done' todo' t, Inv done' todo' t s ∧
      Walk (fun a => ((schedule es).due a).isSome = true) fs todo') ?_ ?_
    · intro
      refine ⟨[], done, _, hinv.tick htick, hnodup, fun a ha => (hdue a).mpr ha, ?_⟩
      exact fun a ha => Or.inl ((hdue a).mp ha)
    · intro fs s e s' ih hok hstep hfs
      obtain ⟨hfs, he⟩ := not_or.mp (mt List.mem_append.mpr hfs)
      obtain ⟨done', todo', t, hinv', hwalk'⟩ := ih hfs
      obtain ⟨done'', todo'', hinv'', hahead⟩ := hinv'.step hok hstep
      refine ⟨done'', todo'', _, hinv'', hwalk'.step hahead ?_⟩
      exact fun heq => he (List.mem_singleton.mpr heq.symm)
  obtain ⟨done', todo', t, hinv', hwalk'⟩ := hrun hfs
  refine ⟨(List.nodup_append'.mp hwalk'.nodup).1, ?_, ?_⟩
  · exact fun a ha => hwalk'.within a (List.mem_append_left todo' ha)
  · intro hidle a ha
    have hstands := hinv'.stands
    unfold Stands at hstands
    rw [hidle] at hstands
    obtain rfl : todo' = [] := hstands
    have hall := hwalk'.all a ha
    rw [List.append_nil] at hall
    exact hall

theorem walk_ticked : ∃ s s₁ s₂, Runs step Promised init started s ∧ step s .tick = some s₁ ∧
    Runs step Promised s₁ (ticked.tail.take 4) s₂ ∧
    ∀ a, ((schedule started).due a).isSome = true →
      a ∈ (ticked.tail.take 4).filterMap Event.visited ∨ Event.stop a ∈ ticked.tail.take 4 := by
  have hexec : ((exec step Promised init started).bind fun s => (step s .tick).bind fun s₁ =>
      (exec step Promised s₁ (ticked.tail.take 4)).map System.phase) = some .idle := by
    decide +kernel
  obtain ⟨s, hs, hexec⟩ := Option.bind_eq_some_iff.mp hexec
  obtain ⟨s₁, hs₁, hexec⟩ := Option.bind_eq_some_iff.mp hexec
  obtain ⟨s₂, hruns, hidle⟩ := Runs.of_exec_map hexec
  have hstarted := Runs.of_exec hs
  exact ⟨s, s₁, s₂, hstarted, hs₁, hruns, (walk hstarted hs₁ hruns (by decide)).2.2 hidle⟩

/-! ## Periodic callbacks -/

/-- With the callbacks counted so far, when the next one is due and that the last one is
past. -/
def Periodic (a : α) (first p k : Nat) (t : Schedule α) : Prop :=
  t.due a = some (first + k * p) ∧ (k = 0 ∨ first + k * p ≤ t.clock + p)

theorem Periodic.step {a : α} {first k : Nat} {p : BitVec 32} {done todo : List α}
    {t : Schedule α} {s s' : System α} {e : Event α} (h : Periodic a first p.toNat k t)
    (hinv : Inv done todo t s) (hok : Promised s e) (hstep : step s e = some s')
    (hp : p ≠ 0#32) (hstop : e ≠ .stop a) (hanswer : ∀ q, e = .answer a q → q = p) :
    Periodic a first p.toNat (k + [e].count (.answer a p)) (t.step e) := by
  obtain ⟨hdue, hlast⟩ := h
  have hmem := (hinv.keeping.due a).mp (Option.isSome_iff_exists.mpr ⟨_, hdue⟩)
  cases e with
  | sysclkInit nticks => exact ⟨hdue, hlast⟩
  | start alarm nticks =>
      cases alarm with
      | none => exact ⟨hdue, hlast⟩
      | some b =>
          have hne : a ≠ b := fun heq => hinv.keeping.not_mem_of_free hok.2.1 (heq ▸ hmem)
          rw [Schedule.step]
          split
          · exact ⟨(Function.update_of_ne hne _ _).trans hdue, hlast⟩
          · exact ⟨hdue, hlast⟩
  | stop b =>
      have hne : a ≠ b := fun heq => hstop (heq ▸ rfl)
      exact ⟨(Function.update_of_ne hne _ _).trans hdue, hlast⟩
  | tick =>
      refine ⟨hdue, hlast.imp_right fun hle => ?_⟩
      change first + k * p.toNat ≤ t.clock + 1 + p.toNat
      omega
  | visit b => exact ⟨hdue, hlast⟩
  | answer b q =>
      by_cases hba : a = b
      · subst hba
        obtain rfl := hanswer q rfl
        have hnow := hinv.due_of_answer hstep hdue
        unfold Periodic
        rw [List.count_singleton_self, Nat.add_mul, Nat.one_mul, ← Nat.add_assoc]
        refine ⟨?_, Or.inr ?_⟩
        · change Function.update t.due a _ a = _
          rw [Function.update_self, if_neg hp, hdue]
          rfl
        · exact Nat.add_le_add_right (Nat.le_of_eq hnow) q.toNat
      · have hne : Event.answer b q ≠ Event.answer a p := by
          intro heq
          cases heq
          exact hba rfl
        rw [List.count_singleton, if_neg (by simpa using hne)]
        exact ⟨(Function.update_of_ne hba _ _).trans hdue, hlast⟩
  | finish => exact ⟨hdue, hlast⟩

/-- An alarm that is started once, and whose callback always answers the same interval, has
called back exactly as often as the unbounded clock says. -/
theorem periodic {a : α} {n p : BitVec 32}
    (h : Runs step Promised init (es ++ .start (some a) n :: fs) s)
    (hready : (schedule es).ready = true) (hp : p ≠ 0#32) (hstop : Event.stop a ∉ fs)
    (hanswer : ∀ q, Event.answer a q ∈ fs → q = p) (hidle : s.phase = .idle) :
    fs.count (.answer a p) =
      ((schedule (es ++ .start (some a) n :: fs)).clock + p.toNat -
        ((schedule es).clock + n.toNat + 1)) / p.toNat := by
  obtain ⟨s₀, hes, hfs⟩ := h.split
  rw [← List.singleton_append] at hfs
  obtain ⟨s₁, hstart, hfs⟩ := hfs.split
  have hrun : Event.stop a ∉ fs → (∀ q, Event.answer a q ∈ fs → q = p) →
      ∃ done todo, Inv done todo (schedule (es ++ .start (some a) n :: fs)) s ∧
        Periodic a ((schedule es).clock + n.toNat + 1) p.toNat (fs.count (.answer a p))
          (schedule (es ++ .start (some a) n :: fs)) := by
    refine hfs.invariant (fun fs s => Event.stop a ∉ fs →
      (∀ q, Event.answer a q ∈ fs → q = p) →
      ∃ done todo, Inv done todo (schedule (es ++ .start (some a) n :: fs)) s ∧
        Periodic a ((schedule es).clock + n.toNat + 1) p.toNat (fs.count (.answer a p))
          (schedule (es ++ .start (some a) n :: fs))) ?_ ?_
    · intro _ _
      obtain ⟨done, todo, hinv⟩ := inv (hes.append hstart)
      refine ⟨done, todo, hinv, ?_, Or.inl rfl⟩
      rw [schedule_snoc, Schedule.step, if_pos hready, List.count_nil, Nat.zero_mul]
      exact Function.update_self _ _ _
    · intro fs s e s' ih hok hstep hstop hanswer
      obtain ⟨hstop, he⟩ := not_or.mp (mt List.mem_append.mpr hstop)
      obtain ⟨done, todo, hinv, hperiodic⟩ :=
        ih hstop fun q hq => hanswer q (List.mem_append_left [e] hq)
      obtain ⟨done', todo', hinv', -⟩ := hinv.step hok hstep
      rw [← List.cons_append, ← List.append_assoc, schedule_snoc, List.count_append]
      refine ⟨done', todo', hinv', hperiodic.step hinv hok hstep hp ?_ ?_⟩
      · exact fun heq => he (List.mem_singleton.mpr heq.symm)
      · exact fun q hq => hanswer q (List.mem_append_right fs (List.mem_singleton.mpr hq.symm))
  obtain ⟨done, todo, hinv, hdue, hlast⟩ := hrun hstop hanswer
  have hlater := hinv.later hidle hdue
  have hpos : 0 < p.toNat := Nat.pos_of_ne_zero fun hzero => hp (BitVec.eq_of_toNat_eq hzero)
  symm
  apply Nat.div_eq_of_lt_le
  · cases hlast with
    | inl hnone =>
        rw [hnone, Nat.zero_mul]
        exact Nat.zero_le _
    | inr hle => omega
  · rw [Nat.add_mul, Nat.one_mul]
    omega

theorem periodic_ticked : ticked.count (.answer false 2#32) =
    ((schedule (started.take 2 ++ .start (some false) 0#32 :: ticked)).clock + (2#32).toNat -
      ((schedule (started.take 2)).clock + (0#32).toNat + 1)) / (2#32).toNat := by
  have hexec : (exec step Promised init
      (started.take 2 ++ .start (some false) 0#32 :: ticked)).map System.phase = some .idle := by
    decide +kernel
  obtain ⟨s, hruns, hidle⟩ := Runs.of_exec_map hexec
  apply periodic hruns rfl (by decide) (by decide) _ hidle
  exact fun q hq => by simpa [ticked] using hq

end Esd1.Hal.Alarms
