import Mathlib.Logic.Relation

/-!
# Total correctness of deterministic programs

A program is a partial function `next` on its states.  `Will next Q s` says that the run
from `s` comes to a state with `Q`; a program that gets stuck or runs for ever before that
does not.  A loop needs a variant, which is an index of its invariant.
-/

namespace Esd1.Programs

variable {σ : Type*} {next : σ → Option σ} {P Q R : σ → Prop} {s t : σ}

def Reaches (next : σ → Option σ) : σ → σ → Prop :=
  Relation.ReflTransGen fun s t => next s = some t

def Will (next : σ → Option σ) (Q : σ → Prop) (s : σ) : Prop :=
  ∃ t, Reaches next s t ∧ Q t

def Triple (next : σ → Option σ) (P Q : σ → Prop) : Prop := ∀ s, P s → Will next Q s

theorem Will.now (h : Q s) : Will next Q s := ⟨s, Relation.ReflTransGen.refl, h⟩

theorem Will.step (hnext : next s = some t) (h : Will next Q t) : Will next Q s := by
  obtain ⟨t', hreach, ht'⟩ := h
  exact ⟨t', Relation.ReflTransGen.head hnext hreach, ht'⟩

theorem Will.bind (h : Will next P s) (h' : Triple next P Q) : Will next Q s := by
  obtain ⟨t, hst, ht⟩ := h
  obtain ⟨t', htt', ht'⟩ := h' t ht
  exact ⟨t', hst.trans htt', ht'⟩

theorem Triple.seq (h : Triple next P Q) (h' : Triple next Q R) : Triple next P R :=
  fun s hs => (h s hs).bind h'

/-- A loop whose body lowers the variant comes to the end of its invariant. -/
theorem Triple.loop {I : Nat → σ → Prop} (h : ∀ n, Triple next (I (n + 1)) (I n)) (n : Nat) :
    Triple next (I n) (I 0) := by
  induction n with
  | zero => exact fun s hs => Will.now hs
  | succ n ih => exact (h n).seq ih

def Halted (next : σ → Option σ) (s : σ) : Prop := next s = some s

end Esd1.Programs
