import Mathlib.Data.List.Nodup
import Mathlib.Logic.Function.Basic

/-!
# Circular doubly linked lists

Elements of `P` hold two pointers each, which may be null.  A list is known by its head,
which is not one of its elements: from the head the pointers lead through the elements
and back.
-/

namespace Esd1.Linked

structure Links (P : Type*) where
  next : P → Option P
  previous : P → Option P

namespace Links

variable {P : Type*}

def Joined (m : Links P) (a b : P) : Prop := m.next a = some b ∧ m.previous b = some a

/-- The pointers lead from `a` through `xs` to `b`, and back. -/
def Segment (m : Links P) : P → List P → P → Prop
  | a, [], b => m.Joined a b
  | a, x :: xs, b => m.Joined a x ∧ m.Segment x xs b

variable {m m' : Links P} {a b x : P} {xs ys : List P}

theorem Segment.append_iff :
    m.Segment a (xs ++ x :: ys) b ↔ m.Segment a xs x ∧ m.Segment x ys b := by
  induction xs generalizing a with
  | nil => exact Iff.rfl
  | cons y xs ih =>
      change m.Joined a y ∧ m.Segment y (xs ++ x :: ys) b ↔
        (m.Joined a y ∧ m.Segment y xs x) ∧ m.Segment x ys b
      rw [ih, and_assoc]

theorem Segment.congr (h : m.Segment a xs b) (hnext : ∀ y ∈ a :: xs, m'.next y = m.next y)
    (hprevious : ∀ y, y ∈ xs ∨ y = b → m'.previous y = m.previous y) : m'.Segment a xs b := by
  induction xs generalizing a with
  | nil =>
      exact ⟨(hnext a List.mem_cons_self).trans h.1, (hprevious b (Or.inr rfl)).trans h.2⟩
  | cons x xs ih =>
      obtain ⟨hjoined, hsegment⟩ := h
      refine ⟨⟨(hnext a List.mem_cons_self).trans hjoined.1,
        (hprevious x (Or.inl List.mem_cons_self)).trans hjoined.2⟩, ?_⟩
      apply ih hsegment
      · exact fun y hy => hnext y (List.mem_cons_of_mem a hy)
      · exact fun y hy => hprevious y (hy.imp_left (List.mem_cons_of_mem x))

theorem Segment.next_eq (h : m.Segment a xs b) : m.next a = some (xs.headD b) := by
  cases xs with
  | nil => exact h.1
  | cons x xs => exact h.1.1

theorem Segment.previous_eq (h : m.Segment a xs b) : m.previous b = some (xs.getLastD a) := by
  induction xs generalizing a with
  | nil => exact h.2
  | cons x xs ih =>
      rw [List.getLastD_cons]
      exact ih h.2

/-- Two segments stay a segment without the element between them, where the last pointers of
the first and the first pointers of the second are joined. -/
theorem Segment.without (hxs : m.Segment a xs x) (hys : m.Segment x ys b) (ha : (a :: xs).Nodup)
    (hjoined : m'.Joined (xs.getLastD a) (ys.headD b))
    (hnext : ∀ y ∈ a :: xs, y ≠ xs.getLastD a → m'.next y = m.next y)
    (hprevious : ∀ y ∈ xs, m'.previous y = m.previous y)
    (hnext' : ∀ y ∈ ys, m'.next y = m.next y)
    (hprevious' : ∀ y, y ∈ ys ∨ y = b → y ≠ ys.headD b → m'.previous y = m.previous y)
    (hb : (b :: ys).Nodup) : m'.Segment a (xs ++ ys) b := by
  induction xs generalizing a with
  | nil =>
      cases ys with
      | nil => exact hjoined
      | cons y ys =>
          obtain ⟨hby, hrest⟩ := List.nodup_cons.mp hb
          obtain ⟨hy, -⟩ := List.nodup_cons.mp hrest
          refine ⟨hjoined, hys.2.congr hnext' ?_⟩
          rintro z (hz | rfl)
          · apply hprevious' z (Or.inl (List.mem_cons_of_mem y hz))
            exact fun heq => hy ((show z = y from heq) ▸ hz)
          · apply hprevious' z (Or.inr rfl)
            exact fun heq => hby ((show z = y from heq) ▸ List.mem_cons_self)
  | cons z zs ih =>
      obtain ⟨ha, hzs⟩ := List.nodup_cons.mp ha
      rw [List.getLastD_cons] at hjoined hnext
      refine ⟨⟨?_, ?_⟩, ih hxs.2 hzs hjoined ?_ ?_⟩
      · apply (hnext a List.mem_cons_self _).trans hxs.1.1
        exact fun heq => ha (heq ▸ List.getLastD_mem_cons)
      · exact (hprevious z List.mem_cons_self).trans hxs.1.2
      · exact fun y hy => hnext y (List.mem_cons_of_mem a hy)
      · exact fun y hy => hprevious y (List.mem_cons_of_mem z hy)

variable [DecidableEq P]

def setNext (m : Links P) (p : P) (q : Option P) : Links P :=
  { m with next := Function.update m.next p q }

def setPrevious (m : Links P) (p : P) (q : Option P) : Links P :=
  { m with previous := Function.update m.previous p q }

/-- Put `entry` behind `list`.  To follow a null pointer is an error. -/
def insert (m : Links P) (list entry : P) : Option (Links P) :=
  (m.next list).map fun first =>
    (((m.setPrevious entry (some list)).setNext entry (some first)).setPrevious first
      (some entry)).setNext list (some entry)

/-- Take `entry` out, and let it point to itself. -/
def remove (m : Links P) (entry : P) : Option (Links P) :=
  (m.next entry).bind fun after =>
    (m.previous entry).map fun before =>
      (((m.setPrevious after (some before)).setNext before (some after)).setPrevious entry
        (some entry)).setNext entry (some entry)

theorem remove_self (hnext : m.next x = some x) (hprevious : m.previous x = some x) :
    m.remove x = some m := by
  have hsame (f : P → Option P) (hf : f x = some x) : Function.update f x (some x) = f := by
    rw [← hf, Function.update_eq_self]
  unfold remove
  rw [hnext, hprevious]
  simp only [Option.bind_some, Option.map_some, setNext, setPrevious]
  rw [hsame _ hnext, hsame _ hnext, hsame _ hprevious, hsame _ hprevious]

end Links

structure IsRing {P : Type*} (m : Links P) (head : P) (xs : List P) : Prop where
  nodup : (head :: xs).Nodup
  segment : m.Segment head xs head

namespace IsRing

variable {P : Type*} {m : Links P} {head x : P} {xs ys : List P}

theorem next_head (h : IsRing m head xs) : m.next head = some (xs.headD head) :=
  h.segment.next_eq

/-- The element after `x`. -/
theorem next_eq (h : IsRing m head (xs ++ x :: ys)) : m.next x = some (ys.headD head) :=
  (Links.Segment.append_iff.mp h.segment).2.next_eq

theorem ne_head (h : IsRing m head xs) (hx : x ∈ xs) : x ≠ head := by
  rintro rfl
  exact (List.nodup_cons.mp h.nodup).1 hx

theorem next_of_mem (h : IsRing m head xs) (hx : x ∈ xs) : ∃ y, m.next x = some y ∧ y ≠ x := by
  obtain ⟨as, bs, rfl⟩ := List.append_of_mem hx
  refine ⟨bs.headD head, h.next_eq, ?_⟩
  cases bs with
  | nil => exact (h.ne_head hx).symm
  | cons b bs =>
      have hnodup := (List.nodup_cons.mp h.nodup).2
      have hxbs := (List.nodup_cons.mp (List.nodup_append'.mp hnodup).2.1).1
      exact fun heq => hxbs ((show b = x from heq) ▸ List.mem_cons_self)

variable [DecidableEq P]

/-- An insertion puts a new element first, and leaves the other lists alone. -/
theorem insert (h : IsRing m head xs) (hfresh : x ∉ head :: xs) :
    ∃ m', m.insert head x = some m' ∧ IsRing m' head (x :: xs) ∧
      ∀ y ∉ head :: x :: xs, m'.next y = m.next y ∧ m'.previous y = m.previous y := by
  obtain ⟨hhead, hxs⟩ := List.nodup_cons.mp h.nodup
  obtain ⟨hne, hx⟩ : x ≠ head ∧ x ∉ xs := not_or.mp (mt List.mem_cons.mpr hfresh)
  have hfirst : x ≠ xs.headD head := by
    cases xs with
    | nil => exact hne
    | cons y ys => exact fun heq => hx (heq ▸ List.mem_cons_self)
  have hnext (y : P) (hy : y ≠ head) (hyx : y ≠ x) : Function.update
      (Function.update m.next x (some (xs.headD head))) head (some x) y = m.next y := by
    rw [Function.update_of_ne hy, Function.update_of_ne hyx]
  have hprevious (y : P) (hy : y ≠ xs.headD head) (hyx : y ≠ x) : Function.update
      (Function.update m.previous x (some head)) (xs.headD head) (some x) y = m.previous y := by
    rw [Function.update_of_ne hy, Function.update_of_ne hyx]
  rw [Links.insert, h.next_head]
  refine ⟨_, rfl, ⟨?_, ⟨?_, ?_⟩, ?_⟩, ?_⟩
  · exact List.nodup_cons.mpr ⟨List.not_mem_cons_of_ne_of_not_mem hne.symm hhead,
      List.nodup_cons.mpr ⟨hx, hxs⟩⟩
  · exact Function.update_self _ _ _
  · exact (Function.update_of_ne hfirst _ _).trans (Function.update_self _ _ _)
  · cases xs with
    | nil =>
        exact ⟨(Function.update_of_ne hne _ _).trans (Function.update_self _ _ _),
          Function.update_self _ _ _⟩
    | cons y ys =>
        have hy := (List.nodup_cons.mp hxs).1
        refine ⟨⟨(Function.update_of_ne hne _ _).trans (Function.update_self _ _ _),
          Function.update_self _ _ _⟩, ?_⟩
        apply h.segment.2.congr
        · intro z hz
          apply hnext
          · exact fun heq => hhead (heq ▸ hz)
          · exact fun heq => hx (heq ▸ hz)
        · rintro z (hz | rfl)
          · apply hprevious
            · exact fun heq => hy ((show z = y from heq) ▸ hz)
            · exact fun heq => hx (heq ▸ List.mem_cons_of_mem y hz)
          · apply hprevious
            · exact fun heq => hhead (heq ▸ List.mem_cons_self)
            · exact hne.symm
  · intro y hy
    obtain ⟨hyhead, hyrest⟩ := not_or.mp (mt List.mem_cons.mpr hy)
    obtain ⟨hyx, hyxs⟩ := not_or.mp (mt List.mem_cons.mpr hyrest)
    refine ⟨hnext y hyhead hyx, hprevious y ?_ hyx⟩
    cases xs with
    | nil => exact hyhead
    | cons z zs => exact fun heq => hyxs (heq ▸ List.mem_cons_self)

theorem remove_middle (h : IsRing m head (xs ++ x :: ys)) :
    ∃ m', m.remove x = some m' ∧ IsRing m' head (xs ++ ys) ∧
      (m'.next x = some x ∧ m'.previous x = some x) ∧
      ∀ y ∉ head :: (xs ++ x :: ys), m'.next y = m.next y ∧ m'.previous y = m.previous y := by
  obtain ⟨hsegment, hsegment'⟩ := Links.Segment.append_iff.mp h.segment
  obtain ⟨hhead, hnodup⟩ := List.nodup_cons.mp h.nodup
  obtain ⟨hheadxs, hheadys⟩ := not_or.mp (mt List.mem_append.mpr hhead)
  obtain ⟨hxhead, hheadys⟩ := not_or.mp (mt List.mem_cons.mpr hheadys)
  obtain ⟨hxs, hys, hdisjoint⟩ := List.nodup_append'.mp hnodup
  obtain ⟨hxys, hys⟩ := List.nodup_cons.mp hys
  have hxxs : x ∉ xs := fun hx => hdisjoint hx List.mem_cons_self
  have hapart (y : P) (hy : y ∈ xs) : y ∉ ys :=
    fun hy' => hdisjoint hy (List.mem_cons_of_mem x hy')
  have hbefore : xs.getLastD head ∈ head :: xs := List.getLastD_mem_cons
  have hafter : ys.headD head ∈ head :: ys := by
    cases ys with
    | nil => exact List.mem_cons_self
    | cons y ys => exact List.mem_cons_of_mem head List.mem_cons_self
  generalize hb : xs.getLastD head = before at hbefore
  generalize ha : ys.headD head = after at hafter
  have hnext (y : P) (hy : y ≠ before) (hyx : y ≠ x) : Function.update
      (Function.update m.next before (some after)) x (some x) y = m.next y := by
    rw [Function.update_of_ne hyx, Function.update_of_ne hy]
  have hprevious (y : P) (hy : y ≠ after) (hyx : y ≠ x) : Function.update
      (Function.update m.previous after (some before)) x (some x) y = m.previous y := by
    rw [Function.update_of_ne hyx, Function.update_of_ne hy]
  have hne : before ≠ x := by
    rintro rfl
    exact (List.mem_cons.mp hbefore).elim (fun heq => hxhead heq.symm) hxxs
  have hne' : after ≠ x := by
    rintro rfl
    exact (List.mem_cons.mp hafter).elim (fun heq => hxhead heq.symm) hxys
  rw [Links.remove, hsegment'.next_eq, hsegment.previous_eq, ha, hb]
  refine ⟨_, rfl, ⟨?_, ?_⟩, ⟨Function.update_self _ _ _, Function.update_self _ _ _⟩, ?_⟩
  · apply List.nodup_cons.mpr ⟨_, hxs.append hys _⟩
    · exact fun hy => (List.mem_append.mp hy).elim hheadxs hheadys
    · exact fun y hy hy' => hapart y hy hy'
  · apply Links.Segment.without hsegment hsegment' (List.nodup_cons.mpr ⟨hheadxs, hxs⟩)
    · rw [ha, hb]
      exact ⟨(Function.update_of_ne hne _ _).trans (Function.update_self _ _ _),
        (Function.update_of_ne hne' _ _).trans (Function.update_self _ _ _)⟩
    · intro y hy hyb
      apply hnext y (hb ▸ hyb)
      rintro rfl
      exact (List.mem_cons.mp hy).elim (fun heq => hxhead heq.symm) hxxs
    · intro y hy
      apply hprevious y
      · rintro rfl
        exact (List.mem_cons.mp hafter).elim (fun heq => hheadxs (heq ▸ hy)) (hapart y hy)
      · exact fun heq => hxxs (heq ▸ hy)
    · intro y hy
      apply hnext y
      · rintro rfl
        exact (List.mem_cons.mp hbefore).elim (fun heq => hheadys (heq ▸ hy))
          fun hy' => hapart y hy' hy
      · exact fun heq => hxys (heq ▸ hy)
    · intro y hy hya
      apply hprevious y (ha ▸ hya)
      rintro rfl
      exact hy.elim hxys fun heq => hxhead heq.symm
    · exact List.nodup_cons.mpr ⟨hheadys, hys⟩
  · intro y hy
    obtain ⟨hyhead, hyrest⟩ := not_or.mp (mt List.mem_cons.mpr hy)
    obtain ⟨hyxs, hyrest⟩ := not_or.mp (mt List.mem_append.mpr hyrest)
    obtain ⟨hyx, hyys⟩ := not_or.mp (mt List.mem_cons.mpr hyrest)
    constructor
    · apply hnext y _ hyx
      rintro rfl
      exact (List.mem_cons.mp hbefore).elim hyhead hyxs
    · apply hprevious y _ hyx
      rintro rfl
      exact (List.mem_cons.mp hafter).elim hyhead hyys

/-- An element is taken out wherever it stands, and then points to itself. -/
theorem remove (h : IsRing m head xs) (hx : x ∈ xs) :
    ∃ m', m.remove x = some m' ∧ IsRing m' head (xs.erase x) ∧
      (m'.next x = some x ∧ m'.previous x = some x) ∧
      ∀ y ∉ head :: xs, m'.next y = m.next y ∧ m'.previous y = m.previous y := by
  obtain ⟨as, bs, rfl⟩ := List.append_of_mem hx
  have hnodup := (List.nodup_cons.mp h.nodup).2
  have hxas : x ∉ as := fun hmem => (List.nodup_append'.mp hnodup).2.2 hmem List.mem_cons_self
  rw [List.erase_append_right _ hxas, List.erase_cons_head]
  exact h.remove_middle

end IsRing

end Esd1.Linked
