import Tigerkin.Timer.Basic

/-! # The timer set stays sorted

The comparator is a strict total order on addresses in every heap (`strictTotal`), so the set
operations behave as those of a finite set as long as the list is sorted in the current heap. A
deadline is a mutable sort key; `Inv` says that the list is sorted by the deadlines as they are now
and that every member is an existing object, and every operation keeps it (`step_inv`). -/

namespace Tigerkin.TimerManager

variable {κ : Type} {m : TimerManager κ} {a b : Addr}

theorem less_iff : m.less a b = true ↔
    (m.heap a).next < (m.heap b).next ∨ (m.heap a).next = (m.heap b).next ∧ a < b := by
  simp only [less, Timer.comparator]
  split
  · simp [*]
  · split
    · grind
    · grind

theorem strictTotal (m : TimerManager κ) : OrdSet.StrictTotal m.less where
  irrefl a := by
    rw [← Bool.not_eq_true, less_iff]
    grind
  trans h h' := by
    rw [less_iff] at *
    grind
  total h := by
    simp only [less_iff]
    grind

/-- The set is sorted in the current heap and holds existing objects only. -/
structure Inv (m : TimerManager κ) : Prop where
  sorted : OrdSet.Sorted m.less m.timers
  live : ∀ a ∈ m.timers, m.live a = true

theorem Inv.contains_eq (H : m.Inv) : m.contains a = decide (a ∈ m.timers) := by
  rw [contains, H.sorted.find_eq (strictTotal m)]
  split <;> simp [*]

theorem Inv.nodup (H : m.Inv) : m.timers.Nodup := H.sorted.nodup (strictTotal m)

/-! ## Effects of the elementary updates -/

@[simp] theorem setTimer_timers (t : Timer κ) : (m.setTimer a t).timers = m.timers := rfl
@[simp] theorem setTimer_live (t : Timer κ) : (m.setTimer a t).live = m.live := rfl
@[simp] theorem setTimer_heap_self (t : Timer κ) : (m.setTimer a t).heap a = t :=
  Function.update_self ..

theorem setTimer_heap_of_ne (t : Timer κ) (h : b ≠ a) : (m.setTimer a t).heap b = m.heap b :=
  Function.update_of_ne h ..

/-- The order between two addresses only changes if the deadline of one of them does. -/
theorem setTimer_less_of_ne (t : Timer κ) {x y : Addr} (hx : x ≠ a) (hy : y ≠ a) :
    (m.setTimer a t).less x y = m.less x y := by
  simp only [less, setTimer_heap_of_ne t hx, setTimer_heap_of_ne t hy]

theorem setTimer_less_of_next (t : Timer κ) (h : t.next = (m.heap a).next) (x y : Addr) :
    (m.setTimer a t).less x y = m.less x y := by
  have key : ∀ z, ((m.setTimer a t).heap z).next = (m.heap z).next := by
    intro z
    by_cases hz : z = a
    · subst hz
      simpa using h
    · rw [setTimer_heap_of_ne t hz]
  rw [Bool.eq_iff_iff]
  simp only [less_iff, key]

/-- Changing anything but the deadline keeps the invariant. -/
theorem Inv.setTimer_of_next (H : m.Inv) {t : Timer κ} (h : t.next = (m.heap a).next) :
    (m.setTimer a t).Inv where
  sorted := H.sorted.congr fun _ _ _ _ => setTimer_less_of_next t h ..
  live := H.live

/-- The deadline of an object outside the set is free. -/
theorem Inv.setTimer_of_notMem (H : m.Inv) {t : Timer κ} (h : a ∉ m.timers) :
    (m.setTimer a t).Inv where
  sorted := H.sorted.congr fun _ hx _ hy =>
    setTimer_less_of_ne t (fun e => h (e ▸ hx)) (fun e => h (e ▸ hy))
  live := H.live

theorem Inv.mem_insertTimer (H : m.Inv) : b ∈ (m.insertTimer a).timers ↔ b = a ∨ b ∈ m.timers :=
  H.sorted.mem_insert (strictTotal m)

theorem Inv.insertTimer (H : m.Inv) (h : m.live a = true) : (m.insertTimer a).Inv where
  sorted := H.sorted.insert (strictTotal m)
  live b hb := by
    rcases H.mem_insertTimer.mp hb with rfl | hb
    · exact h
    · exact H.live b hb

theorem Inv.mem_eraseTimer (H : m.Inv) (h : a ∈ m.timers) :
    b ∈ (m.eraseTimer a).timers ↔ b ∈ m.timers ∧ b ≠ a :=
  H.sorted.mem_erase (strictTotal m) h

theorem Inv.eraseTimer (H : m.Inv) : (m.eraseTimer a).Inv where
  sorted := H.sorted.erase
  live b hb := H.live b (OrdSet.erase_sublist.subset hb)

theorem insertAndNotify_eq : ∃ n, m.insertAndNotify a = { m.insertTimer a with refreshes := n } := by
  unfold insertAndNotify
  simp only
  split
  · exact ⟨_, rfl⟩
  · exact ⟨_, rfl⟩

theorem Inv.insertAndNotify (H : m.Inv) (h : m.live a = true) : (m.insertAndNotify a).Inv := by
  obtain ⟨n, hn⟩ := insertAndNotify_eq (m := m) (a := a)
  have hi := H.insertTimer h
  rw [hn]
  exact ⟨hi.sorted, hi.live⟩

/-! ## The operations -/

/-- `new Timer` returns an address outside the set. -/
theorem Inv.allocate (H : m.Inv) (h : m.live a = false) :
    a ∉ m.timers ∧ Inv { m with live := Function.update m.live a true } := by
  have hnot : a ∉ m.timers := fun ha => by
    rw [H.live a ha] at h
    cases h
  refine ⟨hnot, H.sorted, fun b hb => ?_⟩
  have hb' : b ≠ a := fun e => hnot (e ▸ hb)
  simpa [Function.update_of_ne hb'] using H.live b hb

theorem Inv.addTimer (H : m.Inv) (h : m.live a = false) (ms cb recurring now) :
    (m.addTimer a ms cb recurring now).Inv := by
  obtain ⟨hnot, H'⟩ := H.allocate h
  exact Inv.insertAndNotify (H'.setTimer_of_notMem hnot) (by simp)

theorem Inv.cancel (H : m.Inv) (a : Addr) : (m.cancel a).2.Inv := by
  have hset := H.setTimer_of_next (a := a) (t := { m.heap a with cb := none }) rfl
  unfold TimerManager.cancel
  simp only
  split
  · split
    · exact hset.eraseTimer
    · exact hset
  · exact H

/-- Erase, change the deadline, reinsert: the sequence shared by `refresh` and `reset`. -/
theorem Inv.rearm (H : m.Inv) (h : a ∈ m.timers) (t : Timer κ) :
    (((m.eraseTimer a).setTimer a t).insertAndNotify a).Inv := by
  have hnot : a ∉ (m.eraseTimer a).timers := fun ha => ((H.mem_eraseTimer h).mp ha).2 rfl
  exact Inv.insertAndNotify (H.eraseTimer.setTimer_of_notMem hnot) (H.live a h)

theorem Inv.refresh (H : m.Inv) (a now) : (m.refresh a now).2.Inv := by
  unfold TimerManager.refresh
  split
  · exact H
  · split
    · exact H.setTimer_of_next rfl
    · rename_i hc
      simp only [H.contains_eq, Bool.not_eq_true', decide_eq_false_iff_not, not_not] at hc
      exact H.rearm hc _

theorem Inv.reset (H : m.Inv) (a ms now) : (m.reset a ms now).2.Inv := by
  unfold TimerManager.reset
  split
  · exact H
  · split
    · exact H
    · split
      · exact H
      · rename_i hc
        simp only [H.contains_eq, Bool.not_eq_true', decide_eq_false_iff_not, not_not] at hc
        exact H.rearm hc _

theorem cancelAllTimers_timers (m : TimerManager κ) : m.cancelAllTimers.timers = [] := by
  unfold cancelAllTimers
  suffices h : ∀ (l : List Addr) (m : TimerManager κ), m.timers = l → (l.foldl (fun m a =>
      { m.setTimer a { m.heap a with cb := none } with timers := m.timers.tail }) m).timers = []
    from h m.timers m rfl
  intro l
  induction l with
  | nil => exact fun m hm => hm
  | cons a l ih => exact fun m hm => ih _ (by simp [hm])

theorem Inv.cancelAllTimers (m : TimerManager κ) : m.cancelAllTimers.Inv where
  sorted := by
    rw [cancelAllTimers_timers]
    exact List.Pairwise.nil
  live a ha := by
    rw [cancelAllTimers_timers] at ha
    cases ha

end Tigerkin.TimerManager
