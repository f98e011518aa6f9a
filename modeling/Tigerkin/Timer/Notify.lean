import Mathlib.Data.ENat.Basic
import Mathlib.Data.List.MinMax
import Tigerkin.Timer.Expire

/-! # Notification of an earlier deadline

An idle thread sleeps until the earliest deadline, so an operation that makes it earlier has to call
`onTimerRefresh`. The operations call it when the timer that they insert comes first, which in a
sorted set it does whenever the earliest deadline gets earlier (`notified`). -/

namespace Tigerkin.TimerManager

variable {κ : Type} {m m' : TimerManager κ} {a : Addr} {now : UInt64}

/-- The earliest deadline of the set, `⊤` if there is none. -/
def earliest (m : TimerManager κ) : WithTop Nat :=
  (m.timers.map fun a => (m.heap a).next.toNat).minimum

/-- The next deadlines of the recurring timers that are due fit into 64 bits. -/
def SumsFit (m : TimerManager κ) (now : UInt64) : Prop :=
  ∀ a ∈ m.expired now, (m.heap a).recurring = true → now.toNat + (m.heap a).ms.toNat < 2 ^ 64

theorem earliest_le (h : a ∈ m.timers) : m.earliest ≤ (m.heap a).next.toNat :=
  List.minimum_le_of_mem' (List.mem_map.mpr ⟨a, h, rfl⟩)

theorem le_earliest {e : WithTop Nat} (h : ∀ a ∈ m.timers, e ≤ (m.heap a).next.toNat) :
    e ≤ m.earliest := by
  refine List.le_minimum_of_forall_le fun n hn => ?_
  obtain ⟨a, ha, rfl⟩ := List.mem_map.mp hn
  exact h a ha

/-- An inserted timer that is not reported comes after another one. -/
theorem Inv.insertAndNotify_cases (H : m.Inv) (h : m.live a = true) :
    (m.insertAndNotify a).refreshes = m.refreshes + 1 ∨
      ∃ c ∈ m.timers, ∀ b ∈ (m.insertAndNotify a).timers, (m.heap c).next ≤ (m.heap b).next := by
  have Hi := H.insertTimer h
  have hs : OrdSet.Sorted m.less (m.insertTimer a).timers := Hi.sorted
  have hmem := fun b => H.mem_insertTimer (a := a) (b := b)
  unfold TimerManager.insertAndNotify
  dsimp only
  cases hl : (m.insertTimer a).timers with
  | nil =>
    have ha := (hmem a).mpr (.inl rfl)
    rw [hl] at ha
    cases ha
  | cons c l =>
    rw [hl] at hs
    by_cases hc : c = a
    · rw [List.head?_cons, if_pos (congrArg some hc)]
      exact .inl rfl
    · have hne : some c ≠ some a := fun h => hc (Option.some.inj h)
      rw [List.head?_cons, if_neg hne, hl]
      refine .inr ⟨c, ?_, fun b hb => ?_⟩
      · exact ((hmem c).mp (hl ▸ List.mem_cons_self)).resolve_left hc
      · rcases List.mem_cons.mp hb with rfl | hb
        · exact UInt64.le_refl _
        · have := less_iff.mp ((List.pairwise_cons.mp hs).1 b hb)
          grind

/-- A timer is inserted into a set that has no deadlines but those of `m'`. -/
theorem Inv.notified_insert (H : m.Inv) (h : m.live a = true)
    (hold : ∀ c ∈ m.timers, c ∈ m'.timers ∧ (m.heap c).next = (m'.heap c).next)
    (hearlier : (m.insertAndNotify a).earliest < m'.earliest) :
    (m.insertAndNotify a).refreshes = m.refreshes + 1 := by
  refine (H.insertAndNotify_cases h).resolve_right ?_
  rintro ⟨c, hc, hall⟩
  refine hearlier.not_ge (le_earliest fun b hb => ?_)
  obtain ⟨hc', hnext⟩ := hold c hc
  obtain ⟨n, hn⟩ := insertAndNotify_eq (m := m) (a := a)
  have hle := UInt64.le_iff_toNat_le.mp (hall b hb)
  rw [hn]
  calc m'.earliest ≤ (m'.heap c).next.toNat := earliest_le hc'
    _ = (m.heap c).next.toNat := by rw [hnext]
    _ ≤ (m.heap b).next.toNat := by exact_mod_cast hle

theorem Inv.notified_addTimer (H : m.Inv) (h : m.live a = false) {ms cb recurring}
    (hearlier : (m.addTimer a ms cb recurring now).earliest < m.earliest) :
    (m.addTimer a ms cb recurring now).refreshes = m.refreshes + 1 := by
  obtain ⟨hnot, H'⟩ := H.allocate h
  refine Inv.notified_insert (H'.setTimer_of_notMem hnot) (by simp) (fun c hc => ?_) hearlier
  have hne : c ≠ a := fun e => hnot (e ▸ hc)
  exact ⟨hc, by rw [setTimer_heap_of_ne _ hne]⟩

/-- The sequence shared by `refresh` and `reset`. -/
theorem Inv.notified_rearm (H : m.Inv) (h : a ∈ m.timers) (t : Timer κ)
    (hearlier : (((m.eraseTimer a).setTimer a t).insertAndNotify a).earliest < m.earliest) :
    (((m.eraseTimer a).setTimer a t).insertAndNotify a).refreshes = m.refreshes + 1 := by
  have hnot : a ∉ (m.eraseTimer a).timers := fun ha => ((H.mem_eraseTimer h).mp ha).2 rfl
  refine Inv.notified_insert (H.eraseTimer.setTimer_of_notMem hnot) (H.live a h) (fun c hc => ?_)
    hearlier
  obtain ⟨hc, hne⟩ := (H.mem_eraseTimer h).mp hc
  refine ⟨hc, ?_⟩
  rw [setTimer_heap_of_ne _ hne]
  rfl

theorem Inv.notified_refresh (H : m.Inv) (hearlier : (m.refresh a now).2.earliest < m.earliest) :
    (m.refresh a now).2.refreshes = m.refreshes + 1 := by
  unfold TimerManager.refresh at hearlier ⊢
  split at hearlier
  · exact absurd hearlier (lt_irrefl _)
  rename_i hcb
  rw [if_neg hcb]
  split at hearlier
  · refine absurd hearlier (le_earliest fun b hb => ?_).not_gt
    have hb' : b ∈ m.timers := hb
    by_cases hba : b = a
    · subst hba
      simpa using earliest_le hb'
    · rw [setTimer_heap_of_ne _ hba]
      exact earliest_le hb'
  · rename_i hc
    rw [if_neg hc]
    simp only [H.contains_eq, Bool.not_eq_true', decide_eq_false_iff_not, not_not] at hc
    exact H.notified_rearm hc _ hearlier

theorem Inv.notified_reset (H : m.Inv) {ms : UInt64}
    (hearlier : (m.reset a ms now).2.earliest < m.earliest) :
    (m.reset a ms now).2.refreshes = m.refreshes + 1 := by
  unfold TimerManager.reset at hearlier ⊢
  split at hearlier
  · exact absurd hearlier (lt_irrefl _)
  rename_i hms
  rw [if_neg hms]
  split at hearlier
  · exact absurd hearlier (lt_irrefl _)
  rename_i hcb
  rw [if_neg hcb]
  split at hearlier
  · exact absurd hearlier (lt_irrefl _)
  · rename_i hc
    rw [if_neg hc]
    simp only [H.contains_eq, Bool.not_eq_true', decide_eq_false_iff_not, not_not] at hc
    exact H.notified_rearm hc _ hearlier

/-- Expiry leaves deadlines that were there and adds some after `now`. -/
theorem Inv.earliest_listExpiredCbs (H : m.Inv) (hfit : m.SumsFit now) (cbs : List (Option κ))
    (probe : Addr) : m.earliest ≤ (m.listExpiredCbs cbs now probe).1.earliest := by
  obtain ⟨-, -, hheap, hmem⟩ := H.listExpiredCbs_spec cbs now probe
  refine le_earliest fun b hb => ?_
  rcases (hmem b).mp hb with ⟨hb, hdue⟩ | ⟨hdue, hrec⟩
  · rw [hheap, if_neg hdue]
    exact earliest_le hb
  · have hsum := hfit b hdue hrec
    obtain ⟨hb, hle⟩ := List.mem_filter.mp hdue
    have hle := UInt64.le_iff_toNat_le.mp (of_decide_eq_true hle)
    have hnext : (expiredTimer now (m.heap b)).next.toNat = now.toNat + (m.heap b).ms.toNat := by
      rw [expiredTimer, if_pos hrec, UInt64.toNat_add, Nat.mod_eq_of_lt hsum]
    rw [hheap, if_pos hdue, hnext]
    calc m.earliest ≤ (m.heap b).next.toNat := earliest_le hb
      _ ≤ (now.toNat + (m.heap b).ms.toNat : Nat) := by exact_mod_cast (by omega)

end Tigerkin.TimerManager
