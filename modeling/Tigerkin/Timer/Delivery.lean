import Tigerkin.Timer.Expire

/-! # Which timers are armed

When every timer is added with a callback, a timer object is in the set exactly as long as it has
its callback (`Armed`), and an object that has lost it never gets another (`Gone`). So a callback is
not delivered after the call that ended its timer. -/

namespace Tigerkin.TimerManager

variable {κ : Type} {m m' : TimerManager κ} {a : Addr} {op : Op κ}

/-- The guard of the runs: no timer is added with an empty callback. -/
def AddsCallback (_ : TimerManager κ) : Op κ → Prop
  | .addTimer _ _ cb _ _ => cb.isSome = true
  | _ => True

instance (m : TimerManager κ) (op : Op κ) : Decidable (AddsCallback m op) := by
  unfold AddsCallback
  split <;> infer_instance

structure Armed (m : TimerManager κ) : Prop where
  inv : m.Inv
  mem_iff : ∀ a, m.live a = true → (a ∈ m.timers ↔ (m.heap a).cb.isSome = true)

/-- A timer object without a callback. -/
structure Gone (m : TimerManager κ) (a : Addr) : Prop where
  live : m.live a = true
  cb : (m.heap a).cb = none

theorem Armed.not_mem (H : m.Armed) (h : m.Gone a) : a ∉ m.timers := by
  rw [H.mem_iff a h.live, h.cb]
  exact Bool.false_ne_true

/-! ## Armed timers -/

theorem mem_insertAndNotify (H : m.Inv) {b : Addr} :
    b ∈ (m.insertAndNotify a).timers ↔ b = a ∨ b ∈ m.timers := by
  obtain ⟨n, hn⟩ := insertAndNotify_eq (m := m) (a := a)
  rw [hn]
  exact H.mem_insertTimer

@[simp] theorem eraseTimer_heap : (m.eraseTimer a).heap = m.heap := rfl

theorem insertAndNotify_heap : (m.insertAndNotify a).heap = m.heap := by
  obtain ⟨n, hn⟩ := insertAndNotify_eq (m := m) (a := a)
  rw [hn]
  rfl

theorem insertAndNotify_live : (m.insertAndNotify a).live = m.live := by
  obtain ⟨n, hn⟩ := insertAndNotify_eq (m := m) (a := a)
  rw [hn]
  rfl

theorem Armed.addTimer (H : m.Armed) (h : m.live a = false) {cb : Option κ}
    (hcb : cb.isSome = true) (ms recurring now) : (m.addTimer a ms cb recurring now).Armed := by
  refine ⟨H.inv.addTimer h .., fun b hb => ?_⟩
  obtain ⟨hnot, H'⟩ := H.inv.allocate h
  rw [TimerManager.addTimer] at hb ⊢
  rw [mem_insertAndNotify (H'.setTimer_of_notMem hnot), insertAndNotify_heap]
  rw [insertAndNotify_live] at hb
  by_cases hba : b = a
  · subst hba
    simp [hcb]
  · rw [setTimer_heap_of_ne _ hba]
    simp only [setTimer_live, Function.update_of_ne hba] at hb
    simp only [hba, false_or]
    exact H.mem_iff b hb

theorem Armed.contains_iff (H : m.Armed) (h : m.live a = true) :
    m.contains a = (m.heap a).cb.isSome := by
  rw [H.inv.contains_eq, Bool.eq_iff_iff, decide_eq_true_iff]
  exact H.mem_iff a h

/-- `cancel` of a timer that has its callback takes it out of the set. -/
theorem Armed.cancel_eq (H : m.Armed) (h : m.live a = true) : m.cancel a =
    if (m.heap a).cb.isSome then
      (true, (m.setTimer a { m.heap a with cb := none }).eraseTimer a)
    else (false, m) := by
  have hset := H.inv.setTimer_of_next (a := a) (t := { m.heap a with cb := none }) rfl
  unfold TimerManager.cancel
  split
  · rename_i hcb
    have hmem : a ∈ m.timers := (H.mem_iff a h).mpr hcb
    dsimp only
    rw [hset.contains_eq, setTimer_timers, if_pos (decide_eq_true hmem)]
  · rfl

theorem Armed.cancel (H : m.Armed) (h : m.live a = true) : (m.cancel a).2.Armed := by
  refine ⟨H.inv.cancel a, fun b hb => ?_⟩
  rw [H.cancel_eq h] at hb ⊢
  split
  · rename_i hcb
    have hset := H.inv.setTimer_of_next (a := a) (t := { m.heap a with cb := none }) rfl
    rw [if_pos hcb] at hb
    have hmem : a ∈ m.timers := (H.mem_iff a h).mpr hcb
    rw [hset.mem_eraseTimer hmem]
    by_cases hba : b = a
    · subst hba
      simp
    · rw [eraseTimer_heap, setTimer_heap_of_ne _ hba]
      simpa [hba] using H.mem_iff b hb
  · rename_i hcb
    rw [if_neg hcb] at hb
    exact H.mem_iff b hb

/-- `refresh` and `reset` keep the set as a set, and the callbacks. -/
theorem Armed.rearm (H : m.Armed) (h : a ∈ m.timers) {t : Timer κ} (ht : t.cb = (m.heap a).cb) :
    (((m.eraseTimer a).setTimer a t).insertAndNotify a).Armed := by
  have hnot : a ∉ (m.eraseTimer a).timers := fun ha => ((H.inv.mem_eraseTimer h).mp ha).2 rfl
  refine ⟨H.inv.rearm h t, fun b hb => ?_⟩
  rw [insertAndNotify_live] at hb
  rw [mem_insertAndNotify (H.inv.eraseTimer.setTimer_of_notMem hnot), insertAndNotify_heap,
    setTimer_timers, H.inv.mem_eraseTimer h]
  by_cases hba : b = a
  · subst hba
    rw [setTimer_heap_self, ht]
    simp [← H.mem_iff b hb, h]
  · rw [setTimer_heap_of_ne _ hba, eraseTimer_heap]
    simpa [hba] using H.mem_iff b hb

theorem Armed.refresh (H : m.Armed) (h : m.live a = true) (now) : (m.refresh a now).2.Armed := by
  unfold TimerManager.refresh
  split
  · exact H
  · rename_i hcb
    rw [H.contains_iff h]
    rw [Option.isNone_iff_eq_none, ← ne_eq, ← Option.isSome_iff_ne_none] at hcb
    rw [hcb]
    exact H.rearm ((H.mem_iff a h).mpr hcb) rfl

theorem Armed.reset (H : m.Armed) (h : m.live a = true) (ms now) :
    (m.reset a ms now).2.Armed := by
  unfold TimerManager.reset
  split
  · exact H
  · split
    · exact H
    · rename_i hcb
      rw [H.contains_iff h]
      rw [Option.isNone_iff_eq_none, ← ne_eq, ← Option.isSome_iff_ne_none] at hcb
      rw [hcb]
      exact H.rearm ((H.mem_iff a h).mpr hcb) rfl

theorem cancelAllTimers_eq (m : TimerManager κ) :
    (∀ x, (m.cancelAllTimers.heap x).cb = if x ∈ m.timers then none else (m.heap x).cb) ∧
      m.cancelAllTimers.live = m.live := by
  unfold cancelAllTimers
  generalize m.timers = l
  induction l generalizing m with
  | nil => exact ⟨fun x => by simp, rfl⟩
  | cons a l ih =>
    obtain ⟨h1, h2⟩ := ih { m.setTimer a { m.heap a with cb := none } with
      timers := m.timers.tail }
    refine ⟨fun x => (h1 x).trans ?_, h2⟩
    by_cases hxa : x = a
    · subst hxa
      simp
    · simp [hxa, setTimer_heap_of_ne _ hxa]

theorem Armed.cancelAllTimers (H : m.Armed) : m.cancelAllTimers.Armed := by
  refine ⟨.cancelAllTimers m, fun b hb => ?_⟩
  obtain ⟨h1, h2⟩ := cancelAllTimers_eq m
  rw [h2] at hb
  rw [cancelAllTimers_timers, h1]
  split
  · simp
  · rename_i hmem
    simp [← H.mem_iff b hb, hmem]

theorem expireOne_live (now : UInt64) (r : TimerManager κ × List (Option κ)) (a : Addr) :
    (expireOne now r a).1.live = r.1.live := by
  unfold expireOne
  dsimp only
  split <;> rfl

theorem listExpiredCbs_live (cbs : List (Option κ)) (now : UInt64) (probe : Addr) :
    (m.listExpiredCbs cbs now probe).1.live = m.live := by
  unfold listExpiredCbs
  split
  · rfl
  · generalize m.splitExpired now probe = e
    obtain ⟨l, rest⟩ := e
    dsimp only
    generalize hr : (({ m with timers := rest }, cbs) : TimerManager κ × List (Option κ)) = r
    have hlive : r.1.live = m.live := by
      rw [← hr]
    clear hr
    induction l generalizing r with
    | nil => exact hlive
    | cons a l ih => exact ih _ ((expireOne_live now r a).trans hlive)

theorem Armed.listExpiredCbs (H : m.Armed) (cbs : List (Option κ)) (now : UInt64)
    (probe : Addr) : (m.listExpiredCbs cbs now probe).1.Armed := by
  obtain ⟨h1, -, h3, h4⟩ := H.inv.listExpiredCbs_spec cbs now probe
  refine ⟨h1, fun b hb => ?_⟩
  rw [listExpiredCbs_live] at hb
  rw [h4, h3]
  by_cases hbe : b ∈ m.expired now
  · have hmem := (H.mem_iff b hb).mp (List.mem_filter.mp hbe).1
    rw [if_pos hbe, expiredTimer]
    cases hr : (m.heap b).recurring <;> simp [hbe, hmem]
  · rw [if_neg hbe]
    simpa [hbe] using H.mem_iff b hb

theorem Armed.step (H : m.Armed) (hop : AddsCallback m op) (h : m.step op = some m') :
    m'.Armed := by
  cases op with
  | addTimer a ms cb recurring now =>
    simp only [TimerManager.step] at h
    split at h
    · cases h
    · cases h
      exact H.addTimer (Bool.eq_false_iff.mpr ‹_›) hop ..
  | cancel a =>
    obtain ⟨ha, h⟩ := Option.ite_none_right_eq_some.mp h
    cases h
    exact H.cancel ha
  | refresh a now =>
    obtain ⟨ha, h⟩ := Option.ite_none_right_eq_some.mp h
    cases h
    exact H.refresh ha now
  | reset a ms now =>
    obtain ⟨ha, h⟩ := Option.ite_none_right_eq_some.mp h
    cases h
    exact H.reset ha ms now
  | cancelAllTimers =>
    cases h
    exact H.cancelAllTimers
  | listExpiredCbs now probe =>
    cases h
    exact H.listExpiredCbs [] now probe
  | release a =>
    have H' := H.inv.step h
    simp only [TimerManager.step] at h
    split at h
    · cases h
    · cases h
      refine ⟨H', fun b hb => ?_⟩
      by_cases hba : b = a
      · subst hba
        simp at hb
      · simp only [Function.update_of_ne hba] at hb
        exact H.mem_iff b hb

theorem Armed.reach (h : Reach TimerManager.step AddsCallback {} m) : m.Armed :=
  h.inv ⟨⟨List.Pairwise.nil, fun _ ha => nomatch ha⟩, fun _ ha => nomatch ha⟩
    fun H hG hs => H.step hG hs

/-! ## Ended timers -/

/-- The timers whose callbacks `listExpiredCbs` delivers. -/
def delivered (m : TimerManager κ) (now : UInt64) (probe : Addr) : List Addr :=
  (m.splitExpired now probe).1

/-- The calls after which the callback of `a` is not to be delivered. -/
def Ends (m : TimerManager κ) : Op κ → Addr → Prop
  | .cancel b, a => a = b ∧ m.live a = true ∧ (m.cancel b).1 = true
  | .cancelAllTimers, a => m.live a = true
  | .listExpiredCbs now probe, a => a ∈ m.delivered now probe ∧ (m.heap a).recurring = false
  | _, _ => False

theorem Gone.setTimer (h : m.Gone a) {b : Addr} {t : Timer κ} (ht : b = a → t.cb = none) :
    (m.setTimer b t).Gone a := by
  refine ⟨h.live, ?_⟩
  by_cases hba : a = b
  · subst hba
    rw [setTimer_heap_self, ht rfl]
  · rw [setTimer_heap_of_ne _ hba, h.cb]

theorem Gone.rearm (h : m.Gone a) {b : Addr} (hab : a ≠ b) (t : Timer κ) :
    (((m.eraseTimer b).setTimer b t).insertAndNotify b).Gone a := by
  refine ⟨by rw [insertAndNotify_live]; exact h.live, ?_⟩
  rw [insertAndNotify_heap, setTimer_heap_of_ne _ hab, eraseTimer_heap, h.cb]

theorem Gone.step (H : m.Armed) (h : m.Gone a) (hop : op ≠ .release a)
    (hs : m.step op = some m') : m'.Gone a := by
  cases op with
  | addTimer b ms cb recurring now =>
    simp only [TimerManager.step] at hs
    split at hs
    · cases hs
    · rename_i hb
      cases hs
      have hab : a ≠ b := fun e => hb (e ▸ h.live)
      refine ⟨?_, ?_⟩
      · rw [TimerManager.addTimer, insertAndNotify_live]
        simp [Function.update_of_ne hab, h.live]
      · rw [TimerManager.addTimer, insertAndNotify_heap, setTimer_heap_of_ne _ hab]
        exact h.cb
  | cancel b =>
    obtain ⟨hb, hs⟩ := Option.ite_none_right_eq_some.mp hs
    cases hs
    rw [H.cancel_eq hb]
    split
    · have := h.setTimer (b := b) (t := { m.heap b with cb := none }) fun _ => rfl
      exact ⟨this.live, this.cb⟩
    · exact h
  | refresh b now =>
    obtain ⟨-, hs⟩ := Option.ite_none_right_eq_some.mp hs
    cases hs
    unfold TimerManager.refresh
    split
    · exact h
    · rename_i hcb
      have hab : a ≠ b := by
        rintro rfl
        exact hcb (by rw [h.cb]; rfl)
      split
      · exact h.setTimer fun _ => rfl
      · exact h.rearm hab _
  | reset b ms now =>
    obtain ⟨-, hs⟩ := Option.ite_none_right_eq_some.mp hs
    cases hs
    unfold TimerManager.reset
    split
    · exact h
    · split
      · exact h
      · rename_i hcb
        have hab : a ≠ b := by
          rintro rfl
          exact hcb (by rw [h.cb]; rfl)
        split
        · exact h
        · exact h.rearm hab _
  | cancelAllTimers =>
    cases hs
    obtain ⟨h1, h2⟩ := cancelAllTimers_eq m
    refine ⟨h2 ▸ h.live, ?_⟩
    rw [h1, h.cb, ite_self]
  | listExpiredCbs now probe =>
    cases hs
    obtain ⟨-, -, h3, -⟩ := H.inv.listExpiredCbs_spec [] now probe
    refine ⟨by rw [listExpiredCbs_live, h.live], ?_⟩
    have hnot : a ∉ m.expired now := fun he => H.not_mem h (List.mem_filter.mp he).1
    rw [h3, if_neg hnot, h.cb]
  | release b =>
    simp only [TimerManager.step] at hs
    split at hs
    · cases hs
    · cases hs
      have hab : a ≠ b := fun e => hop (e ▸ rfl)
      exact ⟨by simp [Function.update_of_ne hab, h.live], h.cb⟩

theorem Ends.gone (H : m.Armed) (h : m.Ends op a) (hs : m.step op = some m') : m'.Gone a := by
  cases op with
  | cancel b =>
    obtain ⟨rfl, hl, ht⟩ := h
    obtain ⟨-, hs⟩ := Option.ite_none_right_eq_some.mp hs
    cases hs
    rw [H.cancel_eq hl] at ht ⊢
    split
    · exact ⟨hl, by simp⟩
    · rename_i hcb
      rw [if_neg hcb] at ht
      cases ht
  | cancelAllTimers =>
    cases hs
    obtain ⟨h1, h2⟩ := cancelAllTimers_eq m
    have hl : m.live a = true := h
    refine ⟨h2 ▸ hl, ?_⟩
    rw [h1]
    split
    · rfl
    · rename_i hmem
      rw [H.mem_iff a hl] at hmem
      simpa using hmem
  | listExpiredCbs now probe =>
    cases hs
    obtain ⟨hd, hr⟩ := h
    rw [delivered, H.inv.splitExpired_eq] at hd
    obtain ⟨-, -, h3, -⟩ := H.inv.listExpiredCbs_spec [] now probe
    refine ⟨by rw [listExpiredCbs_live, H.inv.live a (List.mem_filter.mp hd).1], ?_⟩
    rw [h3, if_pos hd, expiredTimer, if_neg (by simp [hr])]
  | addTimer => cases h
  | refresh => cases h
  | reset => cases h
  | release => cases h

/-- **The timer set over whole runs.** In every state of a run whose timers are added with a
callback: the set is sorted and without duplicates, and a timer is in it if and only if it has its
callback; the callbacks that are delivered are those of the timers taken from the set, once each,
and none of them is empty; and after a call that ends a timer (a `cancel` that returned true,
`cancelAllTimers`, or the delivery of a one-shot timer) nothing is delivered for this timer
object. -/
theorem timers_run (h : Reach TimerManager.step AddsCallback {} m) :
    OrdSet.Sorted m.less m.timers ∧ m.timers.Nodup ∧
      (∀ a, m.live a = true → (a ∈ m.timers ↔ (m.heap a).cb.isSome = true)) ∧
      (∀ cbs now probe,
        (m.listExpiredCbs cbs now probe).2 =
            cbs ++ (m.delivered now probe).map (fun a => (m.heap a).cb) ∧
          (m.delivered now probe).Nodup ∧
          ∀ a ∈ m.delivered now probe, a ∈ m.timers ∧ (m.heap a).cb.isSome = true) ∧
      ∀ op m' a, m.step op = some m' → AddsCallback m op → m.Ends op a →
        ∀ m'', Reach TimerManager.step (fun m op => AddsCallback m op ∧ op ≠ .release a) m' m'' →
          ∀ now probe, a ∉ m''.delivered now probe := by
  have H := Armed.reach h
  refine ⟨H.inv.sorted, H.inv.nodup, H.mem_iff, fun cbs now probe => ?_, ?_⟩
  · rw [delivered, H.inv.splitExpired_eq]
    refine ⟨(H.inv.listExpiredCbs_spec cbs now probe).2.1, H.inv.nodup.filter _, fun a ha => ?_⟩
    have hmem := (List.mem_filter.mp ha).1
    exact ⟨hmem, (H.mem_iff a (H.inv.live a hmem)).mp hmem⟩
  · intro op m' a hs hop he m'' hrun now probe hd
    have hgone : m''.Armed ∧ m''.Gone a :=
      hrun.inv (I := fun m => m.Armed ∧ m.Gone a) ⟨H.step hop hs, he.gone H hs⟩
        fun H hG hs => ⟨H.1.step hG.1 hs, H.2.step H.1 hG.2 hs⟩
    rw [delivered, hgone.1.inv.splitExpired_eq] at hd
    exact hgone.1.not_mem hgone.2 (List.mem_filter.mp hd).1

/-- A one-shot timer, a recurring one and a cancelled one. -/
theorem timers_run_three :
    ∃ m : TimerManager Nat, Reach TimerManager.step AddsCallback {} m ∧ m.timers = [3] ∧
      OrdSet.Sorted m.less m.timers := by
  let ops : List (Op Nat) := [.addTimer 3 10 (some 2) true 10, .addTimer 5 50 (some 9) false 10,
    .addTimer 7 5 (some 1) false 10, .refresh 3 12, .cancel 5, .listExpiredCbs 15 4]
  obtain ⟨m, hm⟩ : ∃ m, ops.foldlM (fun s a => if AddsCallback s a then step s a else none)
      ({} : TimerManager Nat) = some m := ⟨_, rfl⟩
  have hr : Reach TimerManager.step AddsCallback {} m := .of_foldlM _ _ _ _ hm
  cases hm
  exact ⟨_, hr, by decide, (timers_run hr).1⟩

end Tigerkin.TimerManager
