import Tigerkin.IOManager.EarlyClosure

/-! # The holder of `m_mutex`

`run` resumes `idle` for the last time with `m_mutex` held, and counts on the head of its loop to
find again what the test in `run` has found. The reads under the lock do, but `m_pendingEventCount`
is incremented without it: when another worker's coroutine adds an event in between, `idle` goes on
to `epoll_wait` and then to `scheduleIterator`, which locks `m_mutex` again. -/

namespace Tigerkin.Workers

variable {s s' t : Workers} {w v : ThreadId} {x : Worker}

/-- The next step of the thread locks `m_mutex`. -/
def LocksMutex (s : Workers) (w : ThreadId) : Prop :=
  match (s.workers w).trigger with
  | some tr => ∃ r, tr.stage = .schedule r
  | none =>
    match (s.workers w).pc with
    | .scan | .reschedule _ | .close | .idle _ (.scheduleIterator _) => True
    | _ => False

def InEpollWait (s : Workers) (w : ThreadId) : Prop :=
  ∃ last, (s.workers w).pc = .idle last .epollWait

/-- A thread that holds `m_mutex` is neither about to lock it nor in `epoll_wait`, and can go on. -/
def SelfLockFree (s : Workers) : Prop :=
  ∀ w, s.mutex = some w → ¬s.LocksMutex w ∧ ¬s.InEpollWait w ∧ (s.run w).isSome

/-- A bound on the steps that a thread makes with `m_mutex` held. -/
def Pc.stepsLeft : Pc → Nat
  | .check l => l.length + 13
  | .idle true (.stopping l) => l.length + 7
  | .idle true (.canEarlyClosure l) => l.length + 2
  | .leave => 1
  | _ => 0

/-- Where `idle`, resumed for the last time, has only `m_pendingEventCount` to read. -/
def lastRead (s : Workers) (w : ThreadId) : Pc :=
  .idle true (if s.callerThreadId = w then .stopping [.pendingEventCount]
    else .canEarlyClosure [.pendingEventCount])

/-- What was counted since the test in `run` has been uncounted when `idle` reads
`m_pendingEventCount` for the last time. -/
def LastReadPasses (s : Workers) (a : Step) : Prop :=
  ∀ w, a = .act w .run → (s.workers w).pc = s.lastRead w → s.pendingEventCount = 0

/-- Past the head of the loop with `m_mutex` held. -/
def Pc.Stuck : Pc → Prop
  | .idle true .epollWait | .idle true (.scheduleIterator _) => True
  | _ => False

/-! ## The head of the loop -/

/-- What `idle`, resumed for the last time, has still to read. -/
def Idle.AtHead (caller : Bool) : Idle → Prop
  | .stopping l => l <:+ Workers.stopping
  | .canEarlyClosure l => caller = false ∧ l <:+ Workers.canEarlyClosure
  | .epollWait | .scheduleIterator _ => True
  | .reports _ => False

/-- One step of a thread in `idle`, resumed for the last time. -/
inductive Idle.Next (s : Workers) (w : ThreadId) : Idle → Idle → Prop
  | pass : s.test r = true → Next s w (.stopping (r :: l)) (.stopping l)
  | fail : s.test r = false → s.callerThreadId ≠ w →
      Next s w (.stopping (r :: l)) (.canEarlyClosure Workers.canEarlyClosure)
  | failCaller : s.test r = false → s.callerThreadId = w →
      Next s w (.stopping (r :: l)) .epollWait
  | passClosure : s.test r = true → Next s w (.canEarlyClosure (r :: l)) (.canEarlyClosure l)
  | failClosure : s.test r = false → Next s w (.canEarlyClosure (r :: l)) .epollWait
  | wait : Next s w .epollWait (.scheduleIterator l)

/-- The invariant of the threads in `idle` with `m_mutex` held. -/
structure Head (s : Workers) : Prop extends Inv s where
  head : ∀ w i, (s.workers w).pc = .idle true i → i.AtHead (s.callerThreadId = w)

theorem Inv.trigger_none (H : s.Inv) (h : ¬(s.workers w).pc.Calls) :
    (s.workers w).trigger = none := by
  by_contra ht
  exact h (H.calls w (Option.isSome_iff_ne_none.mpr ht))

theorem Inv.holder (H : s.Inv) {i : Idle} (h : (s.workers w).pc = .idle true i) :
    s.mutex = some w :=
  H.locked (by rw [Worker.phase, h]; trivial)

theorem Head.trigger_none (H : s.Head) {i : Idle} (hp : (s.workers w).pc = .idle true i) :
    (s.workers w).trigger = none := by
  have hi := H.head w i hp
  refine Inv.trigger_none H.toInv fun hc => ?_
  rw [hp] at hc
  cases i with
  | reports => exact hi
  | _ => exact hc

/-- A step of a thread in `idle` with `m_mutex` held: `idle` returns, or goes on. -/
theorem Head.act (H : s.Head) {i : Idle} (hp : (s.workers w).pc = .idle true i) {op : Op}
    (h : s.act w op = some t) :
    (t.workers w).pc = .leave ∧ ¬(Pc.idle true i).Stuck ∨
      ∃ i', (t.workers w).pc = .idle true i' ∧ i.Next s w i' ∧
        (op = .run ∨ (Pc.idle true i).Stuck) := by
  have hi := H.head w i hp
  have ht := H.trigger_none hp
  have hm := H.holder hp
  cases op with
  | run =>
    simp only [Workers.act, run, ht, hp] at h
    cases i with
    | stopping l =>
      cases l with
      | nil =>
        cases h
        exact .inl ⟨by simp [idleReturn, setPc], id⟩
      | cons r l =>
        cases h
        refine .inr ⟨_, by simp [setPc]; rfl, ?_, .inl rfl⟩
        split
        · exact .pass ‹_›
        · split
          · exact .failCaller (eq_false_of_ne_true ‹¬s.test r = true›) ‹_›
          · exact .fail (eq_false_of_ne_true ‹¬s.test r = true›) ‹_›
    | canEarlyClosure l =>
      cases l with
      | nil =>
        cases h
        exact .inl ⟨by simp [idleReturn, setPc], id⟩
      | cons r l =>
        cases h
        refine .inr ⟨_, by simp [setPc]; rfl, ?_, .inl rfl⟩
        split
        · exact .passClosure ‹_›
        · exact .failClosure (eq_false_of_ne_true ‹¬s.test r = true›)
    | reports => exact hi.elim
    | epollWait | scheduleIterator => cases h
  | epollWait l =>
    simp only [Workers.act, ht, hp] at h
    cases i with
    | epollWait =>
      cases h
      exact .inr ⟨_, by simp [setPc]; rfl, .wait, .inr trivial⟩
    | _ => simp [idleBody] at h
  | scheduleIterator cbs =>
    simp only [Workers.act, ht, hp] at h
    cases i with
    | scheduleIterator => simp [idleBody, hm] at h
    | _ => simp [idleBody] at h
  | report ctlOk =>
    simp only [Workers.act, ht, hp] at h
    cases i with
    | reports => exact hi.elim
    | _ => simp [idleBody] at h
  | _ =>
    simp only [Workers.act, ht, hp] at h
    cases i <;> simp [idleBody] at h

theorem Idle.Next.atHead {i i' : Idle} (h : i.Next s w i')
    (hi : i.AtHead (s.callerThreadId = w)) : i'.AtHead (s.callerThreadId = w) := by
  cases h with
  | pass => exact (List.suffix_cons ..).trans hi
  | fail _ hc => exact ⟨by simpa using hc, List.suffix_rfl⟩
  | passClosure => exact ⟨hi.1, (List.suffix_cons ..).trans hi.2⟩
  | failCaller | failClosure | wait => trivial

theorem Moves.closing_or_idle (h : Moves s w s' x) {i : Idle} (hx : x.pc = .idle true i) :
    (s.workers w).pc = .check [] ∧ i = .stopping Workers.stopping ∨
      (s.workers w).phase = .closing := by
  have hphase : x.phase = .closing := by rw [Worker.phase, hx]; rfl
  cases h with
  | quiet _ _ _ q | push _ _ q | take _ _ q => exact .inr (q.phase.symm.trans hphase)
  | arm | disarm | clear | trigger | count => exact .inr hphase
  | closing _ h | closingCaller _ h =>
    cases hx
    exact .inl ⟨h, rfl⟩
  | lock | read | fail | unlock | enterIdle | woken | leave | exit => cases hx

theorem Inv.act_leave (H : s.Inv) (hp : (s.workers w).pc = .leave) {op : Op}
    (h : s.act w op = some t) : (t.workers w).pc = .exited := by
  have ht : (s.workers w).trigger = none := H.trigger_none (by rw [hp]; exact id)
  cases op with
  | run =>
    simp only [Workers.act, run, ht, hp] at h
    cases h
    simp [setPc]
  | _ => simp [Workers.act, ht, hp] at h

/-- How a thread comes to a place of `idle` with `m_mutex` held. -/
theorem Head.origin (H : s.Head) {op : Op} (h : s.act w op = some t) {i : Idle}
    (hi : (t.workers w).pc = .idle true i) :
    (s.workers w).pc = .check [] ∧ i = .stopping Workers.stopping ∨
      ∃ i', (s.workers w).pc = .idle true i' ∧ i'.Next s w i := by
  obtain ⟨s', x, hm, ht⟩ := act_movesTo H.toInv h
  have hx : x.pc = .idle true i := by
    rwa [ht, set_self] at hi
  refine (hm.closing_or_idle hx).imp_right fun hphase => ?_
  rw [Worker.phase] at hphase
  cases hp : (s.workers w).pc with
  | idle last i' =>
    cases last with
    | false =>
      rw [hp] at hphase
      cases hphase
    | true =>
      rcases Head.act H hp h with ⟨h, -⟩ | ⟨i'', h, hn, -⟩
      · rw [hi] at h
        cases h
      · rw [hi] at h
        cases h
        exact ⟨i', rfl, hn⟩
  | leave =>
    rw [H.act_leave hp h] at hi
    cases hi
  | user co =>
    rw [hp] at hphase
    cases co <;> cases hphase
  | _ =>
    rw [hp] at hphase
    cases hphase

/-- What another thread does leaves the place of a thread as it is. -/
theorem Inv.step_pc (H : s.Inv) {a : Step} (h : s.step a = some t) (w : ThreadId) :
    (t.workers w).pc = (s.workers w).pc ∨ ∃ op, a = .act w op ∧ s.act w op = some t := by
  rcases H.step_cases h with ⟨v, op, rfl, -, hact, s', x, hm, rfl⟩ | ⟨h, -⟩
  · by_cases hv : w = v
    · subst hv
      exact .inr ⟨op, rfl, hact⟩
    · rw [hm.set_ne hv]
      exact .inl rfl
  · rw [h]
    exact .inl rfl

theorem Head.step (H : s.Head) {a : Step} (h : s.step a = some t) : t.Head where
  toInv := H.toInv.step h
  head w i hi := by
    rw [H.step_callerThreadId h]
    rcases H.step_pc h w with hp | ⟨op, rfl, hact⟩
    · exact H.head w i (hp ▸ hi)
    · rcases H.origin hact hi with ⟨-, rfl⟩ | ⟨i', hp, hn⟩
      · exact List.suffix_rfl
      · exact hn.atHead (H.head w i' hp)

theorem init_head (useCaller : Bool) (n m : Nat) : (init useCaller n m).Head where
  toInv := init_inv useCaller n m
  head w i hi := by
    simp only [init] at hi
    split at hi <;> cases hi

/-! ## Stuck threads -/

/-- All that the test in `run` has read, but for `m_pendingEventCount`, still holds. -/
theorem Inv.test_of_idle (H : s.Inv) {i : Idle} (hp : (s.workers w).pc = .idle true i) {r : Read}
    (hr : r ∈ s.checks w) (hne : r ≠ .pendingEventCount) : s.test r = true :=
  (H.reads w [] (by rw [Worker.phase, hp]; rfl) r hr List.not_mem_nil).resolve_left hne

theorem eq_nil_of_suffix_stopping {l : List Read}
    (h : .pendingEventCount :: l <:+ Workers.stopping) : l = [] := by
  simpa [Workers.stopping, List.suffix_cons_iff] using h

theorem eq_nil_of_suffix_canEarlyClosure {l : List Read}
    (h : .pendingEventCount :: l <:+ Workers.canEarlyClosure) : l = [] := by
  simpa [Workers.canEarlyClosure, List.suffix_cons_iff] using h

/-- A thread gets stuck at the last read of `m_pendingEventCount` only. -/
theorem Head.stuck_of_next (H : s.Head) {i i' : Idle} (hp : (s.workers w).pc = .idle true i)
    (hn : i.Next s w i') (hi : ¬(Pc.idle true i).Stuck) (hi' : (Pc.idle true i').Stuck) :
    (s.workers w).pc = s.lastRead w ∧ s.pendingEventCount ≠ 0 := by
  have hhead := H.head w i hp
  -- a read that fails is the one of the count
  have hread : ∀ r, r ∈ s.checks w → s.test r = false →
      r = .pendingEventCount ∧ s.pendingEventCount ≠ 0 := fun r hr hf => by
    have : r = .pendingEventCount := by
      by_contra hne
      rw [H.test_of_idle hp hr hne] at hf
      cases hf
    subst this
    exact ⟨rfl, fun h => by simp [test, h] at hf⟩
  cases hn with
  | failCaller hf hc =>
    have hmem := hhead.subset List.mem_cons_self
    obtain ⟨rfl, h0⟩ := hread _ (by rwa [checks, if_pos hc]) hf
    rw [hp, lastRead, if_pos hc, eq_nil_of_suffix_stopping hhead]
    exact ⟨rfl, h0⟩
  | failClosure hf =>
    obtain ⟨hc, hl⟩ := hhead
    have hc : s.callerThreadId ≠ w := by simpa using hc
    have hmem := hl.subset List.mem_cons_self
    obtain ⟨rfl, h0⟩ := hread _ (by rwa [checks, if_neg hc]) hf
    rw [hp, lastRead, if_neg hc, eq_nil_of_suffix_canEarlyClosure hl]
    exact ⟨rfl, h0⟩
  | wait => exact absurd trivial hi
  | pass | fail | passClosure => exact hi'.elim

theorem act_of_step {op : Op} (h : s.step (.act w op) = some t) : s.act w op = some t := by
  simp only [Workers.step] at h
  split at h
  · exact h
  · cases h

theorem Head.stuck_of_lastRead (H : s.Head) (hp : (s.workers w).pc = s.lastRead w)
    (h0 : s.pendingEventCount ≠ 0) (h : s.act w .run = some t) : (t.workers w).pc.Stuck := by
  have htest : s.test .pendingEventCount = false := beq_false_of_ne h0
  have ht := H.trigger_none hp
  unfold lastRead at hp
  simp only [Workers.act, run, ht, hp] at h
  split at h
  · simp only [idle, htest, if_pos ‹s.callerThreadId = w›] at h
    cases h
    simp [setPc, Pc.Stuck]
  · simp only [idle, htest] at h
    cases h
    simp [setPc, Pc.Stuck]

theorem Pc.Stuck.idle {pc : Pc} (h : pc.Stuck) : ∃ i, pc = .idle true i := by
  unfold Pc.Stuck at h
  split at h
  · exact ⟨_, rfl⟩
  · exact ⟨_, rfl⟩
  · exact h.elim

/-- A stuck thread stays stuck: it holds the lock that it needs to go on. -/
theorem Head.stuck_step (H : s.Head) {a : Step} (h : s.step a = some t)
    (hw : (s.workers w).pc.Stuck) : (t.workers w).pc.Stuck := by
  rcases H.step_pc h w with hp | ⟨op, rfl, hact⟩
  · rwa [hp]
  · obtain ⟨i, hp⟩ := hw.idle
    rw [hp] at hw
    rcases Head.act H hp hact with ⟨-, h⟩ | ⟨i', hp', hn, -⟩
    · exact absurd hw h
    · rw [hp']
      cases hn with
      | wait => trivial
      | _ => exact hw.elim

/-- Only a step that fails the condition makes a thread stuck. -/
theorem Head.not_stuck_step (H : s.Head) {a : Step} (h : s.step a = some t)
    (hg : s.LastReadPasses a) (hw : ¬(s.workers w).pc.Stuck) : ¬(t.workers w).pc.Stuck := by
  intro hst
  rcases H.step_pc h w with hp | ⟨op, rfl, hact⟩
  · exact hw (hp ▸ hst)
  · obtain ⟨i', hp'⟩ := hst.idle
    rw [hp'] at hst
    rcases H.origin hact hp' with ⟨-, rfl⟩ | ⟨i, hp, hn⟩
    · exact hst
    · rw [hp] at hw
      obtain ⟨hlast, h0⟩ := H.stuck_of_next hp hn hw hst
      rcases Head.act H hp hact with ⟨h, -⟩ | ⟨-, -, -, rfl | hi⟩
      · rw [hp'] at h
        cases h
      · exact h0 (hg w rfl hlast)
      · exact hw hi

/-- The holder of the lock is in the test of `run`, in `idle` for the last time, or back from it. -/
theorem Head.holder_cases (H : s.Head) (hm : s.mutex = some w) :
    (s.workers w).trigger = none ∧ ((∃ l, (s.workers w).pc = .check l) ∨
      (s.workers w).pc = .checkFailed ∨ (∃ i, (s.workers w).pc = .idle true i) ∨
      (s.workers w).pc = .leave) := by
  have hlock := (H.mutex w).mpr hm
  rw [Worker.phase] at hlock
  cases hp : (s.workers w).pc with
  | check l => exact ⟨Inv.trigger_none H.toInv (by rw [hp]; exact id), .inl ⟨l, rfl⟩⟩
  | checkFailed => exact ⟨Inv.trigger_none H.toInv (by rw [hp]; exact id), .inr (.inl rfl)⟩
  | leave => exact ⟨Inv.trigger_none H.toInv (by rw [hp]; exact id), .inr (.inr (.inr rfl))⟩
  | idle last i =>
    cases last with
    | false =>
      rw [hp] at hlock
      exact hlock.elim
    | true => exact ⟨H.trigger_none hp, .inr (.inr (.inl ⟨i, rfl⟩))⟩
  | user co =>
    rw [hp] at hlock
    cases co <;> exact hlock.elim
  | scan | dispatch | reschedule | close | woken | exited =>
    rw [hp] at hlock
    exact hlock.elim

/-- The holder of the lock is stuck, or can go on without locking it. -/
theorem Head.free_iff (H : s.Head) :
    s.SelfLockFree ↔ ∀ w, ¬(s.workers w).pc.Stuck := by
  constructor
  · intro hfree w hw
    obtain ⟨i, hp⟩ := hw.idle
    obtain ⟨hl, he, -⟩ := hfree w (H.holder hp)
    rw [hp] at hw
    cases i with
    | epollWait => exact he ⟨true, hp⟩
    | scheduleIterator =>
      refine hl ?_
      simp only [LocksMutex, H.trigger_none hp, hp]
    | _ => exact hw
  · intro hno w hm
    obtain ⟨ht, ⟨l, hp⟩ | hp | ⟨i, hp⟩ | hp⟩ := H.holder_cases hm
    · refine ⟨by simp [LocksMutex, ht, hp], by simp [InEpollWait, hp], ?_⟩
      cases l <;> simp [run, ht, hp]
    · exact ⟨by simp [LocksMutex, ht, hp], by simp [InEpollWait, hp], by simp [run, ht, hp]⟩
    · have hw := hno w
      rw [hp] at hw
      cases i with
      | stopping l | canEarlyClosure l =>
        refine ⟨by simp [LocksMutex, ht, hp], by simp [InEpollWait, hp], ?_⟩
        cases l <;> simp [run, ht, hp, idle]
      | epollWait | scheduleIterator => exact absurd trivial hw
      | reports => exact (H.head w _ hp).elim
    · exact ⟨by simp [LocksMutex, ht, hp], by simp [InEpollWait, hp], by simp [run, ht, hp]⟩

theorem stepsLeft_of_next {i i' : Idle} (h : i.Next s w i') (hi : ¬(Pc.idle true i).Stuck) :
    (Pc.idle true i').stepsLeft < (Pc.idle true i).stepsLeft := by
  cases h with
  | wait => exact absurd trivial hi
  | _ => simp [Pc.stepsLeft, Workers.canEarlyClosure]

/-- A step of the holder releases the lock or leaves it fewer steps to make. -/
theorem Head.holder_run (H : s.Head) (hm : s.mutex = some w) (h : s.run w = some t) :
    t.mutex = none ∨ (t.workers w).pc.stepsLeft < (s.workers w).pc.stepsLeft := by
  obtain ⟨ht, ⟨l, hp⟩ | hp | ⟨i, hp⟩ | hp⟩ := H.holder_cases hm
  · right
    simp only [run, ht, hp] at h
    rw [hp]
    cases l with
    | nil =>
      cases h
      simp [closing, setPc, Pc.stepsLeft, Workers.stopping]
    | cons r l =>
      cases h
      simp only [setPc, set_self]
      split <;> simp [Pc.stepsLeft]
  · left
    simp only [run, ht, hp] at h
    cases h
    unfold notClosing
    dsimp only
    split <;> rfl
  · right
    have hst : ¬(Pc.idle true i).Stuck := fun hst => by
      cases i with
      | epollWait | scheduleIterator => simp [run, ht, hp, idle] at h
      | _ => exact hst
    rcases Head.act H hp (show s.act w .run = some t from h) with ⟨h, -⟩ | ⟨i', hp', hn, -⟩
    · rw [h, hp]
      cases i with
      | stopping | canEarlyClosure =>
        simp only [Pc.stepsLeft]
        omega
      | epollWait | scheduleIterator => exact absurd trivial hst
      | reports => exact (H.head w _ hp).elim
    · rw [hp', hp]
      exact stepsLeft_of_next hn hst
  · left
    simp only [run, ht, hp] at h
    cases h
    rfl

theorem Head.reach (h : Reach Workers.step Always (init useCaller n m) s) : s.Head :=
  h.inv (init_head useCaller n m) fun H _ hs => H.step hs

/-- **No self-deadlock.** The holder of `m_mutex` never waits and never locks it again in exactly
the runs in which `idle`, resumed with the lock held, finds the count 0 at its last read; and each
of its steps brings it nearer to releasing the lock. -/
theorem selfLockFree_iff (h : Reach Workers.step Always (init useCaller n m) s) :
    (s.SelfLockFree ↔ Reach Workers.step LastReadPasses (init useCaller n m) s) ∧
      ∀ w t, s.mutex = some w → s.run w = some t →
        t.mutex = none ∨ (t.workers w).pc.stepsLeft < (s.workers w).pc.stepsLeft := by
  refine ⟨⟨?_, fun hg => ?_⟩, fun w t => (Head.reach h).holder_run⟩
  · induction h with
    | refl => exact fun _ => .refl
    | @tail u a t hu _ hs ih =>
      intro hfree
      have H := Head.reach hu
      rw [(H.step hs).free_iff] at hfree
      rw [H.free_iff] at ih
      refine .tail (ih fun w hw => hfree w (H.stuck_step hs hw)) (fun w ha hp => ?_) hs
      by_contra h0
      subst ha
      exact hfree w (H.stuck_of_lastRead hp h0 (act_of_step hs))
  · refine (Head.reach h).free_iff.mpr ?_
    have := hg.inv (I := fun u => u.Head ∧ ∀ w, ¬(u.workers w).pc.Stuck)
      ⟨init_head useCaller n m, fun w hw => ?_⟩
      fun ⟨H, hw⟩ hg hs => ⟨H.step hs, fun w => H.not_stuck_step hs hg (hw w)⟩
    · exact this.2
    · obtain ⟨i, hp⟩ := hw.idle
      simp only [init] at hp
      split at hp <;> cases hp

/-- The only worker of two that is idle holds the lock at the head of the loop of `idle`. -/
theorem selfLockFree_iff_alone :
    ∃ s, (Reach Workers.step Always (init false 2 1) s ∧ s.mutex = some 1) ∧
      (s.SelfLockFree ↔ Reach Workers.step LastReadPasses (init false 2 1) s) ∧
      ∀ w t, s.mutex = some w → s.run w = some t →
        t.mutex = none ∨ (t.workers w).pc.stepsLeft < (s.workers w).pc.stepsLeft := by
  obtain ⟨s, h, hp⟩ := Reach.of_any Workers.step Always (init false 2 1)
    ([.setAutoStop] ++ List.replicate 9 (.act 1 .run)) (fun s => s.mutex = some 1) (by decide)
  exact ⟨s, ⟨h, by simpa using hp⟩, selfLockFree_iff h⟩

/-- A coroutine of the second worker adds an event after the first worker has found the count 0 in
`run`: the first worker holds `m_mutex` and is about to lock it. -/
theorem addEvent_self_locks :
    ¬∀ s, Reach Workers.step Always (init false 2 1) s → s.SelfLockFree := by
  intro hno
  obtain ⟨s, h, hp⟩ := Reach.of_any Workers.step Always (init false 2 1)
    ([.act 3 (.schedule { co := some 7 } false), .act 2 .run, .act 2 (.dispatch false 0),
      .setAutoStop, .setStopping] ++ List.replicate 8 (.act 1 .run) ++
      [.act 2 (.addEvent 5 .READ 7 none true)] ++ List.replicate 8 (.act 1 .run) ++
      [.act 1 (.epollWait [])])
    (fun s => s.mutex = some 1 ∧ (s.workers 1).trigger = none ∧
      (s.workers 1).pc = .idle true (.scheduleIterator [])) (by decide)
  obtain ⟨hm, ht, hp⟩ : s.mutex = some 1 ∧ (s.workers 1).trigger = none ∧
    (s.workers 1).pc = .idle true (.scheduleIterator []) := by simpa using hp
  exact (hno s h 1 hm).1 (by simp only [LocksMutex, ht, hp])

end Tigerkin.Workers
