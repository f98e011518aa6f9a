import Tigerkin.Scheduler.Basic

/-! # The task pool

What a scan and a section of `schedule` do to the pool, and that every accepted task is dequeued at
most once (`Tickets`). -/

namespace Tigerkin.Scheduler

variable {s s' : Scheduler} {w v : ThreadId}

theorem scanPool_spec (w : ThreadId) (l : List Entry) :
    ((scanPool w l).1 = none ∧ (scanPool w l).2.1 = l ∧ ∀ e ∈ l, ¬Takes w e.task) ∨
      ∃ e l₁ l₂, (scanPool w l).1 = some e ∧ (scanPool w l).2.1 = l₁ ++ l₂ ∧ l = l₁ ++ e :: l₂ ∧
        Takes w e.task := by
  induction l with
  | nil => exact .inl ⟨rfl, rfl, by simp⟩
  | cons e l ih =>
    by_cases he : Takes w e.task
    · exact .inr ⟨e, [], l, by simp [scanPool, he], by simp [scanPool, he], rfl, he⟩
    · simp only [scanPool, if_neg he]
      rcases ih with ⟨h1, h2, h3⟩ | ⟨e', l₁, l₂, h1, h2, h3, h4⟩
      · exact .inl ⟨h1, by rw [h2], by simpa [he] using h3⟩
      · exact .inr ⟨e', e :: l₁, l₂, h1, by rw [h2]; rfl, by rw [h3]; rfl, h4⟩

/-- The section of `schedule` puts the accepted tasks at the end of the pool. -/
theorem scheduleSection_spec (s : Scheduler) (force : Bool) (tasks : List Task) :
    ∃ new : List Entry, (s.scheduleSection force tasks).2 =
        { s with taskPools := s.taskPools ++ new, taskCnt := s.taskCnt + new.length } ∧
      new.map Entry.ticket = List.range' s.taskCnt new.length ∧
      (∀ e ∈ new, e.task ∈ tasks ∧ (e.task.co.isSome ∨ e.task.cb.isSome) ∧
        (s.autoStop → force)) ∧
      (new ≠ [] → 0 < s.idleThreadCnt → (s.scheduleSection force tasks).1 = true) := by
  induction tasks generalizing s with
  | nil => exact ⟨[], by simp [scheduleSection], rfl, by simp, by simp⟩
  | cons task tasks ih =>
    simp only [scheduleSection]
    by_cases hstop : (s.autoStop && !force) = true
    · have h1 : s.scheduleWithoutLock task force = (false, s) := by
        simp only [scheduleWithoutLock, hstop, if_true]
      obtain ⟨new, hs, ht, hn, hb⟩ := ih s
      rw [h1]
      refine ⟨new, hs, ht, fun e he => ?_, by simpa using hb⟩
      obtain ⟨hmem, hrest⟩ := hn e he
      exact ⟨List.mem_cons_of_mem _ hmem, hrest⟩
    have hforce : s.autoStop → force = true := by simpa using hstop
    by_cases hsome : (task.cb.isSome || task.co.isSome) = true
    · have h1 : s.scheduleWithoutLock task force = (decide (0 < s.idleThreadCnt),
          { s with
            taskPools := s.taskPools ++ [⟨task, s.taskCnt⟩], taskCnt := s.taskCnt + 1 }) := by
        simp [scheduleWithoutLock, hstop, hsome]
      obtain ⟨new, hs, ht, hn, hb⟩ := ih
        { s with taskPools := s.taskPools ++ [⟨task, s.taskCnt⟩], taskCnt := s.taskCnt + 1 }
      rw [h1]
      refine ⟨⟨task, s.taskCnt⟩ :: new, ?_, ?_, fun e he => ?_, fun _ hi => by simp [hi]⟩
      · rw [hs]
        simp only [List.append_assoc, List.singleton_append, List.length_cons]
        rw [show s.taskCnt + 1 + new.length = s.taskCnt + (new.length + 1) by omega]
      · simp only [List.map_cons, List.length_cons, List.range'_succ, ht]
      · rcases List.mem_cons.mp he with rfl | he
        · refine ⟨List.mem_cons_self, ?_, hforce⟩
          simpa [or_comm] using hsome
        · obtain ⟨hmem, hrest⟩ := hn e he
          exact ⟨List.mem_cons_of_mem _ hmem, hrest⟩
    · have h1 : (s.scheduleWithoutLock task force).2 = s := by
        simp [scheduleWithoutLock, hstop, hsome]
      obtain ⟨new, hs, ht, hn, hb⟩ := ih s
      rw [h1]
      refine ⟨new, hs, ht, fun e he => ?_, fun h1 h2 => by simp [hb h1 h2]⟩
      obtain ⟨hmem, hrest⟩ := hn e he
      exact ⟨List.mem_cons_of_mem _ hmem, hrest⟩

/-- What a step does to the pool: nothing, put new entries at its end, or take one. -/
inductive PoolStep (s s' : Scheduler) : Prop
  | same (pool : s'.taskPools = s.taskPools) (taskCnt : s'.taskCnt = s.taskCnt)
    (dequeued : s'.dequeued = s.dequeued)
  | push (new : List Entry) (pool : s'.taskPools = s.taskPools ++ new)
    (taskCnt : s'.taskCnt = s.taskCnt + new.length) (dequeued : s'.dequeued = s.dequeued)
    (tickets : new.map Entry.ticket = List.range' s.taskCnt new.length)
  | take (e : Entry) (l₁ l₂ : List Entry) (pool : s.taskPools = l₁ ++ e :: l₂)
    (pool' : s'.taskPools = l₁ ++ l₂) (taskCnt : s'.taskCnt = s.taskCnt)
    (dequeued : s'.dequeued = s.dequeued ++ [e.ticket])

/-- `schedule` puts the accepted tasks at the end of the pool, and tickles when it has accepted one
while a thread is counted idle. -/
theorem schedule_spec (s : Scheduler) (tasks : List Task) (force : Bool) :
    ∃ new : List Entry, new.map Entry.ticket = List.range' s.taskCnt new.length ∧
      (∀ e ∈ new, e.task ∈ tasks ∧ (e.task.co.isSome ∨ e.task.cb.isSome) ∧
        (s.autoStop → force)) ∧
      (s.schedule tasks force = { s with
          taskPools := s.taskPools ++ new, taskCnt := s.taskCnt + new.length, callCnt := s.callCnt + 1
          calls := Function.update s.calls s.callCnt (some { tasks := new.map Entry.ticket }) } ∨
        (new = [] ∨ s.idleThreadCnt = 0) ∧ s.schedule tasks force = { s with
          taskPools := s.taskPools ++ new, taskCnt := s.taskCnt + new.length }) := by
  obtain ⟨new, hs, ht, hn, hb⟩ := s.scheduleSection_spec force tasks
  refine ⟨new, ht, hn, ?_⟩
  simp only [schedule, hs, Nat.add_sub_cancel_left, ht]
  cases hc : (s.scheduleSection force tasks).1 with
  | true => exact .inl rfl
  | false =>
    refine .inr ⟨?_, rfl⟩
    by_contra hno
    rw [not_or] at hno
    rw [hb hno.1 (Nat.pos_of_ne_zero hno.2)] at hc
    cases hc

theorem schedule_pool (s : Scheduler) (tasks : List Task) (force : Bool) :
    PoolStep s (s.schedule tasks force) := by
  obtain ⟨new, ht, -, h | ⟨-, h⟩⟩ := s.schedule_spec tasks force <;> rw [h] <;>
    exact .push new rfl rfl rfl ht

theorem scheduleBy_pool (s : Scheduler) (w : ThreadId) (task : Task) :
    PoolStep s (s.scheduleBy w task) := by
  obtain ⟨new, hs, ht, -, -⟩ := s.scheduleSection_spec true [task]
  refine .push new ?_ ?_ ?_ ht <;>
    simp only [scheduleBy, setPc, hs]

theorem scan_pool (s : Scheduler) (w : ThreadId) : PoolStep s (s.scan w) := by
  rcases scanPool_spec w s.taskPools with ⟨h1, h2, -⟩ | ⟨e, l₁, l₂, h1, h2, h3, -⟩
  · refine .same h2 rfl ?_
    simp [scan, setPc, h1]
  · refine .take e l₁ l₂ h3 h2 rfl ?_
    simp [scan, setPc, h1]

theorem PoolStep.congr {t t' : Scheduler} (h : PoolStep s t) (h1 : t'.taskPools = t.taskPools)
    (h2 : t'.taskCnt = t.taskCnt) (h3 : t'.dequeued = t.dequeued) : PoolStep s t' := by
  cases h with
  | same a b c => exact .same (h1.trans a) (h2.trans b) (h3.trans c)
  | push new a b c d => exact .push new (h1.trans a) (h2.trans b) (h3.trans c) d
  | take e l₁ l₂ a b c d => exact .take e l₁ l₂ a (h1.trans b) (h2.trans c) (h3.trans d)

theorem dispatch_pool {task : Option Task} (h : s.dispatch w task = some s') : PoolStep s s' := by
  cases task with
  | none =>
    cases h
    exact .same rfl rfl rfl
  | some task =>
    simp only [dispatch] at h
    split at h
    · obtain ⟨t, -, rfl⟩ := Option.map_eq_some_iff.mp h
      exact .same rfl rfl rfl
    · cases h
      split
      · cases scheduleBy_pool { s with coCnt := s.coCnt + 1 } w _ with
        | same h1 h2 h3 => exact .same h1 h2 h3
        | push new h1 h2 h3 h4 => exact .push new h1 h2 h3 h4
        | take e l₁ l₂ h1 h2 h3 h4 => exact .take e l₁ l₂ h1 h2 h3 h4
      · exact .same rfl rfl rfl

theorem run_pool (h : s.run w = some s') : PoolStep s s' := by
  cases hpc : (s.workers w).pc with
  | scan =>
    simp only [run, hpc, Option.some.injEq] at h
    exact h ▸ scan_pool s w
  | dispatch task =>
    simp only [run, hpc] at h
    exact dispatch_pool h
  | resumed co =>
    simp only [run, hpc, Option.some.injEq] at h
    subst h
    unfold afterResume
    split
    · exact scheduleBy_pool ..
    · exact .same rfl rfl rfl
  | close =>
    simp only [run, hpc, Option.some.injEq] at h
    subst h
    unfold close enterIdle
    repeat' split
    all_goals exact .same rfl rfl rfl
  | idle =>
    simp only [run, hpc, Option.some.injEq] at h
    subst h
    unfold idle
    split <;> exact .same rfl rfl rfl
  | drain =>
    simp only [run, hpc, Option.some.injEq] at h
    subst h
    split <;> exact .same rfl rfl rfl
  | tickle | noTask | wait | woken =>
    simp only [run, hpc, Option.some.injEq] at h
    subst h
    exact .same rfl rfl rfl
  | signal | running | waiting | exited =>
    simp only [run, hpc] at h
    cases h

theorem signal_pool (h : s.signal v = some s') : PoolStep s s' := by
  unfold signal at h
  split at h
  · cases h
    exact .same rfl rfl rfl
  · split at h
    · split at h <;> cases h
      exact .same rfl rfl rfl
    · cases h
      exact .same rfl rfl rfl

theorem leaveCo_pool {f : CoThread → Option CoThread} (h : s.leaveCo w f = some s') :
    PoolStep s s' := by
  unfold leaveCo at h
  split at h
  · obtain ⟨t, -, rfl⟩ := Option.map_eq_some_iff.mp h
    exact .same rfl rfl rfl
  · cases h

theorem step_pool {a : Step} (h : s.step a = some s') : PoolStep s s' := by
  cases a with
  | schedule tasks force =>
    simp only [step, Option.ite_none_right_eq_some, Option.some.injEq] at h
    exact h.2 ▸ schedule_pool ..
  | tickle k =>
    simp only [step] at h
    split at h
    · split at h <;> cases h
      exact .same rfl rfl rfl
    · cases h
  | signal k v =>
    simp only [step] at h
    split at h
    · obtain ⟨t, ht, rfl⟩ := Option.map_eq_some_iff.mp h
      exact (signal_pool ht).congr rfl rfl rfl
    · cases h
  | run w =>
    simp only [step, Option.ite_none_right_eq_some] at h
    exact run_pool h.2
  | signalBy w v =>
    simp only [step, Option.ite_none_right_eq_some, signalBy] at h
    obtain ⟨-, h⟩ := h
    split at h
    · obtain ⟨t, ht, rfl⟩ := Option.map_eq_some_iff.mp h
      exact (signal_pool ht).congr rfl rfl rfl
    · cases h
  | wake w tickled =>
    simp only [step, Option.ite_none_right_eq_some, wake, Option.some.injEq] at h
    exact h.2.2 ▸ .same rfl rfl rfl
  | yield w | finish w except =>
    simp only [step, Option.ite_none_right_eq_some] at h
    exact leaveCo_pool h.2
  | setStopping =>
    simp only [step, Option.ite_none_right_eq_some, Option.some.injEq] at h
    exact h.2 ▸ .same rfl rfl rfl
  | newCoroutine | setAutoStop | setPendingEventCount n =>
    cases h
    exact .same rfl rfl rfl

/-- No ticket is used twice: a task is dequeued at most once. -/
structure Tickets (s : Scheduler) : Prop where
  nodup : (s.dequeued ++ s.taskPools.map Entry.ticket).Nodup
  lt : ∀ t ∈ s.dequeued ++ s.taskPools.map Entry.ticket, t < s.taskCnt

theorem Tickets.step {a : Step} (H : s.Tickets) (h : s.step a = some s') : s'.Tickets := by
  obtain ⟨hn, hl⟩ := H
  cases step_pool h with
  | same h1 h2 h3 => exact ⟨by rw [h1, h3]; exact hn, by rw [h1, h2, h3]; exact hl⟩
  | push new h1 h2 h3 h4 =>
    refine ⟨?_, fun t ht => ?_⟩
    · rw [h1, h3, List.map_append, ← List.append_assoc, List.nodup_append', h4]
      refine ⟨hn, List.nodup_range', fun t ht ht' => ?_⟩
      have := hl t ht
      have := (List.mem_range'_1.mp ht').1
      omega
    · rw [h1, h3, List.map_append, ← List.append_assoc, h4] at ht
      rw [h2]
      rcases List.mem_append.mp ht with ht | ht
      · have := hl t ht
        omega
      · exact (List.mem_range'_1.mp ht).2
  | take e l₁ l₂ h1 h2 h3 h4 =>
    have hp : (s'.dequeued ++ s'.taskPools.map Entry.ticket).Perm
        (s.dequeued ++ s.taskPools.map Entry.ticket) := by
      rw [h1, h2, h4, List.map_append, List.map_append, List.map_cons, List.append_assoc,
        List.singleton_append]
      exact (List.perm_middle.symm).append_left _
    exact ⟨hp.nodup_iff.mpr hn, fun t ht => by rw [h3]; exact hl t (hp.subset ht)⟩

end Tigerkin.Scheduler
