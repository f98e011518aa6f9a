import Mathlib.Algebra.Order.BigOperators.Group.Finset
import Tigerkin.Scheduler.Pool
import Tigerkin.Std.Sum

/-! # Wake-ups

No task that any thread may take is left in the pool while every thread waits and nobody is about to
tickle for it (`Lost`). A thread that scanned an empty pool counts itself idle later, and waits later
still, so a task scheduled in between is noticed by nobody: `Awake` is the condition on `schedule`
and on the signals sent for it under which no wake-up is lost. -/

namespace Tigerkin.Scheduler

variable {s s' : Scheduler} {w v : ThreadId}

/-- The thread scans the pool again before it waits or ends. -/
def Pc.WillScan : Pc → Bool
  | .scan | .dispatch (some _) | .running _ | .resumed _ | .drain | .woken => true
  | .tickle next | .signal _ next => next.WillScan
  | _ => false

/-- The thread is counted in `m_idleThreadCnt`. -/
def Pc.Counted : Pc → Bool
  | .idle | .wait | .waiting | .drain | .woken => true
  | .tickle next | .signal _ next => next.Counted
  | _ => false

/-- The thread waits for work. -/
def Blocked (s : Scheduler) (w : ThreadId) : Prop :=
  (s.workers w).pc = .waiting ∧ (s.isIOManager → s.tickles = 0)

/-- A lost wake-up. -/
def Lost (s : Scheduler) : Prop :=
  ∃ e ∈ s.taskPools, e.task.threadId = 0 ∧
    (∀ w ∈ s.threads, s.Blocked w ∨ (s.workers w).pc = .exited) ∧
    ∀ k call, s.calls k = some call → e.ticket ∉ call.tasks

/-- When a task for any thread is scheduled, some thread is counted idle or will scan the pool; and
when a signal is sent for it, some thread waits on the condition or will scan the pool. -/
def Awake (s : Scheduler) : Step → Prop
  | .schedule tasks force =>
    (s.autoStop → force) →
      (∃ task ∈ tasks, task.threadId = 0 ∧ (task.co.isSome ∨ task.cb.isSome)) →
      ∃ w ∈ s.threads, (s.workers w).pc.WillScan ∨ (s.workers w).pc.Counted
  | .signal k _ =>
    ¬s.isIOManager →
      (∃ call ∈ s.calls k, ∃ e ∈ s.taskPools, e.task.threadId = 0 ∧ e.ticket ∈ call.tasks) →
      ∃ w ∈ s.threads, (s.workers w).pc.WillScan ∨ (s.workers w).pc = .waiting
  | _ => True

/-- A task in the pool is going to be noticed. -/
def Attended (s : Scheduler) (e : Entry) : Prop :=
  (∃ w ∈ s.threads, (s.workers w).pc.WillScan) ∨
    (∃ w ∈ s.threads, (s.workers w).pc.Counted) ∧
      ((∃ k call, s.calls k = some call ∧ e.ticket ∈ call.tasks ∧ call.signals ≠ some 0) ∨
        s.isIOManager ∧ 0 < s.tickles)

structure Noticed (s : Scheduler) : Prop where
  idle : s.idleThreadCnt = ∑ w ∈ s.threads, (s.workers w).pc.Counted.toNat
  calls : ∀ k, s.callCnt ≤ k → s.calls k = none
  attended : ∀ e ∈ s.taskPools, e.task.threadId = 0 → s.Attended e

theorem Noticed.not_lost (H : s.Noticed) : ¬s.Lost := by
  rintro ⟨e, he, h0, hall, hcall⟩
  rcases H.attended e he h0 with ⟨w, hw, hs⟩ | ⟨⟨w, hw, hc⟩, ⟨k, call, hk, ht, -⟩ | ⟨hio, hp⟩⟩
  · rcases hall w hw with h | h
    · rw [h.1] at hs
      cases hs
    · rw [h] at hs
      cases hs
  · exact hcall k call hk ht
  · rcases hall w hw with h | h
    · have := h.2 hio
      omega
    · rw [h] at hc
      cases hc

/-! ## One thread moves -/

/-- `s'` is `s` after a move of the thread `w` that keeps every task noticed. -/
structure Moved (w : ThreadId) (s s' : Scheduler) : Prop where
  mem : w ∈ s.threads
  threads : s'.threads = s.threads
  isIOManager : s'.isIOManager = s.isIOManager
  calls : s'.calls = s.calls
  callCnt : s'.callCnt = s.callCnt
  pc : ∀ v, v ≠ w → (s'.workers v).pc = (s.workers v).pc
  idle : s'.idleThreadCnt + (s.workers w).pc.Counted.toNat =
    s.idleThreadCnt + (s'.workers w).pc.Counted.toNat
  keeps : (s'.workers w).pc.WillScan = true ∨
    s.tickles ≤ s'.tickles ∧ ∀ e ∈ s'.taskPools, e.task.threadId = 0 → e ∈ s.taskPools ∧
      (s.workers w).pc.WillScan = false ∧
      ((s.workers w).pc.Counted → (s'.workers w).pc.Counted)

theorem Noticed.moved (H : s.Noticed) (M : Moved w s s') : s'.Noticed where
  idle := by
    have h1 := sum_move M.mem (f := fun v => (s.workers v).pc.Counted.toNat)
      (g := fun v => (s'.workers v).pc.Counted.toNat) fun v hv => by rw [M.pc v hv]
    have h2 := H.idle
    have h3 := M.idle
    rw [M.threads]
    omega
  calls k hk := by
    rw [M.callCnt] at hk
    rw [M.calls]
    exact H.calls k hk
  attended e he h0 := by
    by_cases hw : (s'.workers w).pc.WillScan = true
    · exact .inl ⟨w, M.threads ▸ M.mem, hw⟩
    obtain ⟨htick, hpool⟩ := M.keeps.resolve_left hw
    obtain ⟨hmem, hscan, hcount⟩ := hpool e he h0
    unfold Attended
    rw [M.threads, M.calls, M.isIOManager]
    rcases H.attended e hmem h0 with ⟨v, hv, hs⟩ | ⟨⟨v, hv, hc⟩, hp⟩
    · refine .inl ⟨v, hv, ?_⟩
      rw [M.pc v]
      · exact hs
      · rintro rfl
        rw [hscan] at hs
        cases hs
    · refine .inr ⟨⟨v, hv, ?_⟩, hp.imp_right fun h => ⟨h.1, h.2.trans_le htick⟩⟩
      by_cases hvw : v = w
      · subst hvw
        exact hcount hc
      · rw [M.pc v hvw]
        exact hc

@[simp] theorem setPc_pc (s : Scheduler) (w : ThreadId) (pc : Pc) :
    ((s.setPc w pc).workers w).pc = pc := by
  simp [setPc]

theorem setPc_pc_ne (s : Scheduler) (pc : Pc) (h : v ≠ w) :
    ((s.setPc w pc).workers v).pc = (s.workers v).pc := by
  simp [setPc, h]

@[simp] theorem WillScan_afterTickle (cnt : Nat) (next : Pc) :
    (afterTickle cnt next).WillScan = next.WillScan := by
  unfold afterTickle
  split <;> rfl

@[simp] theorem Counted_afterTickle (cnt : Nat) (next : Pc) :
    (afterTickle cnt next).Counted = next.Counted := by
  unfold afterTickle
  split <;> rfl

/-- A thread that only changes its `pc`. -/
theorem Moved.setPc (hw : w ∈ s.threads) {pc : Pc}
    (hc : (s.workers w).pc.Counted = pc.Counted)
    (hs : pc.WillScan = true ∨ (s.workers w).pc.WillScan = false) : Moved w s (s.setPc w pc) where
  mem := hw
  threads := rfl
  isIOManager := rfl
  calls := rfl
  callCnt := rfl
  pc v hv := setPc_pc_ne s pc hv
  idle := by
    rw [setPc_pc, hc]
    rfl
  keeps := by
    rw [setPc_pc]
    exact hs.imp_right fun h => ⟨le_rfl, fun e he _ => ⟨he, h, fun hc' => hc ▸ hc'⟩⟩

/-- A thread that will scan the pool after its move. -/
theorem Moved.of_willScan (hw : w ∈ s.threads) (hthreads : s'.threads = s.threads)
    (hio : s'.isIOManager = s.isIOManager) (hcalls : s'.calls = s.calls)
    (hcnt : s'.callCnt = s.callCnt) (hpc : ∀ v, v ≠ w → (s'.workers v).pc = (s.workers v).pc)
    (hidle : s'.idleThreadCnt + (s.workers w).pc.Counted.toNat =
      s.idleThreadCnt + (s'.workers w).pc.Counted.toNat)
    (hs : (s'.workers w).pc.WillScan = true) : Moved w s s' :=
  ⟨hw, hthreads, hio, hcalls, hcnt, hpc, hidle, .inl hs⟩

theorem Moved.scan (hw : w ∈ s.threads) (hpc : (s.workers w).pc = .scan) :
    Moved w s (s.scan w) := by
  have hscan : ((s.scan w).workers w).pc.WillScan = (scanPool w s.taskPools).1.isSome ∧
      ((s.scan w).workers w).pc.Counted = false := by
    simp only [Scheduler.scan, setPc_pc]
    cases (scanPool w s.taskPools).1 <;> split <;> exact ⟨rfl, rfl⟩
  refine ⟨hw, rfl, rfl, rfl, rfl, fun v hv => setPc_pc_ne _ _ hv, ?_, ?_⟩
  · rw [hscan.2, hpc]
    rfl
  · rw [hscan.1]
    rcases scanPool_spec w s.taskPools with ⟨h1, h2, h3⟩ | ⟨e, l₁, l₂, h1, -, -, -⟩
    · refine .inr ⟨le_rfl, fun e he h0 => ?_⟩
      change e ∈ (scanPool w s.taskPools).2.1 at he
      rw [h2] at he
      exact absurd (.inl h0) (h3 e he)
    · exact .inl (by rw [h1]; rfl)

theorem scheduleBy_moved (hw : w ∈ s.threads) (hpc : (s.workers w).pc.Counted = false)
    (task : Task) : Moved w s (s.scheduleBy w task) := by
  obtain ⟨new, hs, -⟩ := s.scheduleSection_spec true [task]
  have hpc' : ((s.scheduleBy w task).workers w).pc.WillScan = true ∧
      ((s.scheduleBy w task).workers w).pc.Counted = false := by
    simp only [scheduleBy, setPc_pc]
    split <;> exact ⟨rfl, rfl⟩
  refine .of_willScan hw ?_ ?_ ?_ ?_ (fun v hv => ?_) ?_ hpc'.1
  · simp only [scheduleBy, hs]
    rfl
  · simp only [scheduleBy, hs]
    rfl
  · simp only [scheduleBy, hs]
    rfl
  · simp only [scheduleBy, hs]
    rfl
  · simp only [scheduleBy, hs]
    exact setPc_pc_ne _ _ hv
  · rw [hpc, hpc'.2]
    simp only [scheduleBy, hs]
    rfl

theorem switched_moved (hw : w ∈ s.threads) (hpc : (s.workers w).pc.Counted = false) (co : CoId)
    (t : CoThread) : Moved w s (s.switched w co t) := by
  have hpc' : ((s.switched w co t).workers w).pc.WillScan = true ∧
      ((s.switched w co t).workers w).pc.Counted = false := by
    simp only [switched, setPc_pc]
    split <;> exact ⟨rfl, rfl⟩
  refine .of_willScan hw rfl rfl rfl rfl (fun v hv => ?_) ?_ hpc'.1
  · simp only [switched, setPc_pc_ne _ _ hv]
    simp [setThread, hv]
  · rw [hpc, hpc'.2]
    rfl

theorem dispatch_moved (hw : w ∈ s.threads) {task : Option Task}
    (hpc : (s.workers w).pc = .dispatch task) (h : s.dispatch w task = some s') :
    Moved w s s' := by
  have hc : (s.workers w).pc.Counted = false := by rw [hpc]; rfl
  cases task with
  | none =>
    cases h
    exact .setPc hw (by rw [hpc]; rfl) (.inr (by rw [hpc]; rfl))
  | some task =>
    simp only [dispatch] at h
    split at h
    · obtain ⟨t, -, rfl⟩ := Option.map_eq_some_iff.mp h
      exact switched_moved hw hc ..
    · cases h
      split
      · have M := scheduleBy_moved (s := { s with coCnt := s.coCnt + 1 }) hw hc
          { co := some s.coCnt, threadId := task.threadId }
        exact ⟨hw, M.threads, M.isIOManager, M.calls, M.callCnt, M.pc, M.idle, M.keeps⟩
      · exact .setPc hw (by rw [hpc]; rfl) (.inl rfl)

theorem enterIdle_moved (hw : w ∈ s.threads) (hpc : (s.workers w).pc = .close) :
    Moved w s (s.enterIdle w) := by
  refine ⟨hw, rfl, rfl, rfl, rfl, fun v hv => setPc_pc_ne _ _ hv, ?_, .inr ⟨le_rfl, ?_⟩⟩
  · simp only [enterIdle, setPc_pc]
    rw [hpc]
    rfl
  · intro e he _
    refine ⟨he, by rw [hpc]; rfl, fun h => ?_⟩
    rw [hpc] at h
    cases h

theorem close_moved (hw : w ∈ s.threads) (hpc : (s.workers w).pc = .close) :
    Moved w s (s.close w) := by
  have hstay : ∀ pc : Pc, pc.Counted = false → Moved w s (s.setPc w pc) := fun pc hpc' =>
    .setPc hw (by rw [hpc, hpc']; rfl) (.inr (by rw [hpc]; rfl))
  unfold close
  split
  · split
    · exact hstay .exited rfl
    · exact enterIdle_moved hw hpc
  · split
    · have M := hstay (.tickle .exited) rfl
      exact ⟨hw, rfl, rfl, rfl, rfl, M.pc, M.idle, M.keeps⟩
    · split
      · exact hstay (.tickle .scan) rfl
      · exact enterIdle_moved hw hpc

theorem idle_moved (hw : w ∈ s.threads) (hpc : (s.workers w).pc = .idle) :
    Moved w s (s.idle w) := by
  unfold idle
  split
  · refine .of_willScan hw rfl rfl rfl rfl (fun v hv => ?_) ?_ ?_
    · simp [hv]
    · simp [hpc, Pc.Counted]
    · simp [Pc.WillScan]
  · exact .setPc hw (by rw [hpc]; rfl) (.inr (by rw [hpc]; rfl))

theorem run_moved (hw : w ∈ s.threads) (hcnt : (s.workers w).pc = .woken → 0 < s.idleThreadCnt)
    (h : s.run w = some s') : Moved w s s' := by
  cases hpc : (s.workers w).pc with
  | scan =>
    simp only [run, hpc, Option.some.injEq] at h
    exact h ▸ .scan hw hpc
  | tickle next =>
    simp only [run, hpc, Option.some.injEq] at h
    subst h
    refine .setPc hw ?_ ?_
    · rw [hpc, Counted_afterTickle]
      rfl
    · rw [hpc, WillScan_afterTickle]
      cases hn : next.WillScan <;> simp [Pc.WillScan, hn]
  | dispatch task =>
    simp only [run, hpc] at h
    exact dispatch_moved hw hpc h
  | resumed co =>
    simp only [run, hpc, Option.some.injEq] at h
    subst h
    unfold afterResume
    split
    · exact scheduleBy_moved hw (by rw [hpc]; rfl) _
    · exact .setPc hw (by rw [hpc]; rfl) (.inl rfl)
  | noTask =>
    simp only [run, hpc, Option.some.injEq] at h
    subst h
    refine .setPc hw ?_ (.inr (by rw [hpc]; rfl))
    rw [hpc]
    repeat' split
    all_goals rfl
  | close =>
    simp only [run, hpc, Option.some.injEq] at h
    exact h ▸ close_moved hw hpc
  | idle =>
    simp only [run, hpc, Option.some.injEq] at h
    exact h ▸ idle_moved hw hpc
  | wait =>
    simp only [run, hpc, Option.some.injEq] at h
    exact h ▸ .setPc hw (by rw [hpc]; rfl) (.inr (by rw [hpc]; rfl))
  | drain =>
    simp only [run, hpc, Option.some.injEq] at h
    subst h
    split
    · exact .of_willScan hw rfl rfl rfl rfl (fun _ _ => rfl) rfl (by simp [hpc, Pc.WillScan])
    · exact .setPc hw (by rw [hpc]; rfl) (.inl rfl)
  | woken =>
    simp only [run, hpc, Option.some.injEq] at h
    subst h
    have := hcnt hpc
    refine .of_willScan hw rfl rfl rfl rfl (fun v hv => setPc_pc_ne _ _ hv) ?_ ?_
    · simp only [setPc_pc, hpc, Pc.Counted, Bool.toNat_true, Bool.toNat_false]
      change s.idleThreadCnt - 1 + 1 = s.idleThreadCnt + 0
      omega
    · rw [setPc_pc]
      rfl
  | signal | running | waiting | exited =>
    simp only [run, hpc] at h
    cases h

/-! ## Signals -/

/-- A signal moves at most the thread it wakes, and with a waiting thread it wakes one. -/
theorem Noticed.signal (H : s.Noticed) (h : s.signal v = some s') :
    s'.Noticed ∧ s'.threads = s.threads ∧ s'.isIOManager = s.isIOManager ∧ s'.calls = s.calls ∧
      s'.callCnt = s.callCnt ∧ s'.taskPools = s.taskPools ∧
      (∀ w, (s.workers w).pc ≠ .waiting → (s'.workers w).pc = (s.workers w).pc) ∧
      (if s.isIOManager then 0 < s'.tickles else
        (∃ u ∈ s.threads, (s.workers u).pc = .waiting) →
          ∃ u ∈ s'.threads, (s'.workers u).pc.WillScan = true) := by
  unfold Scheduler.signal at h
  split at h
  · rename_i hio
    cases h
    refine ⟨⟨H.idle, H.calls, fun e he h0 => ?_⟩, rfl, rfl, rfl, rfl, rfl, fun _ _ => rfl, ?_⟩
    · refine (H.attended e he h0).imp_right fun h => ⟨h.1, h.2.imp_right fun h => ⟨h.1, ?_⟩⟩
      exact Nat.succ_pos _
    · rw [if_pos hio]
      exact Nat.succ_pos _
  · rename_i hio
    split at h
    · split at h <;> cases h
      rename_i hv
      have M : Moved v s (s.setPc v .woken) := .setPc hv.1 (by rw [hv.2]; rfl) (.inl rfl)
      refine ⟨H.moved M, rfl, rfl, rfl, rfl, rfl, fun w hw => ?_, ?_⟩
      · refine setPc_pc_ne _ _ ?_
        rintro rfl
        exact hw hv.2
      · rw [if_neg hio]
        exact fun _ => ⟨v, hv.1, by rw [setPc_pc]; rfl⟩
    · rename_i hno
      cases h
      refine ⟨H, rfl, rfl, rfl, rfl, rfl, fun _ _ => rfl, ?_⟩
      rw [if_neg hio]
      rintro ⟨u, hu, hpc⟩
      exact absurd ⟨u, hu, hu, hpc⟩ hno

/-- A change of one call, whose tasks are noticed without it. -/
theorem Noticed.setCall (H : s.Noticed) {k : Nat} (hk : k < s.callCnt) (call : Option Call)
    (hcall : ∀ e ∈ s.taskPools, e.task.threadId = 0 →
      (∃ c, s.calls k = some c ∧ e.ticket ∈ c.tasks ∧ c.signals ≠ some 0) →
      (∃ w ∈ s.threads, (s.workers w).pc.Counted) →
      (∃ w ∈ s.threads, (s.workers w).pc.WillScan) ∨
        (∃ c, call = some c ∧ e.ticket ∈ c.tasks ∧ c.signals ≠ some 0) ∨
        s.isIOManager ∧ 0 < s.tickles) :
    Noticed { s with calls := Function.update s.calls k call } where
  idle := H.idle
  calls k' hk' := by
    have : k' ≠ k := by
      rintro rfl
      exact absurd hk (Nat.not_lt.mpr hk')
    simp only [Function.update_apply, if_neg this]
    exact H.calls k' hk'
  attended e he h0 := by
    rcases H.attended e he h0 with h | ⟨hc, ⟨k', c, hk', hp⟩ | h⟩
    · exact .inl h
    · by_cases hkk : k' = k
      · subst hkk
        rcases hcall e he h0 ⟨c, hk', hp⟩ hc with h | ⟨c', rfl, hp'⟩ | h
        · exact .inl h
        · exact .inr ⟨hc, .inl ⟨k', c', by simp, hp'⟩⟩
        · exact .inr ⟨hc, .inr h⟩
      · exact .inr ⟨hc, .inl ⟨k', c, by simp [hkk, hk'], hp⟩⟩
    · exact .inr ⟨hc, .inr h⟩

theorem Noticed.idle_pos (H : s.Noticed) (h : ∃ w ∈ s.threads, (s.workers w).pc.Counted) :
    0 < s.idleThreadCnt := by
  obtain ⟨w, hw, hc⟩ := h
  rw [H.idle]
  refine lt_of_lt_of_le ?_ (Finset.single_le_sum (f := fun v => (s.workers v).pc.Counted.toNat)
    (fun _ _ => Nat.zero_le _) hw)
  simp [hc]

theorem Noticed.call_lt (H : s.Noticed) {k : Nat} {call : Call} (h : s.calls k = some call) :
    k < s.callCnt := by
  by_contra hk
  rw [H.calls k (Nat.not_lt.mp hk)] at h
  cases h

theorem Noticed.schedule (H : s.Noticed) {tasks : List Task} {force : Bool}
    (hG : s.Awake (.schedule tasks force)) : (s.schedule tasks force).Noticed := by
  obtain ⟨new, -, hn, hs⟩ := s.schedule_spec tasks force
  have hnew : ∀ e ∈ new, e.task.threadId = 0 →
      ∃ w ∈ s.threads, (s.workers w).pc.WillScan ∨ (s.workers w).pc.Counted := by
    intro e he h0
    obtain ⟨hmem, hsome, hforce⟩ := hn e he
    exact hG hforce ⟨e.task, hmem, h0, hsome⟩
  rcases hs with hs | ⟨hno, hs⟩
  · rw [hs]
    have hold : ∀ k call, s.calls k = some call → Function.update s.calls s.callCnt
        (some { tasks := new.map Entry.ticket }) k = some call := by
      intro k call hk
      have := H.call_lt hk
      rw [Function.update_of_ne (by omega), hk]
    refine ⟨H.idle, fun k hk => ?_, fun e he h0 => ?_⟩
    · have hk : s.callCnt + 1 ≤ k := hk
      simp only [Function.update_apply, if_neg (show k ≠ s.callCnt by omega)]
      exact H.calls k (by omega)
    · rcases List.mem_append.mp he with he | he
      · refine (H.attended e he h0).imp_right fun h => ⟨h.1, h.2.imp_left ?_⟩
        rintro ⟨k, call, hk, hp⟩
        exact ⟨k, call, hold k call hk, hp⟩
      · obtain ⟨w, hw, hw' | hw'⟩ := hnew e he h0
        · exact .inl ⟨w, hw, hw'⟩
        · refine .inr ⟨⟨w, hw, hw'⟩, .inl ⟨s.callCnt, _, Function.update_self .., ?_, nofun⟩⟩
          exact List.mem_map_of_mem he
  · rw [hs]
    refine ⟨H.idle, H.calls, fun e he h0 => ?_⟩
    rcases List.mem_append.mp he with he | he
    · exact H.attended e he h0
    · obtain ⟨w, hw, hw' | hw'⟩ := hnew e he h0
      · exact .inl ⟨w, hw, hw'⟩
      · have := H.idle_pos ⟨w, hw, hw'⟩
        have := hno.resolve_left (List.ne_nil_of_mem he)
        omega

theorem leaveCo_moved {f : CoThread → Option CoThread} (hw : w ∈ s.threads)
    (h : s.leaveCo w f = some s') : Moved w s s' := by
  unfold leaveCo at h
  split at h
  · rename_i co hpc
    obtain ⟨t, -, rfl⟩ := Option.map_eq_some_iff.mp h
    exact switched_moved hw (by rw [hpc]; rfl) co t
  · cases h

theorem Noticed.step {a : Step} (H : s.Noticed) (hG : s.Awake a) (h : s.step a = some s') :
    s'.Noticed := by
  cases a with
  | schedule tasks force =>
    simp only [Scheduler.step, Option.ite_none_right_eq_some, Option.some.injEq] at h
    exact h.2 ▸ H.schedule hG
  | tickle k =>
    simp only [Scheduler.step] at h
    split at h
    · rename_i call hk
      simp only [Option.ite_none_right_eq_some, Option.some.injEq] at h
      obtain ⟨hsig, rfl⟩ := h
      refine H.setCall (H.call_lt hk) _ ?_
      rintro e he h0 ⟨c, hc, hmem, -⟩ hcount
      rw [hk] at hc
      cases hc
      have hpos : s.tickleCnt ≠ 0 := by
        have := H.idle_pos hcount
        simp only [tickleCnt, if_pos this]
        split <;> omega
      refine .inr (.inl ⟨{ call with signals := some s.tickleCnt }, ?_, hmem, by simpa using hpos⟩)
      rw [Call.after, if_neg hpos]
    · cases h
  | signal k v =>
    simp only [Scheduler.step] at h
    split at h
    · rename_i tasks cnt hk
      obtain ⟨t, ht, rfl⟩ := Option.map_eq_some_iff.mp h
      obtain ⟨Ht, hth, hio, hcalls, hcnt, hpool, hpcs, hsig⟩ := H.signal ht
      have hk' := H.call_lt hk
      refine Ht.setCall (by rw [hcnt]; exact hk') _ ?_
      rintro e he h0 ⟨c, hc, hmem, -⟩ -
      rw [hcalls, hk] at hc
      cases hc
      rw [hpool] at he
      split at hsig
      · rename_i hi
        exact .inr (.inr ⟨hio ▸ hi, hsig⟩)
      · rename_i hi
        obtain ⟨w, hw, hs | hw'⟩ := hG hi ⟨_, hk, e, he, h0, hmem⟩
        · refine .inl ⟨w, hth ▸ hw, ?_⟩
          rw [hpcs w]
          · exact hs
          · intro hpc
            rw [hpc] at hs
            cases hs
        · exact .inl (hsig ⟨w, hw, hw'⟩)
    · cases h
  | run w =>
    simp only [Scheduler.step, Option.ite_none_right_eq_some] at h
    obtain ⟨hw, h⟩ := h
    exact H.moved (run_moved hw (fun hpc => H.idle_pos ⟨w, hw, by rw [hpc]; rfl⟩) h)
  | signalBy w v =>
    simp only [Scheduler.step, Option.ite_none_right_eq_some, signalBy] at h
    obtain ⟨hw, h⟩ := h
    split at h
    · rename_i cnt next hpc
      obtain ⟨t, ht, rfl⟩ := Option.map_eq_some_iff.mp h
      obtain ⟨Ht, hth, -, -, -, -, hpcs, -⟩ := H.signal ht
      have hpc' : (t.workers w).pc = .signal (cnt + 1) next := by
        rw [hpcs w (by rw [hpc]; rintro ⟨⟩), hpc]
      refine Ht.moved (.setPc (hth ▸ hw) ?_ ?_)
      · rw [hpc', Counted_afterTickle]
        rfl
      · rw [hpc', WillScan_afterTickle]
        cases hn : next.WillScan <;> simp [Pc.WillScan, hn]
    · cases h
  | wake w tickled =>
    simp only [Scheduler.step, Option.ite_none_right_eq_some, wake, Option.some.injEq] at h
    obtain ⟨hw, ⟨hpc, -⟩, rfl⟩ := h
    refine H.moved (.setPc hw ?_ (.inl ?_))
    · rw [hpc]
      cases tickled <;> rfl
    · cases tickled <;> rfl
  | yield w | finish w except =>
    simp only [Scheduler.step, Option.ite_none_right_eq_some] at h
    exact H.moved (leaveCo_moved h.1 h.2)
  | setStopping =>
    simp only [Scheduler.step, Option.ite_none_right_eq_some, Option.some.injEq] at h
    exact h.2 ▸ ⟨H.idle, H.calls, H.attended⟩
  | newCoroutine | setAutoStop | setPendingEventCount n =>
    cases h
    exact ⟨H.idle, H.calls, H.attended⟩

/-! ## Runs -/

theorem init_pc (isIOManager useCaller : Bool) (n : Nat) (w : ThreadId) :
    ((init isIOManager useCaller n).workers w).pc = .scan := by
  cases useCaller
  · rfl
  · simp only [init, setThread, if_true, Function.update_apply]
    split <;> rfl

theorem init_noticed (isIOManager useCaller : Bool) (n : Nat) :
    (init isIOManager useCaller n).Noticed := by
  have h : (init isIOManager useCaller n).idleThreadCnt = 0 ∧
      (init isIOManager useCaller n).calls = (fun _ => none) ∧
      (init isIOManager useCaller n).taskPools = [] := by
    cases useCaller <;> exact ⟨rfl, rfl, rfl⟩
  refine ⟨?_, fun k _ => by rw [h.2.1], fun e he => ?_⟩
  · rw [h.1, Finset.sum_eq_zero]
    intro w _
    rw [init_pc]
    rfl
  · rw [h.2.2] at he
    cases he

/-- **No lost wake-up**, of any number of threads and in any interleaving, when the tasks are
scheduled and the signals sent while a thread is awake for them. -/
theorem no_lost_wake_up {isIOManager useCaller : Bool} {n : Nat}
    (h : Reach step Awake (init isIOManager useCaller n) s) : ¬s.Lost :=
  (h.inv (init_noticed isIOManager useCaller n) Noticed.step).not_lost

instance (s : Scheduler) : ∀ a, Decidable (s.Awake a)
  | .schedule _ _ | .signal _ _ => inferInstanceAs (Decidable (_ → _ → _))
  | .tickle _ | .run _ | .signalBy _ _ | .wake _ _ | .yield _ | .finish _ _ | .newCoroutine
  | .setAutoStop | .setStopping | .setPendingEventCount _ => .isTrue trivial

instance (s : Scheduler) (w : ThreadId) : Decidable (s.Blocked w) :=
  inferInstanceAs (Decidable (_ ∧ _))

/-- A thread waits, and is woken for the task that is scheduled next, as long as that is in the
pool. -/
theorem no_lost_wake_up_signalled : ∃ s, (Reach step Awake (init false false 1) s ∧
    s.taskPools ≠ [] ∧ (s.workers 1).pc = .woken) ∧ ¬s.Lost := by
  obtain ⟨s, h, hp⟩ := Reach.of_any step Awake (init false false 1)
    [.run 1, .run 1, .run 1, .run 1, .run 1, .run 1, .schedule [{ cb := some 0 }] false, .tickle 0,
      .signal 0 1]
    (fun s => s.taskPools ≠ [] ∧ (s.workers 1).pc = .woken) (by decide)
  exact ⟨s, ⟨h, by simpa using hp⟩, no_lost_wake_up h⟩

/-- A task is scheduled after the only thread has found the pool empty and before it is counted
idle: the thread waits and the task stays. -/
theorem scheduled_after_scan : ¬∀ s, Reach step Always (init false false 1) s → ¬s.Lost := by
  intro hno
  have h := Reach.of_foldlM step Always (init false false 1)
    [.run 1, .run 1, .schedule [{ cb := some 0 }] false, .run 1, .run 1, .run 1, .run 1] rfl
  refine hno _ h ⟨⟨{ cb := some 0 }, 0⟩, by decide, rfl, by decide, fun k call hk => ?_⟩
  cases hk

end Tigerkin.Scheduler
