import Tigerkin.Scheduler.Placed
import Tigerkin.Scheduler.Pool

/-! # Dispatching coroutines

A coroutine runs on the thread that resumed it first and on no other. The pool does not know that
thread: an entry may be taken by every thread that its `threadId` allows, and a thread that takes a
coroutine of another one drops it. `Owned` is the condition on `schedule` under which a thread that
takes a coroutine switches to it (`no_task_lost`). -/

namespace Tigerkin.Scheduler

variable {s s' : Scheduler} {w v : ThreadId} {c : CoId}

/-- The coroutine of the task that a thread has taken and has not resumed yet. -/
def Pc.heldCo : Pc → Option CoId
  | .dispatch (some task) => task.co
  | .tickle next | .signal _ next => next.heldCo
  | _ => none

/-- The coroutine of a task is none of the scheduler's own. Only the thread that it has recorded may
take the task; and if it has none yet, no thread may take the task while another one may take the
coroutine, or has taken it, for another task. -/
def Owned (s : Scheduler) (task : Task) : Prop :=
  ∀ c ∈ task.co, ¬s.IsSystem c ∧ ∀ w ∈ s.threads, Takes w task →
    if (s.cos c).threadId ≠ 0 then w = (s.cos c).threadId
    else (∀ e ∈ s.taskPools, e.task.co = some c → ∀ v ∈ s.threads, Takes v e.task → v = w) ∧
      ∀ v ∈ s.threads, (s.workers v).pc.heldCo = some c → v = w

def OwnedAll (s : Scheduler) (force : Bool) : List Task → Prop
  | [] => True
  | task :: tasks =>
    ((s.autoStop → force) → s.Owned task) ∧ (s.scheduleWithoutLock task force).2.OwnedAll force tasks

/-- The condition on a step. -/
def Owning (s : Scheduler) : Step → Prop
  | .schedule tasks force => s.OwnedAll force tasks
  | _ => True

/-! ## Whose the tasks are -/

/-- Threads that may take the same coroutine are the same thread. -/
def Compatible (S : Finset ThreadId) (e e' : Entry) : Prop :=
  ∀ c, e.task.co = some c → e'.task.co = some c → ∀ v ∈ S, ∀ w ∈ S, Takes v e.task →
    Takes w e'.task → v = w

structure Owners (s : Scheduler) : Prop where
  known : ∀ e ∈ s.taskPools, ∀ c, e.task.co = some c → ¬s.IsSystem c ∧ c < s.coCnt
  heldKnown : ∀ w ∈ s.threads, ∀ c, (s.workers w).pc.heldCo = some c →
    ¬s.IsSystem c ∧ c < s.coCnt
  runsKnown : ∀ w ∈ s.threads, ∀ c, (s.workers w).pc.runs = some c → c < s.coCnt
  pool : ∀ e ∈ s.taskPools, ∀ c, e.task.co = some c → ∀ w ∈ s.threads, Takes w e.task →
    (s.cos c).threadId ≠ 0 → w = (s.cos c).threadId
  held : ∀ w ∈ s.threads, ∀ c, (s.workers w).pc.heldCo = some c → (s.cos c).threadId ≠ 0 →
    w = (s.cos c).threadId
  pairs : s.taskPools.Pairwise (Compatible s.threads)
  poolHeld : ∀ e ∈ s.taskPools, ∀ c, e.task.co = some c → ∀ v ∈ s.threads,
    (s.workers v).pc.heldCo = some c → ∀ w ∈ s.threads, Takes w e.task → w = v
  heldHeld : ∀ v ∈ s.threads, ∀ w ∈ s.threads, ∀ c, (s.workers v).pc.heldCo = some c →
    (s.workers w).pc.heldCo = some c → v = w

/-- The owners stay the same when no task is added or taken and no coroutine is resumed. -/
theorem Owners.congr (H : s.Owners) (hthreads : s'.threads = s.threads)
    (hsys : ∀ c, s'.IsSystem c ↔ s.IsSystem c) (hcnt : s.coCnt ≤ s'.coCnt)
    (hpool : s'.taskPools = s.taskPools)
    (hth : ∀ c, (s'.cos c).threadId = (s.cos c).threadId)
    (hheld : ∀ w c, (s'.workers w).pc.heldCo = some c → (s.workers w).pc.heldCo = some c)
    (hruns : ∀ w c, (s'.workers w).pc.runs = some c → (s.workers w).pc.runs = some c) :
    s'.Owners where
  known e he c hc := by
    rw [hpool] at he
    rw [hsys]
    exact (H.known e he c hc).imp_right (lt_of_lt_of_le · hcnt)
  heldKnown w hw c hc := by
    rw [hthreads] at hw
    rw [hsys]
    exact (H.heldKnown w hw c (hheld w c hc)).imp_right (lt_of_lt_of_le · hcnt)
  runsKnown w hw c hc := by
    rw [hthreads] at hw
    exact lt_of_lt_of_le (H.runsKnown w hw c (hruns w c hc)) hcnt
  pool e he c hc w hw := by
    rw [hpool] at he
    rw [hthreads] at hw
    rw [hth]
    exact H.pool e he c hc w hw
  held w hw c hc := by
    rw [hthreads] at hw
    rw [hth]
    exact H.held w hw c (hheld w c hc)
  pairs := by
    rw [hpool, hthreads]
    exact H.pairs
  poolHeld e he c hc v hv hv' w hw := by
    rw [hpool] at he
    rw [hthreads] at hv hw
    exact H.poolHeld e he c hc v hv (hheld v c hv') w hw
  heldHeld v hv w hw c hv' hw' := by
    rw [hthreads] at hv hw
    exact H.heldHeld v hv w hw c (hheld v c hv') (hheld w c hw')

/-- A new entry at the end of the pool. -/
theorem Owners.push (H : s.Owners) {task : Task} {n : Nat} (hown : s.Owned task)
    (hcnt : ∀ c, task.co = some c → c < s.coCnt) :
    Owners { s with taskPools := s.taskPools ++ [⟨task, s.taskCnt⟩], taskCnt := n } := by
  have hmem : ∀ e, e ∈ s.taskPools ++ [(⟨task, s.taskCnt⟩ : Entry)] →
      e ∈ s.taskPools ∨ e = ⟨task, s.taskCnt⟩ := by simp
  exact {
    known := fun e he c hc => by
      rcases hmem e he with he | rfl
      · exact H.known e he c hc
      · exact ⟨(hown c hc).1, hcnt c hc⟩
    heldKnown := H.heldKnown
    runsKnown := H.runsKnown
    pool := fun e he c hc w hw ht h0 => by
      rcases hmem e he with he | rfl
      · exact H.pool e he c hc w hw ht h0
      · have := (hown c hc).2 w hw ht
        rw [if_pos h0] at this
        exact this
    held := H.held
    pairs := by
      refine List.pairwise_append.mpr ⟨H.pairs, List.pairwise_singleton .., fun e he e' he' => ?_⟩
      rw [List.mem_singleton.mp he']
      intro c hc hc' v hv w hw hv' hw'
      have := (hown c hc').2 w hw hw'
      split at this
      · rename_i h0
        exact (H.pool e he c hc v hv hv' h0).trans this.symm
      · exact this.1 e he hc v hv hv'
    poolHeld := fun e he c hc v hv hv' w hw ht => by
      rcases hmem e he with he | rfl
      · exact H.poolHeld e he c hc v hv hv' w hw ht
      · have := (hown c hc).2 w hw ht
        split at this
        · rename_i h0
          exact this.trans (H.held v hv c hv' h0).symm
        · exact (this.2 v hv hv').symm
    heldHeld := H.heldHeld }

/-- No other thread may take a coroutine of `e` from what is left of the pool. -/
theorem Owners.pairs_take (H : s.Owners) (hw : w ∈ s.threads) {e : Entry} {l₁ l₂ : List Entry}
    (hpool : s.taskPools = l₁ ++ e :: l₂) (ht : Takes w e.task) :
    (l₁ ++ l₂).Pairwise (Compatible s.threads) ∧
      ∀ e' ∈ l₁ ++ l₂, ∀ c, e'.task.co = some c → e.task.co = some c →
        ∀ v ∈ s.threads, Takes v e'.task → v = w := by
  have h := H.pairs
  rw [hpool] at h
  obtain ⟨h1, h2, h3⟩ := List.pairwise_append.mp h
  obtain ⟨h4, h5⟩ := List.pairwise_cons.mp h2
  refine ⟨List.pairwise_append.mpr ⟨h1, h5, fun a ha b hb => ?_⟩,
    fun e' he' c hc' hc v hv hv' => ?_⟩
  · exact h3 a ha b (List.mem_cons_of_mem _ hb)
  · rcases List.mem_append.mp he' with he' | he'
    · exact h3 e' he' e List.mem_cons_self c hc' hc v hv w hw hv' ht
    · exact (h4 e' he' c hc hc' w hw v hv ht hv').symm

/-- A thread takes an entry of the pool. -/
theorem Owners.take (H : s.Owners) (hw : w ∈ s.threads) (S : Stays s s') {e : Entry}
    {l₁ l₂ : List Entry} (hpool : s.taskPools = l₁ ++ e :: l₂) (hpool' : s'.taskPools = l₁ ++ l₂)
    (ht : Takes w e.task) (hheld : (s'.workers w).pc.heldCo = e.task.co)
    (hothers : ∀ v, v ≠ w → (s'.workers v).pc = (s.workers v).pc) : s'.Owners := by
  have he : e ∈ s.taskPools := by simp [hpool]
  have hmem : ∀ e', e' ∈ s'.taskPools → e' ∈ s.taskPools := by
    intro e' he'
    rw [hpool'] at he'
    rw [hpool]
    grind
  have hpairs := H.pairs_take hw hpool ht
  rw [← hpool'] at hpairs
  -- What a thread holds now it held before, or it is the coroutine of `e`.
  have hold : ∀ v c, (s'.workers v).pc.heldCo = some c →
      v = w ∧ e.task.co = some c ∨ v ≠ w ∧ (s.workers v).pc.heldCo = some c := by
    intro v c hc
    by_cases hvw : v = w
    · subst hvw
      exact .inl ⟨rfl, hheld ▸ hc⟩
    · exact .inr ⟨hvw, hothers v hvw ▸ hc⟩
  exact {
    known := fun e' he' c hc => by
      rw [S.isSystem]
      exact (H.known e' (hmem e' he') c hc).imp_right (lt_of_lt_of_le · S.coCnt)
    heldKnown := fun v hv c hc => by
      rw [S.threads] at hv
      rw [S.isSystem]
      rcases hold v c hc with ⟨-, h⟩ | ⟨-, h⟩
      · exact (H.known e he c h).imp_right (lt_of_lt_of_le · S.coCnt)
      · exact (H.heldKnown v hv c h).imp_right (lt_of_lt_of_le · S.coCnt)
    runsKnown := fun v hv c hc => by
      rw [S.threads] at hv
      rw [S.runs] at hc
      exact lt_of_lt_of_le (H.runsKnown v hv c hc) S.coCnt
    pool := fun e' he' c hc v hv => by
      rw [S.threads] at hv
      rw [S.cos]
      exact H.pool e' (hmem e' he') c hc v hv
    held := fun v hv c hc => by
      rw [S.threads] at hv
      rw [S.cos]
      rcases hold v c hc with ⟨rfl, h⟩ | ⟨-, h⟩
      · exact H.pool e he c h v hv ht
      · exact H.held v hv c h
    pairs := by
      rw [S.threads]
      exact hpairs.1
    poolHeld := fun e' he' c hc v hv hv' u hu hu' => by
      rw [S.threads] at hv hu
      rcases hold v c hv' with ⟨rfl, h⟩ | ⟨-, h⟩
      · exact hpairs.2 e' he' c hc h u hu hu'
      · exact H.poolHeld e' (hmem e' he') c hc v hv h u hu hu'
    heldHeld := fun v hv u hu c hc hc' => by
      rw [S.threads] at hv hu
      rcases hold v c hc with ⟨rfl, h⟩ | ⟨-, h⟩ <;> rcases hold u c hc' with ⟨rfl, h'⟩ | ⟨-, h'⟩
      · rfl
      · exact H.poolHeld e he c h u hu h' v hv ht
      · exact (H.poolHeld e he c h' v hv h u hu ht).symm
      · exact H.heldHeld v hv u hu c h h' }

/-- A thread resumes the coroutine that it holds. -/
theorem Owners.resumed (H : s.Owners) (hw : w ∈ s.threads)
    (hheld : (s.workers w).pc.heldCo = some c) (R : Resumed w c s s') : s'.Owners := by
  have hold : ∀ v x, (s'.workers v).pc.heldCo = some x →
      v ≠ w ∧ (s.workers v).pc.heldCo = some x := by
    intro v x hx
    have hvw : v ≠ w := by
      rintro rfl
      rw [R.pc] at hx
      cases hx
    exact ⟨hvw, R.others v hvw ▸ hx⟩
  exact {
    known := fun e he x hx => by
      rw [R.pool] at he
      rw [R.isSystem, R.coCnt]
      exact H.known e he x hx
    heldKnown := fun v hv x hx => by
      rw [R.threads] at hv
      rw [R.isSystem, R.coCnt]
      exact H.heldKnown v hv x (hold v x hx).2
    runsKnown := fun v hv x hx => by
      rw [R.threads] at hv
      rw [R.coCnt]
      by_cases hvw : v = w
      · subst hvw
        rw [R.pc] at hx
        cases hx
        exact (H.heldKnown v hv c hheld).2
      · rw [R.others v hvw] at hx
        exact H.runsKnown v hv x hx
    pool := fun e he x hx v hv => by
      rw [R.pool] at he
      rw [R.threads] at hv
      rw [R.threadId]
      split
      · rename_i hxc
        subst hxc
        exact fun ht _ => H.poolHeld e he x hx w hw hheld v hv ht
      · exact H.pool e he x hx v hv
    held := fun v hv x hx => by
      rw [R.threads] at hv
      obtain ⟨hvw, hx⟩ := hold v x hx
      rw [R.threadId]
      split
      · rename_i hxc
        subst hxc
        exact fun _ => H.heldHeld v hv w hw x hx hheld
      · exact H.held v hv x hx
    pairs := by
      rw [R.pool, R.threads]
      exact H.pairs
    poolHeld := fun e he x hx v hv hv' u hu => by
      rw [R.pool] at he
      rw [R.threads] at hv hu
      exact H.poolHeld e he x hx v hv (hold v x hv').2 u hu
    heldHeld := fun v hv u hu x hx hx' => by
      rw [R.threads] at hv hu
      exact H.heldHeld v hv u hu x (hold v x hx).2 (hold u x hx').2 }

/-! ## Steps -/

structure Orderly (s : Scheduler) : Prop extends Placed s, Owners s

theorem Orderly.stays (H : s.Orderly) (S : Stays s s') (hpool : s'.taskPools = s.taskPools)
    (hheld : ∀ w c, (s'.workers w).pc.heldCo = some c → (s.workers w).pc.heldCo = some c) :
    s'.Orderly where
  toPlaced := H.toPlaced.stays S
  toOwners := H.toOwners.congr S.threads S.isSystem S.coCnt hpool (fun c => by rw [S.cos]) hheld
    fun w c => by rw [S.runs]; exact id

theorem Stays.setPc {pc : Pc} (hr : pc.runs = (s.workers w).pc.runs)
    (hb : ∀ c, pc.cameBack = some c → (s.workers w).pc.cameBack = some c) :
    Stays s (s.setPc w pc) := by
  refine ⟨rfl, rfl, rfl, le_rfl, fun v => ?_, fun v => ?_, fun v c hc => ?_⟩ <;>
    by_cases hv : v = w
  · subst hv
    simp [Scheduler.setPc]
  · simp [Scheduler.setPc, hv]
  · subst hv
    simpa [Scheduler.setPc] using hr
  · simp [Scheduler.setPc, hv]
  · subst hv
    exact hb c (by simpa [Scheduler.setPc] using hc)
  · simpa [Scheduler.setPc, hv] using hc

/-- A thread that takes no coroutine with its next `pc`. -/
theorem Orderly.setPc (H : s.Orderly) {pc : Pc} (hr : pc.runs = (s.workers w).pc.runs)
    (hb : ∀ c, pc.cameBack = some c → (s.workers w).pc.cameBack = some c)
    (hh : ∀ c, pc.heldCo = some c → (s.workers w).pc.heldCo = some c) : (s.setPc w pc).Orderly := by
  refine H.stays (.setPc hr hb) rfl fun v c hc => ?_
  by_cases hv : v = w
  · subst hv
    exact hh c (by simpa [Scheduler.setPc] using hc)
  · simpa [Scheduler.setPc, hv] using hc

/-- A place of the loop at which no coroutine has come back or is held. -/
theorem Orderly.goto (H : s.Orderly) {pc : Pc} (hr : pc.runs = (s.workers w).pc.runs)
    (hb : pc.cameBack = none) (hh : pc.heldCo = none) : (s.setPc w pc).Orderly := by
  refine H.setPc hr (fun c hc => ?_) fun c hc => ?_
  · rw [hb] at hc
    cases hc
  · rw [hh] at hc
    cases hc

@[simp] theorem afterTickle_heldCo (cnt : Nat) (next : Pc) :
    (afterTickle cnt next).heldCo = next.heldCo ∧ (afterTickle cnt next).runs = next.runs ∧
      (afterTickle cnt next).cameBack = next.cameBack := by
  unfold afterTickle
  split <;> exact ⟨rfl, rfl, rfl⟩

theorem Orderly.scheduleWithoutLock (H : s.Orderly) {task : Task} {force : Bool}
    (hown : (s.autoStop → force) → s.Owned task) (hcnt : ∀ c, task.co = some c → c < s.coCnt) :
    (s.scheduleWithoutLock task force).2.Orderly := by
  unfold Scheduler.scheduleWithoutLock
  split
  · exact H
  · rename_i hstop
    split
    · refine ⟨H.toPlaced.stays ⟨rfl, rfl, rfl, le_rfl, fun _ => rfl, fun _ => rfl, fun _ _ => id⟩,
        H.push (hown ?_) hcnt⟩
      simpa using hstop
    · exact H

theorem Orderly.scheduleSection (H : s.Orderly) {force : Bool} {tasks : List Task}
    (hown : s.OwnedAll force tasks) (hcnt : ∀ task ∈ tasks, ∀ c, task.co = some c → c < s.coCnt) :
    (s.scheduleSection force tasks).2.Orderly := by
  induction tasks generalizing s with
  | nil => exact H
  | cons task tasks ih =>
    obtain ⟨h1, h2⟩ := hown
    have hc : (s.scheduleWithoutLock task force).2.coCnt = s.coCnt := by
      unfold Scheduler.scheduleWithoutLock
      split
      · rfl
      · split <;> rfl
    have htasks : ∀ t ∈ tasks, ∀ c, t.co = some c →
        c < (s.scheduleWithoutLock task force).2.coCnt := by
      intro t ht c htc
      rw [hc]
      exact hcnt t (List.mem_cons_of_mem _ ht) c htc
    exact ih (H.scheduleWithoutLock h1 (hcnt task List.mem_cons_self)) h2 htasks

theorem Orderly.schedule (H : s.Orderly) {force : Bool} {tasks : List Task}
    (hown : s.OwnedAll force tasks) (hcnt : ∀ task ∈ tasks, ∀ c, task.co = some c → c < s.coCnt) :
    (s.schedule tasks force).Orderly := by
  have H' := H.scheduleSection hown hcnt
  unfold Scheduler.schedule
  dsimp only
  split
  · exact H'.stays ⟨rfl, rfl, rfl, le_rfl, fun _ => rfl, fun _ => rfl, fun _ _ => id⟩ rfl
      fun _ _ => id
  · exact H'

theorem Orderly.scheduleBy (H : s.Orderly) {task : Task} (hown : s.Owned task)
    (hcnt : ∀ c, task.co = some c → c < s.coCnt) (hr : (s.workers w).pc.runs = none) :
    (s.scheduleBy w task).Orderly := by
  have H' := H.scheduleSection (show s.OwnedAll true [task] from ⟨fun _ => hown, trivial⟩)
    (by simpa using hcnt)
  obtain ⟨new, hs, -⟩ := s.scheduleSection_spec true [task]
  have hw : (s.scheduleSection true [task]).2.workers = s.workers := by rw [hs]
  unfold Scheduler.scheduleBy
  dsimp only
  split <;> refine H'.setPc ?_ ?_ ?_ <;> rw [hw] <;> simp [hr, Pc.runs, Pc.cameBack, Pc.heldCo]

/-- A new coroutine for a callback belongs to nobody yet. -/
theorem Orderly.scheduleCb (H : s.Orderly) (task : Task) (hr : (s.workers w).pc.runs = none) :
    (s.scheduleCb w task).Orderly := by
  have H' : Orderly { s with coCnt := s.coCnt + 1 } := H.stays
    ⟨rfl, rfl, rfl, Nat.le_succ _, fun _ => rfl, fun _ => rfl, fun _ _ => id⟩ rfl fun _ _ => id
  obtain ⟨hsys, hid⟩ := H.fresh s.coCnt le_rfl
  have hth : (s.cos s.coCnt).threadId = 0 := by
    rcases H.co s.coCnt hsys with h | S
    · exact h.2.1
    · have := S.stackId
      omega
  refine H'.scheduleBy (fun c hc => ?_) (fun c hc => ?_) hr
  · cases hc
    refine ⟨hsys, fun v hv _ => ?_⟩
    rw [if_neg (by exact fun h => h hth)]
    refine ⟨fun e he hc => ?_, fun u hu hc => ?_⟩
    · exact absurd (H.known e he _ hc).2 (lt_irrefl _)
    · exact absurd (H.heldKnown u hu _ hc).2 (lt_irrefl _)
  · cases hc
    exact Nat.lt_succ_self _

theorem Orderly.scan (H : s.Orderly) (hw : w ∈ s.threads) (hpc : (s.workers w).pc = .scan) :
    (s.scan w).Orderly := by
  have hpc' : ((s.scan w).workers w).pc.runs = none ∧ ((s.scan w).workers w).pc.cameBack = none ∧
      ((s.scan w).workers w).pc.heldCo =
        ((scanPool w s.taskPools).1.map Entry.task).bind Task.co := by
    simp only [Scheduler.scan, Scheduler.setPc, Function.update_self]
    cases (scanPool w s.taskPools).1 <;> split <;> exact ⟨rfl, rfl, rfl⟩
  have hothers : ∀ v, v ≠ w → (s.scan w).workers v = s.workers v := by
    intro v hv
    simp [Scheduler.scan, Scheduler.setPc, hv]
  have S : Stays s (s.scan w) := by
    refine ⟨rfl, rfl, rfl, le_rfl, fun v => ?_, fun v => ?_, fun v c hc => ?_⟩ <;>
      by_cases hv : v = w
    · subst hv
      simp [Scheduler.scan, Scheduler.setPc]
    · rw [hothers v hv]
    · subst hv
      rw [hpc'.1, hpc]
      rfl
    · rw [hothers v hv]
    · subst hv
      rw [hpc'.2.1] at hc
      cases hc
    · exact hothers v hv ▸ hc
  rcases scanPool_spec w s.taskPools with ⟨h1, h2, -⟩ | ⟨e, l₁, l₂, h1, h2, h3, h4⟩
  · refine H.stays S h2 fun v c hc => ?_
    by_cases hv : v = w
    · subst hv
      rw [hpc'.2.2, h1] at hc
      cases hc
    · exact hothers v hv ▸ hc
  · refine ⟨H.toPlaced.stays S, H.toOwners.take hw S h3 h2 h4 ?_ fun v hv => by rw [hothers v hv]⟩
    rw [hpc'.2.2, h1]
    rfl

/-- A thread that holds a live coroutine switches to it. -/
theorem Orderly.resumeCo (H : s.Orderly) (hw : w ∈ s.threads) {task : Task}
    (hpc : (s.workers w).pc = .dispatch (some task)) (hc : task.co = some c)
    (hlive : (s.thread w).finished c = false) :
    ∃ s', s.resumeCo w c = some s' ∧ Resumed w c s s' := by
  have hheld : (s.workers w).pc.heldCo = some c := by
    rw [hpc]
    exact hc
  obtain ⟨hsys, hcnt⟩ := H.heldKnown w hw c hheld
  exact H.toPlaced.resumeCo hw (by rw [hpc]; rfl) hsys hcnt (H.held w hw c hheld) hlive

theorem Orderly.dispatch (H : s.Orderly) (hw : w ∈ s.threads) {task : Option Task}
    (hpc : (s.workers w).pc = .dispatch task) (h : s.dispatch w task = some s') : s'.Orderly := by
  cases task with
  | none =>
    cases h
    exact H.goto (by rw [hpc]; rfl) rfl rfl
  | some task =>
    simp only [Scheduler.dispatch] at h
    split at h
    · rename_i c hc
      obtain ⟨hc, hlive⟩ := Option.filter_eq_some_iff.mp hc
      obtain ⟨s₁, hs₁, R⟩ := H.resumeCo hw hpc hc (by simpa using hlive)
      rw [hs₁] at h
      cases h
      exact ⟨R.placed, H.toOwners.resumed hw (by rw [hpc]; exact hc) R⟩
    · cases h
      split
      · exact H.scheduleCb task (by rw [hpc]; rfl)
      · exact H.goto (by rw [hpc]; rfl) rfl rfl

theorem Orderly.afterResume (H : s.Orderly) (hw : w ∈ s.threads)
    (hpc : (s.workers w).pc = .resumed c) : (s.afterResume w c).Orderly := by
  unfold Scheduler.afterResume
  split
  · rename_i hready
    -- No coroutine is ever `READY`.
    exfalso
    rcases H.co c (H.cameBack w hw c (by rw [hpc]; rfl)) with ⟨-, -, h⟩ | S
    · rw [hready] at h
      cases h
    · have := S.live
      rw [hready] at this
      simp at this
  · exact H.goto (by rw [hpc]; rfl) rfl rfl

/-- Counters and the tickle pipe do not matter. -/
theorem Orderly.counters (H : s.Orderly) (a i p t : Nat) : Orderly { s with
    activeThreadCnt := a, idleThreadCnt := i, pendingEventCount := p, tickles := t } :=
  H.stays ⟨rfl, rfl, rfl, le_rfl, fun _ => rfl, fun _ => rfl, fun _ _ => id⟩ rfl fun _ _ => id

theorem Orderly.close (H : s.Orderly) (hpc : (s.workers w).pc = .close) : (s.close w).Orderly := by
  have hset : ∀ {t : Scheduler} {pc : Pc}, t.Orderly → t.workers = s.workers → pc.runs = none →
      pc.cameBack = none → pc.heldCo = none → (t.setPc w pc).Orderly := by
    intro t pc Ht ht h1 h2 h3
    refine Ht.goto ?_ h2 h3
    rw [ht, hpc, h1]
    rfl
  have hidle : (s.enterIdle w).Orderly :=
    hset (H.counters s.activeThreadCnt (s.idleThreadCnt + 1) s.pendingEventCount s.tickles) rfl rfl
      rfl rfl
  unfold Scheduler.close
  split
  · split
    · exact hset H rfl rfl rfl rfl
    · exact hidle
  · split
    · exact hset (H.counters (s.activeThreadCnt - 1) s.idleThreadCnt s.pendingEventCount s.tickles)
        rfl rfl rfl rfl
    · split
      · exact hset H rfl rfl rfl rfl
      · exact hidle

theorem Orderly.idle (H : s.Orderly) (hpc : (s.workers w).pc = .idle) : (s.idle w).Orderly := by
  unfold Scheduler.idle
  split
  · refine H.stays ⟨rfl, rfl, rfl, le_rfl, fun v => ?_, fun v => ?_, fun v c hc => ?_⟩ rfl
        fun v c hc => ?_ <;>
      by_cases hv : v = w
    all_goals simp_all [Pc.runs, Pc.cameBack, Pc.heldCo]
  · exact H.goto (by rw [hpc]; rfl) rfl rfl

theorem Orderly.run (H : s.Orderly) (hw : w ∈ s.threads) (h : s.run w = some s') : s'.Orderly := by
  cases hpc : (s.workers w).pc with
  | scan =>
    simp only [Scheduler.run, hpc, Option.some.injEq] at h
    exact h ▸ H.scan hw hpc
  | tickle next =>
    simp only [Scheduler.run, hpc, Option.some.injEq] at h
    subst h
    obtain ⟨h1, h2, h3⟩ := afterTickle_heldCo s.tickleCnt next
    refine H.setPc ?_ (fun c hc => ?_) fun c hc => ?_
    · rw [h2, hpc]
      rfl
    · rw [h3] at hc
      rw [hpc]
      exact hc
    · rw [h1] at hc
      rw [hpc]
      exact hc
  | dispatch task =>
    simp only [Scheduler.run, hpc] at h
    exact H.dispatch hw hpc h
  | resumed co =>
    simp only [Scheduler.run, hpc, Option.some.injEq] at h
    exact h ▸ H.afterResume hw hpc
  | noTask =>
    simp only [Scheduler.run, hpc, Option.some.injEq] at h
    subst h
    unfold Scheduler.noTask
    repeat' split
    all_goals exact H.goto (by rw [hpc]; rfl) rfl rfl
  | close =>
    simp only [Scheduler.run, hpc, Option.some.injEq] at h
    exact h ▸ H.close hpc
  | idle =>
    simp only [Scheduler.run, hpc, Option.some.injEq] at h
    exact h ▸ H.idle hpc
  | wait =>
    simp only [Scheduler.run, hpc, Option.some.injEq] at h
    exact h ▸ H.goto (by rw [hpc]; rfl) rfl rfl
  | drain =>
    simp only [Scheduler.run, hpc, Option.some.injEq] at h
    subst h
    split
    · exact H.counters s.activeThreadCnt s.idleThreadCnt s.pendingEventCount (s.tickles - 1)
    · exact H.goto (by rw [hpc]; rfl) rfl rfl
  | woken =>
    simp only [Scheduler.run, hpc, Option.some.injEq] at h
    subst h
    have H' := H.counters s.activeThreadCnt (s.idleThreadCnt - 1) s.pendingEventCount s.tickles
    exact H'.goto (by rw [show (_ : Worker).pc = _ from hpc]; rfl) rfl rfl
  | signal | running | waiting | exited =>
    simp only [Scheduler.run, hpc] at h
    cases h

theorem Orderly.signal (H : s.Orderly) (h : s.signal v = some s') :
    s'.Orderly ∧ ∀ w, (s.workers w).pc ≠ .waiting → (s'.workers w).pc = (s.workers w).pc := by
  unfold Scheduler.signal at h
  split at h
  · cases h
    exact ⟨H.counters s.activeThreadCnt s.idleThreadCnt s.pendingEventCount (s.tickles + 1),
      fun _ _ => rfl⟩
  · split at h
    · split at h <;> cases h
      rename_i hv
      refine ⟨H.setPc (by rw [hv.2]; rfl) nofun nofun, fun w hw => ?_⟩
      have hwv : w ≠ v := by
        rintro rfl
        exact hw hv.2
      simp [Scheduler.setPc, hwv]
    · cases h
      exact ⟨H, fun _ _ => rfl⟩

theorem Orderly.left (H : s.Orderly) (L : Left w c s s') : s'.Orderly where
  toPlaced := L.placed
  toOwners := by
    have hpc : ∀ v, v ≠ w ∨ (s'.workers v).pc = .resumed c := by
      intro v
      by_cases hv : v = w
      · subst hv
        exact .inr L.pc
      · exact .inl hv
    refine H.toOwners.congr L.threads L.isSystem L.coCnt.ge L.pool L.threadId (fun v x hx => ?_)
      fun v x hx => ?_ <;> rcases hpc v with hv | hv
    · rwa [L.others v hv] at hx
    · rw [hv] at hx
      cases hx
    · rwa [L.others v hv] at hx
    · rw [hv] at hx
      cases hx

theorem Orderly.leaveCo (H : s.Orderly) (hw : w ∈ s.threads) {f : CoThread → Option CoThread}
    (hf : (∀ t, f t = some (t.yield t.cur)) ∨ ∃ except, ∀ t, f t = t.finish except)
    (h : s.leaveCo w f = some s') : s'.Orderly := by
  unfold Scheduler.leaveCo at h
  split at h
  · rename_i co hpc
    have hcnt := H.runsKnown w hw co (by rw [hpc]; rfl)
    obtain ⟨t, ht, rfl⟩ := Option.map_eq_some_iff.mp h
    rcases hf with hf | ⟨except, hf⟩ <;> rw [hf] at ht
    · cases ht
      exact H.left (H.toPlaced.yield hw hpc hcnt)
    · obtain ⟨t', ht', L⟩ := H.toPlaced.finish hw hpc hcnt except
      rw [ht'] at ht
      cases ht
      exact H.left L
  · cases h

/-- The calls of `schedule` and the flags of `stop` do not matter. -/
theorem Orderly.flags (H : s.Orderly) (calls : Nat → Option Call) (autoStop mStopping : Bool)
    (n : Nat) : Orderly { s with calls, autoStop, mStopping, coCnt := s.coCnt + n } :=
  H.stays ⟨rfl, rfl, rfl, Nat.le_add_right .., fun _ => rfl, fun _ => rfl, fun _ _ => id⟩ rfl
    fun _ _ => id

theorem Orderly.step {a : Step} (H : s.Orderly) (hG : s.Owning a) (h : s.step a = some s') :
    s'.Orderly := by
  cases a with
  | schedule tasks force =>
    simp only [Scheduler.step, Option.ite_none_right_eq_some, Option.some.injEq] at h
    exact h.2 ▸ H.schedule hG h.1
  | tickle k =>
    simp only [Scheduler.step] at h
    split at h
    · split at h <;> cases h
      exact H.flags _ s.autoStop s.mStopping 0
    · cases h
  | signal k v =>
    simp only [Scheduler.step] at h
    split at h
    · obtain ⟨t, ht, rfl⟩ := Option.map_eq_some_iff.mp h
      exact (H.signal ht).1.flags _ t.autoStop t.mStopping 0
    · cases h
  | run w =>
    simp only [Scheduler.step, Option.ite_none_right_eq_some] at h
    exact H.run h.1 h.2
  | signalBy w v =>
    simp only [Scheduler.step, Option.ite_none_right_eq_some, signalBy] at h
    obtain ⟨hw, h⟩ := h
    split at h
    · rename_i cnt next hpc
      obtain ⟨t, ht, rfl⟩ := Option.map_eq_some_iff.mp h
      obtain ⟨Ht, hpcs⟩ := H.signal ht
      have hpc' : (t.workers w).pc = .signal (cnt + 1) next := by
        rw [hpcs w (by rw [hpc]; rintro ⟨⟩), hpc]
      obtain ⟨h1, h2, h3⟩ := afterTickle_heldCo cnt next
      refine Ht.setPc ?_ (fun c hc => ?_) fun c hc => ?_
      · rw [h2, hpc']
        rfl
      · rw [h3] at hc
        rw [hpc']
        exact hc
      · rw [h1] at hc
        rw [hpc']
        exact hc
    · cases h
  | wake w tickled =>
    simp only [Scheduler.step, Option.ite_none_right_eq_some, wake, Option.some.injEq] at h
    obtain ⟨hw, ⟨hpc, -⟩, rfl⟩ := h
    cases tickled <;> exact H.goto (by rw [hpc]; rfl) rfl rfl
  | yield w =>
    simp only [Scheduler.step, Option.ite_none_right_eq_some] at h
    exact H.leaveCo h.1 (.inl fun _ => rfl) h.2
  | finish w except =>
    simp only [Scheduler.step, Option.ite_none_right_eq_some] at h
    exact H.leaveCo h.1 (.inr ⟨except, fun _ => rfl⟩) h.2
  | newCoroutine =>
    cases h
    exact H.flags s.calls s.autoStop s.mStopping 1
  | setAutoStop =>
    cases h
    exact H.flags s.calls true s.mStopping 0
  | setStopping =>
    simp only [Scheduler.step, Option.ite_none_right_eq_some, Option.some.injEq] at h
    exact h.2 ▸ H.flags s.calls s.autoStop true 0
  | setPendingEventCount n =>
    cases h
    exact H.counters s.activeThreadCnt s.idleThreadCnt n s.tickles

/-! ## Runs -/

theorem init_cos (isIOManager useCaller : Bool) (n : Nat) (c : CoId) :
    (init isIOManager useCaller n).cos c =
      if useCaller ∧ c = 0 then { state := .EXECING, stackId := 1, threadId := 1, link := some 1, ctx := 0 }
      else if useCaller ∧ c = 1 then { state := .YIELD, ctx := 1 }
      else { state := if 0 < c ∧ c ≤ n then .EXECING else .INIT, ctx := c } := by
  cases useCaller with
  | false => simp [init, enterRun]
  | true =>
    simp only [init, if_true, setThread, CoThread.start, CoThread.newStack, CoThread.swapcontext,
      CoThread.setState, CoThread.setStack, CoThread.modify_cos, CoThread.modify_toTls]
    simp only [thread, enterRun]
    grind

theorem init_worker (isIOManager useCaller : Bool) (n : Nat) (w : ThreadId) :
    ((init isIOManager useCaller n).workers w).pc = .scan ∧
      ((init isIOManager useCaller n).workers w).tls.main = w ∧
      ((init isIOManager useCaller n).workers w).tls.cur = (if useCaller ∧ w = 1 then 0 else w) ∧
      ((init isIOManager useCaller n).workers w).tls.running =
        (if useCaller ∧ w = 1 then 0 else w) ∧
      ((init isIOManager useCaller n).workers w).tls.caller =
        if useCaller ∧ w = 1 then some 0 else none := by
  cases useCaller with
  | false => simp [init, enterRun]
  | true =>
    by_cases hw : w = 1
    · subst hw
      exact ⟨rfl, rfl, rfl, rfl, rfl⟩
    · simp [init, setThread, enterRun, hw]

theorem init_rest (isIOManager useCaller : Bool) (n : Nat) :
    (init isIOManager useCaller n).threads = Finset.Icc 1 n ∧
      (init isIOManager useCaller n).taskPools = [] ∧
      (init isIOManager useCaller n).coCnt = n + 1 ∧
      (init isIOManager useCaller n).lastStackId = if useCaller then 1 else 0 := by
  cases useCaller <;> exact ⟨rfl, rfl, rfl, rfl⟩

theorem mem_init_threads {isIOManager useCaller : Bool} {n : Nat} (w : ThreadId) :
    w ∈ (init isIOManager useCaller n).threads ↔ 1 ≤ w ∧ w ≤ n := by
  rw [(init_rest ..).1, Finset.mem_Icc]

theorem init_loopCo (isIOManager useCaller : Bool) (n : Nat) (w : ThreadId) :
    (init isIOManager useCaller n).loopCo w = if useCaller ∧ w = 1 then 0 else w := by
  obtain ⟨-, h2, -, -, h5⟩ := init_worker isIOManager useCaller n w
  unfold loopCo
  rw [h2, h5]
  split <;> rfl

theorem init_isSystem (isIOManager useCaller : Bool) {n : Nat} (hn : 0 < n) (c : CoId) :
    (init isIOManager useCaller n).IsSystem c ↔ 1 ≤ c ∧ c ≤ n ∨ useCaller ∧ c = 0 := by
  have hworker := init_worker isIOManager useCaller n
  unfold IsSystem
  constructor
  · rintro ⟨w, hw, h⟩
    obtain ⟨-, h2, -, -, h5⟩ := hworker w
    rw [h2, h5] at h
    rw [mem_init_threads] at hw
    grind
  · rintro (h | ⟨h1, h2⟩)
    · exact ⟨c, (mem_init_threads c).mpr h, .inl (hworker c).2.1.symm⟩
    · refine ⟨1, (mem_init_threads 1).mpr ⟨le_rfl, hn⟩, .inr ?_⟩
      rw [(hworker 1).2.2.2.2, h2]
      simp [h1]

/-- A coroutine that is not a thread's has not been resumed. -/
theorem init_new (isIOManager useCaller : Bool) {n : Nat} (hn : 0 < n)
    (hc : ¬(init isIOManager useCaller n).IsSystem c) :
    ((init isIOManager useCaller n).cos c).stackId = 0 ∧
      ((init isIOManager useCaller n).cos c).threadId = 0 ∧
      ((init isIOManager useCaller n).cos c).state = .INIT := by
  rw [init_isSystem _ _ hn] at hc
  rw [init_cos]
  grind

theorem init_placed (isIOManager useCaller : Bool) {n : Nat} (hn : 0 < n) :
    (init isIOManager useCaller n).Placed where
  zero h := absurd ((mem_init_threads 0).mp h).1 (by decide)
  apart v hv w hw hne := by
    rw [mem_init_threads] at hv hw
    rw [init_loopCo, init_loopCo, (init_worker ..).2.1]
    grind
  main w hw := by
    rw [init_loopCo, (init_worker ..).2.1, init_cos]
    grind
  loop w hw := by
    rw [init_loopCo, init_cos]
    grind
  cur w _ := by
    obtain ⟨-, -, h3, h4, -⟩ := init_worker isIOManager useCaller n w
    rw [h3, h4]
  mode w hw := by
    obtain ⟨h1, -, -, h4, -⟩ := init_worker isIOManager useCaller n w
    rw [mem_init_threads] at hw
    rw [h1]
    refine ⟨?_, ?_⟩
    · rw [init_loopCo, h4]
    · rw [init_loopCo, init_cos]
      grind
  ctx c _ := by
    rw [init_cos]
    grind
  co c hc := .inl (init_new isIOManager useCaller hn hc)
  ids c := by
    rw [init_cos, (init_rest ..).2.2.2]
    grind
  inj c d hc _ h0 _ := by
    rw [(init_new isIOManager useCaller hn hc).1] at h0
    cases h0
  fresh c hc := by
    rw [(init_rest ..).2.2.1] at hc
    have hsys : ¬(init isIOManager useCaller n).IsSystem c := by
      rw [init_isSystem _ _ hn]
      grind
    exact ⟨hsys, (init_new isIOManager useCaller hn hsys).1⟩
  cameBack w _ c hc := by
    rw [(init_worker ..).1] at hc
    cases hc

/-- The pool is empty and no thread holds a coroutine. -/
theorem init_owners (isIOManager useCaller : Bool) (n : Nat) :
    (init isIOManager useCaller n).Owners := by
  have hpool : (init isIOManager useCaller n).taskPools = [] := (init_rest ..).2.1
  have hheld : ∀ w c, ((init isIOManager useCaller n).workers w).pc.heldCo ≠ some c := by
    intro w c
    rw [(init_worker ..).1]
    nofun
  exact {
    known := by
      rw [hpool]
      nofun
    heldKnown := fun w _ c hc => absurd hc (hheld w c)
    runsKnown := fun w _ c hc => by
      rw [(init_worker ..).1] at hc
      cases hc
    pool := by
      rw [hpool]
      nofun
    held := fun w _ c hc => absurd hc (hheld w c)
    pairs := by
      rw [hpool]
      exact .nil
    poolHeld := by
      rw [hpool]
      nofun
    heldHeld := fun v _ w _ c hc => absurd hc (hheld v c) }

theorem init_orderly (isIOManager useCaller : Bool) {n : Nat} (hn : 0 < n) :
    (init isIOManager useCaller n).Orderly where
  toPlaced := init_placed isIOManager useCaller hn
  toOwners := init_owners isIOManager useCaller n

theorem init_tickets (isIOManager useCaller : Bool) (n : Nat) :
    (init isIOManager useCaller n).Tickets := by
  cases useCaller <;> exact ⟨List.nodup_nil, nofun⟩

/-- No accepted task is lost: it is dequeued at most once, a coroutine that has recorded a thread is
taken by that thread only, and a thread that has taken a live coroutine switches to it. -/
structure NoneLost (s : Scheduler) : Prop where
  once : s.dequeued.Nodup ∧ ∀ e ∈ s.taskPools, e.ticket ∉ s.dequeued
  recorded : ∀ w ∈ s.threads, ∀ e c, (scanPool w s.taskPools).1 = some e → e.task.co = some c →
    (s.cos c).threadId ≠ 0 → (s.cos c).threadId = w
  switches : ∀ w ∈ s.threads, ∀ task c, (s.workers w).pc = .dispatch (some task) →
    task.co = some c → (s.thread w).finished c = false →
    ∃ s', s.step (.run w) = some s' ∧ (s'.workers w).tls.running = c ∧
      (s'.cos c).state = .EXECING ∧ (s'.cos c).threadId = w

/-- **No accepted task is lost**, with any number of threads and in any interleaving, when the tasks
are owned. -/
theorem no_task_lost {isIOManager useCaller : Bool} {n : Nat} (hn : 0 < n)
    (h : Reach step Owning (init isIOManager useCaller n) s) : s.NoneLost := by
  have H : s.Orderly := h.inv (init_orderly isIOManager useCaller hn) Orderly.step
  have T : s.Tickets := h.inv (init_tickets isIOManager useCaller n) fun T _ hs => T.step hs
  obtain ⟨hd, -, hdisj⟩ := List.nodup_append'.mp T.nodup
  refine ⟨⟨hd, fun e he hmem => hdisj hmem (List.mem_map_of_mem he)⟩, fun w hw e c hs hc h0 => ?_,
    fun w hw task c hpc hc hlive => ?_⟩
  · rcases scanPool_spec w s.taskPools with ⟨h1, -⟩ | ⟨e', l₁, l₂, h1, -, h3, h4⟩
    · rw [h1] at hs
      cases hs
    · rw [h1] at hs
      cases hs
      exact (H.pool e (by simp [h3]) c hc w hw h4 h0).symm
  · obtain ⟨s', hs', R⟩ := H.resumeCo hw hpc hc hlive
    refine ⟨s', ?_, R.running, R.state, (R.threadId c).trans (if_pos rfl)⟩
    have hf : task.co.filter (fun co => !(s.thread w).finished co) = some c := by
      rw [hc, Option.filter_some, hlive]
      rfl
    simp only [Scheduler.step, if_pos hw, Scheduler.run, hpc, Scheduler.dispatch, hf, hs']

instance (s : Scheduler) (c : CoId) : Decidable (s.IsSystem c) :=
  inferInstanceAs (Decidable (∃ w ∈ _, _))

instance (s : Scheduler) (task : Task) : Decidable (s.Owned task) := by
  unfold Owned
  infer_instance

instance OwnedAll.decidable (force : Bool) :
    ∀ (tasks : List Task) (s : Scheduler), Decidable (s.OwnedAll force tasks)
  | [], _ => inferInstanceAs (Decidable True)
  | task :: tasks, s =>
    have := OwnedAll.decidable force tasks (s.scheduleWithoutLock task force).2
    inferInstanceAs (Decidable (_ ∧ _))

instance (s : Scheduler) : ∀ a, Decidable (s.Owning a)
  | .schedule tasks force => OwnedAll.decidable force tasks s
  | .tickle _ | .signal _ _ | .run _ | .signalBy _ _ | .wake _ _ | .yield _ | .finish _ _
  | .newCoroutine | .setAutoStop | .setStopping | .setPendingEventCount _ => .isTrue trivial

/-- A coroutine yields and is scheduled again for its thread, which takes it a second time. -/
theorem no_task_lost_again : ∃ s, (Reach step Owning (init false true 2) s ∧
    s.dequeued = [0, 1]) ∧ s.NoneLost := by
  obtain ⟨s, h, hp⟩ := Reach.of_any step Owning (init false true 2)
    [.newCoroutine, .schedule [{ co := some 3 }] false, .run 1, .run 1, .yield 1, .run 1,
      .schedule [{ co := some 3, threadId := 1 }] false, .run 2, .run 1]
    (fun s => s.dequeued = [0, 1]) (by decide)
  exact ⟨s, ⟨h, by simpa using hp⟩, no_task_lost (by decide) h⟩

/-- A coroutine yields and is scheduled again with `threadId` 0: the other thread takes it and drops
it. -/
theorem other_thread_drops_coroutine :
    ¬∀ s, Reach step Always (init false false 2) s → s.NoneLost := by
  intro hno
  have h := Reach.of_foldlM step Always (init false false 2)
    [.newCoroutine, .schedule [{ co := some 3 }] false, .run 1, .run 1, .yield 1,
      .schedule [{ co := some 3 }] false, .run 2] rfl
  obtain ⟨s', hs', hr, -⟩ := (hno _ h).switches 2 (by decide) { co := some 3 } 3 rfl rfl rfl
  cases hs'
  exact absurd hr (by decide)

end Tigerkin.Scheduler
