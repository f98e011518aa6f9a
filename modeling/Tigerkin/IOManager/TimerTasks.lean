import Tigerkin.Scheduler.Task
import Tigerkin.Timer.Delivery

/-! # Timer callbacks on their way to the task pool

A thread in `IOManager::idle` takes the callbacks of expired timers out of the timer set, and then
hands them to the pool in a section of `scheduleIterator`. A thread in `run` makes a coroutine for a
callback, and the callback of a sleeping coroutine calls `schedule` for it. Both calls leave `force`
false, and `stop()` sets `m_autoStop` under no lock, so it can come between any two steps: what the
pool then refuses is lost (`sleeper_lost`). A history records what was taken from one-shot timers and
what was put into the pool. -/

namespace Tigerkin

namespace TimerTasks

/-- A callback in the vector `cbs` of `idle`, and whether it comes from a one-shot timer. -/
structure Expired where
  cb : Option CbId
  oneShot : Bool
  deriving DecidableEq

inductive Pc where
  /-- In `run`, or in any other code. -/
  | run
  /-- In `run`, after the section that takes a task. -/
  | dispatch (task : Task)
  /-- In a coroutine that `run` has made for the callback. -/
  | callback (cb : CbId)
  /-- In `idle`, before `scheduleIterator`. -/
  | expired (cbs : List Expired)
  /-- In the section of `scheduleIterator`, with the tasks that are left. -/
  | iterate (cbs : List Expired)
  deriving DecidableEq

end TimerTasks

open TimerTasks

structure TimerTasks where
  timers : TimerManager CbId := {}
  autoStop : Bool := false
  /-- The thread in the section of `scheduleIterator`. -/
  mutex : Option ThreadId := none
  taskPools : List Task := []
  pc : ThreadId → Pc := fun _ => .run
  /-- The callbacks of the coroutines that `run` has made and that have not started. -/
  body : CoId → Option CbId := fun _ => none
  coCnt : Nat := 0
  /-- The callbacks that a thread took from one-shot timers, and those of them that it put into the
  pool. -/
  removed : ThreadId → List CbId := fun _ => []
  appended : ThreadId → List CbId := fun _ => []
  /-- The tasks for which the callbacks of sleeping coroutines called `schedule`, and those of them
  that are or were in the pool. -/
  called : List Task := []
  woken : List Task := []

namespace TimerTasks

def setPc (s : TimerTasks) (w : ThreadId) (pc : Pc) : TimerTasks :=
  { s with pc := Function.update s.pc w pc }

/-- Whether `scheduleWithoutLock` puts a task into the pool. -/
def accepts (s : TimerTasks) (task : Task) (force : Bool) : Bool :=
  !(s.autoStop && !force) && (task.cb.isSome || task.co.isSome)

def scheduleWithoutLock (s : TimerTasks) (task : Task) (force : Bool) : TimerTasks :=
  if s.autoStop && !force then s
  else if task.cb.isSome || task.co.isSome then { s with taskPools := s.taskPools ++ [task] }
  else s

/-- `run` takes a task. -/
def take (s : TimerTasks) (w : ThreadId) : Option TimerTasks :=
  let takes := fun task : Task => task.threadId = 0 || task.threadId = w
  (s.taskPools.find? takes).map fun task =>
    { s with taskPools := s.taskPools.eraseP takes }.setPc w (.dispatch task)

/-- `run` resumes the coroutine of a task, or makes one for its callback. -/
def dispatch (s : TimerTasks) (w : ThreadId) (task : Task) : TimerTasks :=
  match task.co, task.cb with
  | some co, _ =>
    match s.body co with
    | some cb => { s with body := Function.update s.body co none }.setPc w (.callback cb)
    | none => s.setPc w .run
  | none, some cb =>
    let s := { s with body := Function.update s.body s.coCnt (some cb), coCnt := s.coCnt + 1 }
    (s.scheduleWithoutLock { co := some (s.coCnt - 1), threadId := task.threadId } true).setPc w .run
  | none, none => s.setPc w .run

/-- `[co, iom, threadId]() { iom->schedule(co, threadId); }` -/
def wake (s : TimerTasks) (co : CoId) (threadId : ThreadId) : TimerTasks :=
  let task : Task := { co := some co, threadId }
  { s.scheduleWithoutLock task false with
    called := s.called ++ [task]
    woken := if s.accepts task false then s.woken ++ [task] else s.woken }

/-- The callbacks of the one-shot timers that `listExpiredCbs` removes. -/
def oneShotCbs (m : TimerManager CbId) (now : UInt64) (probe : Addr) : List CbId :=
  (m.delivered now probe).filterMap fun a => if (m.heap a).recurring then none else (m.heap a).cb

/-- `listExpiredCbs(cbs)` in `idle`, where `cbs` is empty. -/
def listExpiredCbs (s : TimerTasks) (w : ThreadId) (now : UInt64) (probe : Addr) : TimerTasks :=
  let (timers, cbs) := s.timers.listExpiredCbs [] now probe
  let oneShot := (s.timers.delivered now probe).map fun a => !(s.timers.heap a).recurring
  { s with
    timers
    removed := Function.update s.removed w (s.removed w ++ oneShotCbs s.timers now probe)
    }.setPc w (.expired (cbs.zipWith Expired.mk oneShot))

/-- One task of `scheduleIterator`. -/
def scheduleOne (s : TimerTasks) (w : ThreadId) (x : Expired) (cbs : List Expired) : TimerTasks :=
  let task : Task := { cb := x.cb }
  let appended := if x.oneShot && s.accepts task false then s.appended w ++ x.cb.toList
    else s.appended w
  { s.scheduleWithoutLock task false with
    appended := Function.update s.appended w appended }.setPc w (.iterate cbs)

inductive Step where
  /-- A call of the timer manager by any thread: `addTimer` and all others but `listExpiredCbs`. -/
  | timer (op : TimerManager.Op CbId)
  | stop
  /-- Any other call of `schedule`. -/
  | schedule (task : Task) (force : Bool)
  | take (w : ThreadId)
  | dispatch (w : ThreadId)
  | callback (w : ThreadId)
  | listExpiredCbs (w : ThreadId) (now : UInt64) (probe : Addr)
  /-- `scheduleIterator` takes `m_mutex`. -/
  | lock (w : ThreadId)
  | scheduleOne (w : ThreadId)
  | unlock (w : ThreadId)

variable (wakes : CbId → Option (CoId × ThreadId))

/-- One step; `wakes` tells which callbacks belong to sleeping coroutines. -/
def step (s : TimerTasks) : Step → Option TimerTasks
  | .timer op =>
    match op with
    | .listExpiredCbs .. => none
    | op => (s.timers.step op).map fun timers => { s with timers }
  | .stop => some { s with autoStop := true }
  | .schedule task force =>
    if s.mutex = none then some (s.scheduleWithoutLock task force) else none
  | .take w => if s.pc w = .run ∧ s.mutex = none then s.take w else none
  | .dispatch w =>
    match s.pc w with
    | .dispatch task => if s.mutex = none then some (s.dispatch w task) else none
    | _ => none
  | .callback w =>
    match s.pc w with
    | .callback cb =>
      match wakes cb with
      | some (co, threadId) =>
        if s.mutex = none then some ((s.wake co threadId).setPc w .run) else none
      | none => some (s.setPc w .run)
    | _ => none
  | .listExpiredCbs w now probe =>
    if s.pc w = .run then some (s.listExpiredCbs w now probe) else none
  | .lock w =>
    match s.pc w with
    | .expired cbs =>
      if s.mutex = none then some ({ s with mutex := some w }.setPc w (.iterate cbs)) else none
    | _ => none
  | .scheduleOne w =>
    match s.pc w with
    | .iterate (x :: cbs) => some (s.scheduleOne w x cbs)
    | _ => none
  | .unlock w =>
    match s.pc w with
    | .iterate [] => some ({ s with mutex := none }.setPc w .run)
    | _ => none

/-! ## What is lost -/

/-- The callbacks that a thread in `idle` has still to hand over. -/
def Pc.cbs : Pc → List Expired
  | .expired cbs | .iterate cbs => cbs
  | _ => []

def oneShots (cbs : List Expired) : List CbId :=
  cbs.filterMap fun x => if x.oneShot then x.cb else none

/-- Nothing is lost: a thread put the callbacks of one-shot timers into the pool but for those that
it still has, and every coroutine that was to be woken got there too. -/
structure Handed (s : TimerTasks) : Prop where
  cbs : ∀ w, s.removed w = s.appended w ++ oneShots (s.pc w).cbs
  wakes : s.woken = s.called

/-- `m_autoStop` is false when the callback of a one-shot timer is handed over, and when a callback
wakes a coroutine. -/
def Accepts (s : TimerTasks) : Step → Prop
  | .scheduleOne w =>
    ∀ x ∈ (s.pc w).cbs.head?, x.oneShot = true → x.cb.isSome = true → s.autoStop = false
  | .callback w =>
    match s.pc w with
    | .callback cb => (wakes cb).isSome = true → s.autoStop = false
    | _ => True
  | _ => True

instance (s : TimerTasks) (a : Step) : Decidable (s.Accepts wakes a) := by
  unfold Accepts
  split
  · infer_instance
  · split <;> infer_instance
  · infer_instance

/-- The step puts into the pool what it is to put there. -/
def Puts (s : TimerTasks) (s' : TimerTasks) : Step → Prop
  | .scheduleOne w => ∀ x ∈ (s.pc w).cbs.head?, x.oneShot = true → ∀ cb ∈ x.cb,
    s'.taskPools = s.taskPools ++ [{ cb := some cb }]
  | .callback w =>
    match s.pc w with
    | .callback cb => ∀ x ∈ wakes cb,
      s'.taskPools = s.taskPools ++ [{ co := some x.1, threadId := x.2 }]
    | _ => True
  | _ => True

variable {wakes : CbId → Option (CoId × ThreadId)} {s s' : TimerTasks} {w : ThreadId}

/-! ## One step -/

theorem scheduleWithoutLock_eq (s : TimerTasks) (task : Task) (force : Bool) :
    s.scheduleWithoutLock task force =
      { s with taskPools := if s.accepts task force then s.taskPools ++ [task] else s.taskPools } := by
  unfold scheduleWithoutLock accepts
  cases s.autoStop && !force with
  | true => rfl
  | false =>
    cases task.cb.isSome || task.co.isSome with
    | true => rfl
    | false => rfl

/-- A step that takes nothing from the timers and wakes nobody. -/
theorem handed_frame (H : s.Handed) (hr : s'.removed = s.removed) (ha : s'.appended = s.appended)
    (hpc : ∀ w, (s'.pc w).cbs = (s.pc w).cbs) (hc : s'.called = s.called)
    (hw : s'.woken = s.woken) : s'.Handed where
  cbs w := by
    rw [hr, ha, hpc]
    exact H.cbs w
  wakes := by
    rw [hw, hc]
    exact H.wakes

@[simp] theorem setPc_self (s : TimerTasks) (w : ThreadId) (pc : Pc) : (s.setPc w pc).pc w = pc :=
  Function.update_self ..

theorem setPc_of_ne (s : TimerTasks) (pc : Pc) (h : v ≠ w) : (s.setPc w pc).pc v = s.pc v :=
  Function.update_of_ne h ..

theorem setPc_cbs (s : TimerTasks) {pc : Pc} (h : pc.cbs = (s.pc w).cbs) (v : ThreadId) :
    ((s.setPc w pc).pc v).cbs = (s.pc v).cbs := by
  by_cases hv : v = w
  · subst hv
    rw [setPc_self, h]
  · rw [setPc_of_ne s pc hv]

theorem oneShots_cons (x : Expired) (cbs : List Expired) : oneShots (x :: cbs) =
    (if x.oneShot then x.cb.toList else []) ++ oneShots cbs := by
  obtain ⟨cb, oneShot⟩ := x
  cases oneShot with
  | false => rfl
  | true => cases cb <;> rfl

/-- What `listExpiredCbs` returns is what it removes, with the recurring timers' callbacks between. -/
theorem oneShots_listExpiredCbs (H : s.timers.Inv) (now : UInt64) (probe : Addr) :
    oneShots (((s.timers.listExpiredCbs [] now probe).2).zipWith Expired.mk
      ((s.timers.delivered now probe).map fun a => !(s.timers.heap a).recurring)) =
      oneShotCbs s.timers now probe := by
  have hdel : s.timers.delivered now probe = s.timers.expired now := by
    rw [TimerManager.delivered, H.splitExpired_eq]
  rw [(H.listExpiredCbs_spec [] now probe).2.1, oneShotCbs, hdel, List.nil_append]
  unfold oneShots
  rw [List.zipWith_map, List.zipWith_self, List.filterMap_map]
  apply List.filterMap_congr
  intro a _
  by_cases hr : (s.timers.heap a).recurring = true
  · simp [hr]
  · simp [hr]

theorem handed_listExpiredCbs (H : s.Handed) (Ht : s.timers.Inv) (hpc : s.pc w = .run)
    (now : UInt64) (probe : Addr) : (s.listExpiredCbs w now probe).Handed where
  cbs v := by
    have h := H.cbs v
    unfold listExpiredCbs setPc
    by_cases hv : v = w
    · subst hv
      rw [hpc] at h
      dsimp only
      rw [Function.update_self, Function.update_self, h, Pc.cbs, oneShots_listExpiredCbs Ht]
      exact congrArg (· ++ _) (List.append_nil _)
    · dsimp only
      rw [Function.update_of_ne hv, Function.update_of_ne hv, h]
  wakes := H.wakes

theorem accepts_cb (s : TimerTasks) {x : Expired} (h : x.cb.isSome = true) :
    s.accepts { cb := x.cb } false = !s.autoStop := by
  simp [accepts, h]

/-- The callback of a one-shot timer is handed over, or a callback that is not missed. -/
theorem handed_scheduleOne (H : s.Handed) {x : Expired} {cbs : List Expired}
    (hpc : s.pc w = .iterate (x :: cbs)) : (s.scheduleOne w x cbs).Handed ↔
      (x.oneShot = true → x.cb.isSome = true → s.autoStop = false) := by
  have hw : s.removed w =
      s.appended w ++ ((if x.oneShot then x.cb.toList else []) ++ oneShots cbs) := by
    rw [H.cbs w, hpc, Pc.cbs, oneShots_cons]
  have happ : (s.scheduleOne w x cbs).appended w = s.appended w ++
      (if x.oneShot && s.accepts { cb := x.cb } false then x.cb.toList else []) := by
    simp only [scheduleOne, setPc, Function.update_self]
    split
    · rfl
    · rw [List.append_nil]
  have hrem : (s.scheduleOne w x cbs).removed = s.removed := by
    simp only [scheduleOne, setPc, scheduleWithoutLock_eq]
  constructor
  · intro h hone hcb
    have hw' := h.cbs w
    rw [hrem, hw, happ, scheduleOne, setPc_self, Pc.cbs, List.append_assoc] at hw'
    have hlen := congrArg List.length (List.append_cancel_left hw')
    obtain ⟨cb, hsome⟩ := Option.isSome_iff_exists.mp hcb
    rw [accepts_cb s hcb] at hlen
    cases hstop : s.autoStop with
    | false => rfl
    | true => simp [hone, hsome, hstop] at hlen
  · intro h
    refine ⟨fun v => ?_, ?_⟩
    · by_cases hv : v = w
      · subst hv
        rw [hrem, hw, happ, scheduleOne, setPc_self, Pc.cbs, List.append_assoc]
        cases hone : x.oneShot with
        | false => rfl
        | true =>
          cases hcb : x.cb with
          | none => simp
          | some cb =>
            have hsome : x.cb.isSome = true := by simp [hcb]
            rw [← hcb, accepts_cb s hsome, h hone hsome]
            rfl
      · have happ' : (s.scheduleOne w x cbs).appended v = s.appended v :=
          Function.update_of_ne hv ..
        rw [hrem, happ', scheduleOne, setPc_of_ne _ _ hv]
        simp only [scheduleWithoutLock_eq]
        exact H.cbs v
    · simp only [scheduleOne, setPc, scheduleWithoutLock_eq]
      exact H.wakes

theorem handed_wake (H : s.Handed) (co : CoId) (threadId : ThreadId) :
    (s.wake co threadId).Handed ↔ s.autoStop = false := by
  have hacc : s.accepts { co := some co, threadId } false = !s.autoStop := by
    simp [accepts]
  constructor
  · intro h
    have hlen := congrArg List.length h.wakes
    simp only [wake, hacc] at hlen
    cases hstop : s.autoStop with
    | false => rfl
    | true => simp [hstop, H.wakes] at hlen
  · intro hstop
    refine ⟨fun w => ?_, ?_⟩
    · simp only [wake, scheduleWithoutLock_eq]
      exact H.cbs w
    · simp [wake, hacc, hstop, H.wakes]

/-- `run` between two tasks. -/
theorem handed_dispatch (H : s.Handed) {task : Task} (hpc : s.pc w = .dispatch task) :
    (s.dispatch w task).Handed := by
  have hnil : ∀ pc : Pc, pc.cbs = [] → pc.cbs = (s.pc w).cbs := by
    intro pc h
    rw [hpc, h]
    rfl
  unfold dispatch
  split
  · split
    · exact handed_frame H rfl rfl (setPc_cbs s (hnil (.callback _) rfl)) rfl rfl
    · exact handed_frame H rfl rfl (setPc_cbs s (hnil .run rfl)) rfl rfl
  · dsimp only
    rw [scheduleWithoutLock_eq]
    exact handed_frame H rfl rfl (setPc_cbs s (hnil .run rfl)) rfl rfl
  · exact handed_frame H rfl rfl (setPc_cbs s (hnil .run rfl)) rfl rfl

/-! ## The steps of a thread -/

theorem timer_step {op : TimerManager.Op CbId} (h : s.step wakes (.timer op) = some s') :
    ∃ timers, s.timers.step op = some timers ∧ s' = { s with timers } := by
  dsimp only [step] at h
  split at h
  · cases h
  · obtain ⟨timers, hs, rfl⟩ := Option.map_eq_some_iff.mp h
    exact ⟨timers, hs, rfl⟩

theorem dispatch_step (h : s.step wakes (.dispatch w) = some s') :
    ∃ task, s.pc w = .dispatch task ∧ s' = s.dispatch w task := by
  dsimp only [step] at h
  split at h
  · obtain ⟨-, h⟩ := Option.ite_none_right_eq_some.mp h
    cases h
    exact ⟨_, ‹_›, rfl⟩
  · cases h

theorem callback_step (h : s.step wakes (.callback w) = some s') :
    ∃ cb, s.pc w = .callback cb ∧ (wakes cb = none ∧ s' = s.setPc w .run ∨
      ∃ co threadId, wakes cb = some (co, threadId) ∧
        s' = (s.wake co threadId).setPc w .run) := by
  dsimp only [step] at h
  split at h
  · refine ⟨_, ‹_›, ?_⟩
    split at h
    · obtain ⟨-, h⟩ := Option.ite_none_right_eq_some.mp h
      cases h
      exact .inr ⟨_, _, ‹_›, rfl⟩
    · cases h
      exact .inl ⟨‹_›, rfl⟩
  · cases h

theorem lock_step (h : s.step wakes (.lock w) = some s') :
    ∃ cbs, s.pc w = .expired cbs ∧ s' = { s with mutex := some w }.setPc w (.iterate cbs) := by
  dsimp only [step] at h
  split at h
  · obtain ⟨-, h⟩ := Option.ite_none_right_eq_some.mp h
    cases h
    exact ⟨_, ‹_›, rfl⟩
  · cases h

theorem scheduleOne_step (h : s.step wakes (.scheduleOne w) = some s') :
    ∃ x cbs, s.pc w = .iterate (x :: cbs) ∧ s' = s.scheduleOne w x cbs := by
  dsimp only [step] at h
  split at h
  · cases h
    exact ⟨_, _, ‹_›, rfl⟩
  · cases h

theorem unlock_step (h : s.step wakes (.unlock w) = some s') :
    s.pc w = .iterate [] ∧ s' = { s with mutex := none }.setPc w .run := by
  dsimp only [step] at h
  split at h
  · cases h
    exact ⟨‹_›, rfl⟩
  · cases h

theorem dispatch_timers (s : TimerTasks) (w : ThreadId) (task : Task) :
    (s.dispatch w task).timers = s.timers := by
  unfold dispatch
  split
  · split
    · rfl
    · rfl
  · dsimp only
    rw [scheduleWithoutLock_eq]
    rfl
  · rfl

theorem step_timers {a : Step} (Ht : s.timers.Inv) (h : s.step wakes a = some s') :
    s'.timers.Inv := by
  cases a with
  | timer op =>
    obtain ⟨timers, hs, rfl⟩ := timer_step h
    exact Ht.step hs
  | stop =>
    cases h
    exact Ht
  | schedule task force =>
    obtain ⟨-, h⟩ := Option.ite_none_right_eq_some.mp h
    cases h
    rw [scheduleWithoutLock_eq]
    exact Ht
  | take w =>
    obtain ⟨-, h⟩ := Option.ite_none_right_eq_some.mp h
    obtain ⟨task, -, rfl⟩ := Option.map_eq_some_iff.mp h
    exact Ht
  | dispatch w =>
    obtain ⟨task, -, rfl⟩ := dispatch_step h
    rw [dispatch_timers]
    exact Ht
  | callback w =>
    obtain ⟨cb, -, ⟨-, rfl⟩ | ⟨co, threadId, -, rfl⟩⟩ := callback_step h
    · exact Ht
    · simp only [wake, setPc, scheduleWithoutLock_eq]
      exact Ht
  | listExpiredCbs w now probe =>
    obtain ⟨-, h⟩ := Option.ite_none_right_eq_some.mp h
    cases h
    exact (Ht.listExpiredCbs_spec [] now probe).1
  | lock w =>
    obtain ⟨cbs, -, rfl⟩ := lock_step h
    exact Ht
  | scheduleOne w =>
    obtain ⟨x, cbs, -, rfl⟩ := scheduleOne_step h
    simp only [scheduleOne, setPc, scheduleWithoutLock_eq]
    exact Ht
  | unlock w =>
    obtain ⟨-, rfl⟩ := unlock_step h
    exact Ht

/-- A step leaves a history without a gap exactly under the condition. -/
theorem step_handed {a : Step} (H : s.Handed) (Ht : s.timers.Inv) (h : s.step wakes a = some s') :
    s'.Handed ↔ s.Accepts wakes a := by
  cases a with
  | timer op =>
    obtain ⟨timers, -, rfl⟩ := timer_step h
    exact iff_of_true (handed_frame H rfl rfl (fun _ => rfl) rfl rfl) trivial
  | stop =>
    cases h
    exact iff_of_true (handed_frame H rfl rfl (fun _ => rfl) rfl rfl) trivial
  | schedule task force =>
    obtain ⟨-, h⟩ := Option.ite_none_right_eq_some.mp h
    cases h
    rw [scheduleWithoutLock_eq]
    exact iff_of_true (handed_frame H rfl rfl (fun _ => rfl) rfl rfl) trivial
  | take w =>
    obtain ⟨⟨hpc, -⟩, h⟩ := Option.ite_none_right_eq_some.mp h
    obtain ⟨task, -, rfl⟩ := Option.map_eq_some_iff.mp h
    have hcbs : (Pc.dispatch task).cbs = (s.pc w).cbs := by
      rw [hpc]
      rfl
    exact iff_of_true (handed_frame H rfl rfl (setPc_cbs s hcbs) rfl rfl) trivial
  | dispatch w =>
    obtain ⟨task, hpc, rfl⟩ := dispatch_step h
    exact iff_of_true (handed_dispatch H hpc) trivial
  | callback w =>
    obtain ⟨cb, hpc, h⟩ := callback_step h
    have hnil : Pc.run.cbs = (s.pc w).cbs := by
      rw [hpc]
      rfl
    simp only [Accepts, hpc]
    obtain ⟨hwake, rfl⟩ | ⟨co, threadId, hwake, rfl⟩ := h
    · refine iff_of_true (handed_frame H rfl rfl (setPc_cbs s hnil) rfl rfl) fun h => ?_
      rw [hwake] at h
      cases h
    · have hpc' : (s.wake co threadId).pc = s.pc := by
        simp only [wake, scheduleWithoutLock_eq]
      have hcbs := setPc_cbs (s.wake co threadId) (hpc' ▸ hnil)
      rw [hwake, Option.isSome_some, imp_iff_right rfl, ← handed_wake H co threadId]
      constructor
      · exact fun h => handed_frame h rfl rfl (fun v => (hcbs v).symm) rfl rfl
      · exact fun h => handed_frame h rfl rfl hcbs rfl rfl
  | listExpiredCbs w now probe =>
    obtain ⟨hpc, h⟩ := Option.ite_none_right_eq_some.mp h
    cases h
    exact iff_of_true (handed_listExpiredCbs H Ht hpc now probe) trivial
  | lock w =>
    obtain ⟨cbs, hpc, rfl⟩ := lock_step h
    have hcbs : (Pc.iterate cbs).cbs = (s.pc w).cbs := by
      rw [hpc]
      rfl
    exact iff_of_true (handed_frame H rfl rfl (setPc_cbs s hcbs) rfl rfl) trivial
  | scheduleOne w =>
    obtain ⟨x, cbs, hpc, rfl⟩ := scheduleOne_step h
    rw [handed_scheduleOne H hpc, Accepts, hpc]
    simp [Pc.cbs]
  | unlock w =>
    obtain ⟨hpc, rfl⟩ := unlock_step h
    have hcbs : Pc.run.cbs = (s.pc w).cbs := by
      rw [hpc]
      rfl
    exact iff_of_true (handed_frame H rfl rfl (setPc_cbs s hcbs) rfl rfl) trivial

/-- The pool gets the task that it is to get exactly under the condition. -/
theorem puts_iff {a : Step} (h : s.step wakes a = some s') :
    s.Puts wakes s' a ↔ s.Accepts wakes a := by
  cases a with
  | callback w =>
    obtain ⟨cb, hpc, h⟩ := callback_step h
    simp only [Puts, Accepts, hpc]
    obtain ⟨hwake, rfl⟩ | ⟨co, threadId, hwake, rfl⟩ := h
    · simp [hwake]
    · have hacc : s.accepts { co := some co, threadId } false = !s.autoStop := by
        simp [accepts]
      simp only [hwake, wake, setPc, scheduleWithoutLock_eq]
      simp [hacc]
  | scheduleOne w =>
    obtain ⟨x, cbs, hpc, rfl⟩ := scheduleOne_step h
    obtain ⟨cb, oneShot⟩ := x
    simp only [Puts, Accepts, hpc, Pc.cbs, List.head?_cons]
    cases cb with
    | none => simp
    | some cb =>
      have hacc : s.accepts { cb := some cb } false = !s.autoStop := by
        simp [accepts]
      simp only [scheduleOne, setPc, scheduleWithoutLock_eq]
      simp [hacc]
  | timer => exact Iff.rfl
  | stop => exact Iff.rfl
  | schedule => exact Iff.rfl
  | take => exact Iff.rfl
  | dispatch => exact Iff.rfl
  | listExpiredCbs => exact Iff.rfl
  | lock => exact Iff.rfl
  | unlock => exact Iff.rfl

/-! ## Runs -/

theorem init_handed : Handed {} := ⟨fun _ => rfl, rfl⟩

theorem init_timers : ({} : TimerTasks).timers.Inv := ⟨List.Pairwise.nil, fun _ ha => nomatch ha⟩

/-- **No timer callback is lost** in a run in which `m_autoStop` is false at every hand-over of a
one-shot timer's callback and at every wake-up: each callback that was removed is in the pool's
history or still with the thread that removed it. A step of such a run puts its task into the pool,
and leaves nothing lost, exactly under the condition. -/
theorem handed (h : Reach (step wakes) (Accepts wakes) {} s) :
    s.Handed ∧ ∀ a s', s.step wakes a = some s' →
      (s.Puts wakes s' a ↔ s.Accepts wakes a) ∧ (s'.Handed ↔ s.Accepts wakes a) := by
  have H : s.Handed ∧ s.timers.Inv :=
    h.inv (I := fun s => s.Handed ∧ s.timers.Inv) ⟨init_handed, init_timers⟩
      fun H hG hs => ⟨(step_handed H.1 H.2 hs).mpr hG, step_timers H.2 hs⟩
  exact ⟨H.1, fun a s' hs => ⟨puts_iff hs, step_handed H.1 H.2 hs⟩⟩

/-- Callback 1 is that of the coroutine 9, which sleeps on thread 2. -/
def oneSleeper (cb : CbId) : Option (CoId × ThreadId) :=
  if cb = 1 then some (9, 2) else none

/-- The coroutine sleeps for 10 milliseconds, and `stop()` is called before the timer has expired. -/
def stopWhileAsleep : List Step :=
  [.timer (.addTimer 3 10 (some 1) false 100), .stop, .listExpiredCbs 1 110 4, .lock 1,
    .scheduleOne 1, .unlock 1]

/-- `scheduleIterator` drops the callback, and with it the coroutine. -/
theorem sleeper_lost : ∃ s, Reach (step oneSleeper) Always {} s ∧ s.timers.timers = [] ∧
    s.taskPools = [] ∧ s.removed 1 = [1] ∧ s.appended 1 = [] ∧ s.pc 1 = .run ∧ ¬s.Handed := by
  obtain ⟨s, hs, h⟩ := Reach.of_any (step oneSleeper) Always {} stopWhileAsleep
    (fun s => s.timers.timers = [] ∧ s.taskPools = [] ∧ s.removed 1 = [1] ∧ s.appended 1 = [] ∧
      s.pc 1 = .run) (by decide +kernel)
  obtain ⟨htimers, hpool, hrem, happ, hpc⟩ := of_decide_eq_true h
  refine ⟨s, hs, htimers, hpool, hrem, happ, hpc, fun H => ?_⟩
  have hw := H.cbs 1
  rw [hrem, happ, hpc] at hw
  cases hw

/-- The same coroutine wakes up. -/
theorem handed_sleeper : ∃ s, Reach (step oneSleeper) (Accepts oneSleeper) {} s ∧ s.Handed ∧
    s.taskPools = [{ co := some 9, threadId := 2 }] := by
  obtain ⟨s, hs, h⟩ := Reach.of_any (step oneSleeper) (Accepts oneSleeper) {}
    [.timer (.addTimer 3 10 (some 1) false 100), .listExpiredCbs 1 110 4, .lock 1, .scheduleOne 1,
      .unlock 1, .take 1, .dispatch 1, .take 1, .dispatch 1, .callback 1]
    (fun s => s.taskPools = [{ co := some 9, threadId := 2 }]) (by decide +kernel)
  exact ⟨s, hs, (handed hs).1, of_decide_eq_true h⟩

end TimerTasks

end Tigerkin
