import Mathlib.Order.Interval.Finset.Nat
import Tigerkin.Coroutine.Basic

/-! # Schedulers

`Scheduler` of `scheduler.cpp` and what `IOManager` overrides of it: the task pool, the threads in
`run` and the calls of `schedule` that are about to tickle. A section under `m_mutex`, a wait, a
signal and a read or write of the tickle pipe are one step each. `idle` is entered and left as a
call; between tasks the loop of `run` is in the thread's main coroutine, or in the caller coroutine.
An accepted task has a ticket, and `dequeued` lists the tickets of the tasks taken so far. -/

namespace Tigerkin

namespace Scheduler

/-- What a thread in `run` does next. -/
inductive Pc where
  /-- The section that takes a task. -/
  | scan
  /-- A call of `tickle`, which has not read `m_idleThreadCnt` yet. -/
  | tickle (next : Pc)
  /-- The signals, or writes to the pipe, that `tickle` is still to make. -/
  | signal (cnt : Nat) (next : Pc)
  /-- The scan is over, with the task it took. -/
  | dispatch (task : Option Task)
  /-- A coroutine runs; `co` was resumed by the loop. -/
  | running (co : CoId)
  | resumed (co : CoId)
  | noTask
  /-- The section that ends the loop or counts the thread idle. -/
  | close
  /-- The head of the loop of `idle`. -/
  | idle
  /-- Before `CondWait` or `epoll_wait`, and in it. -/
  | wait
  | waiting
  /-- Reading the tickle pipe. -/
  | drain
  /-- Before `--m_idleThreadCnt`. -/
  | woken
  | exited
  deriving DecidableEq

structure Worker where
  pc : Pc := .scan
  /-- `idle` has returned: `idleCo` is `TERMINAL`. -/
  idleDone : Bool := false
  tls : Tls

/-- A call of `schedule` after its section: the tickets of its tasks, and how many signals its
`tickle` is still to send, once that has read `m_idleThreadCnt`. -/
structure Call where
  tasks : List Nat
  signals : Option Nat := none

structure Entry where
  task : Task
  ticket : Nat
  deriving DecidableEq

end Scheduler

open Scheduler

structure Scheduler where
  /-- The object is an `IOManager`. -/
  isIOManager : Bool
  /-- The threads in `run`. -/
  threads : Finset ThreadId
  callerThreadId : ThreadId
  autoStop : Bool := false
  /-- `m_stopping`. -/
  mStopping : Bool := false
  activeThreadCnt : Nat
  idleThreadCnt : Nat := 0
  pendingEventCount : Nat := 0
  taskPools : List Entry := []
  taskCnt : Nat := 0
  calls : Nat → Option Call := fun _ => none
  callCnt : Nat := 0
  /-- The bytes in the tickle pipe. -/
  tickles : Nat := 0
  workers : ThreadId → Worker
  cos : CoId → Coroutine
  coCnt : Nat
  lastStackId : Nat := 0
  dequeued : List Nat := []

namespace Scheduler

def setPc (s : Scheduler) (w : ThreadId) (pc : Pc) : Scheduler :=
  { s with workers := Function.update s.workers w { s.workers w with pc } }

/-! ## Scheduling -/

/-- `scheduleWithoutLock`, with its return value. Its last assignment, the recorded thread of the
coroutine to `task.threadId`, is to the local `task` and not to the entry in the pool. -/
def scheduleWithoutLock (s : Scheduler) (task : Task) (force : Bool) : Bool × Scheduler :=
  if s.autoStop && !force then (false, s)
  else
    let s :=
      if task.cb.isSome || task.co.isSome then
        { s with taskPools := s.taskPools ++ [⟨task, s.taskCnt⟩], taskCnt := s.taskCnt + 1 }
      else s
    (!s.taskPools.isEmpty && 0 < s.idleThreadCnt, s)

/-- The section of `schedule`, and of `scheduleIterator` for several tasks. -/
def scheduleSection (s : Scheduler) (force : Bool) : List Task → Bool × Scheduler
  | [] => (false, s)
  | task :: tasks =>
    let (needTickle, s) := s.scheduleWithoutLock task force
    let (needTickle', s) := s.scheduleSection force tasks
    (needTickle || needTickle', s)

/-- `schedule`, up to its call of `tickle`. -/
def schedule (s : Scheduler) (tasks : List Task) (force : Bool) : Scheduler :=
  let (needTickle, s') := s.scheduleSection force tasks
  if needTickle then
    let call := { tasks := List.range' s.taskCnt (s'.taskCnt - s.taskCnt) }
    { s' with
      calls := Function.update s'.calls s'.callCnt (some call), callCnt := s'.callCnt + 1 }
  else s'

/-- `schedule` by the loop of `run`. -/
def scheduleBy (s : Scheduler) (w : ThreadId) (task : Task) : Scheduler :=
  let (needTickle, s) := s.scheduleSection true [task]
  s.setPc w (if needTickle then .tickle .scan else .scan)

/-! ## Tickling -/

/-- How many signals `tickle` sends when it reads `m_idleThreadCnt`, or how many bytes it writes. -/
def tickleCnt (s : Scheduler) : Nat :=
  if s.isIOManager then if 0 < s.idleThreadCnt then 1 else 0 else s.idleThreadCnt

def IsWaiting (s : Scheduler) (w : ThreadId) : Prop :=
  w ∈ s.threads ∧ (s.workers w).pc = .waiting

instance (s : Scheduler) (w : ThreadId) : Decidable (s.IsWaiting w) :=
  inferInstanceAs (Decidable (_ ∧ _))

/-- One `pthread_cond_signal`, which wakes the thread `v` if any waits, or one write to the pipe. -/
def signal (s : Scheduler) (v : ThreadId) : Option Scheduler :=
  if s.isIOManager then some { s with tickles := s.tickles + 1 }
  else if ∃ u ∈ s.threads, s.IsWaiting u then
    if s.IsWaiting v then some (s.setPc v .woken) else none
  else some s

def afterTickle (cnt : Nat) (next : Pc) : Pc :=
  if cnt = 0 then next else .signal cnt next

def Call.after (call : Call) (cnt : Nat) : Option Call :=
  if cnt = 0 then none else some { call with signals := some cnt }

/-! ## The loop of `run` -/

/-- A thread skips the tasks of other threads. -/
def Takes (w : ThreadId) (task : Task) : Prop :=
  task.threadId = 0 ∨ task.threadId = w

instance (w : ThreadId) (task : Task) : Decidable (Takes w task) :=
  inferInstanceAs (Decidable (_ ∨ _))

/-- The loop over `m_taskPools`: the task it takes, the tasks it leaves and whether it skipped
any. -/
def scanPool (w : ThreadId) : List Entry → Option Entry × List Entry × Bool
  | [] => (none, [], false)
  | e :: l =>
    if Takes w e.task then (some e, l, false)
    else
      let (r, l, _) := scanPool w l
      (r, e :: l, true)

def scan (s : Scheduler) (w : ThreadId) : Scheduler :=
  let (r, l, skipped) := scanPool w s.taskPools
  let needTickle := skipped || (!l.isEmpty && 0 < s.idleThreadCnt)
  let next : Pc := .dispatch (r.map Entry.task)
  { s with taskPools := l, dequeued := s.dequeued ++ (r.map Entry.ticket).toList }.setPc w
    (if needTickle then .tickle next else next)

/-- The coroutines as the thread `w` sees them. -/
def thread (s : Scheduler) (w : ThreadId) : CoThread :=
  { (s.workers w).tls with threadId := w, cos := s.cos, lastStackId := s.lastStackId }

def setThread (s : Scheduler) (w : ThreadId) (t : CoThread) : Scheduler :=
  { s with
    cos := t.cos, lastStackId := t.lastStackId
    workers := Function.update s.workers w { s.workers w with tls := t.toTls } }

/-- The coroutine of the loop of `run`. -/
def loopCo (s : Scheduler) (w : ThreadId) : CoId :=
  (s.workers w).tls.caller.getD (s.workers w).tls.main

/-- The thread has switched to another coroutine, or has not, after the loop resumed `co`. -/
def switched (s : Scheduler) (w : ThreadId) (co : CoId) (t : CoThread) : Scheduler :=
  (s.setThread w t).setPc w (if t.running = s.loopCo w then .resumed co else .running co)

/-- `resume` or `resumeWithNewStack` of the coroutine of a task. -/
def resumeCo (s : Scheduler) (w : ThreadId) (co : CoId) : Option Scheduler :=
  let t := s.thread w
  (if 0 < (s.cos co).stackId then t.resume co else some (t.resumeWithNewStack co)).map
    (s.switched w co)

/-- A coroutine for a callback, scheduled for the thread of the task. -/
def scheduleCb (s : Scheduler) (w : ThreadId) (task : Task) : Scheduler :=
  { s with coCnt := s.coCnt + 1 }.scheduleBy w { co := some s.coCnt, threadId := task.threadId }

/-- The loop after the scan. -/
def dispatch (s : Scheduler) (w : ThreadId) : Option Task → Option Scheduler
  | none => some (s.setPc w .noTask)
  | some task =>
    match task.co.filter fun co => !(s.thread w).finished co with
    | some co => s.resumeCo w co
    | none => some (if task.cb.isSome then s.scheduleCb w task else s.setPc w .scan)

/-- The loop after the coroutine came back. -/
def afterResume (s : Scheduler) (w : ThreadId) (co : CoId) : Scheduler :=
  if (s.cos co).state = .READY then
    s.scheduleBy w { co := some co, threadId := (s.cos co).threadId }
  else s.setPc w .scan

/-- `stopping()`. -/
def stopping (s : Scheduler) : Bool :=
  s.autoStop && s.mStopping && s.taskPools.isEmpty && s.activeThreadCnt == 0 &&
    (!s.isIOManager || s.pendingEventCount == 0)

def canEarlyClosure (s : Scheduler) : Bool :=
  s.autoStop && s.taskPools.isEmpty && s.idleThreadCnt == 0 &&
    (!s.isIOManager || s.pendingEventCount == 0)

def noTask (s : Scheduler) (w : ThreadId) : Scheduler :=
  s.setPc w
    (if (s.workers w).idleDone then .exited else if s.autoStop then .tickle .close else .close)

def enterIdle (s : Scheduler) (w : ThreadId) : Scheduler :=
  { s with idleThreadCnt := s.idleThreadCnt + 1 }.setPc w .idle

def close (s : Scheduler) (w : ThreadId) : Scheduler :=
  if s.callerThreadId = w then
    if s.stopping then s.setPc w .exited
    else s.enterIdle w
  else if s.canEarlyClosure then
    { s with activeThreadCnt := s.activeThreadCnt - 1 }.setPc w (.tickle .exited)
  else if s.autoStop then s.setPc w (.tickle .scan)
  else s.enterIdle w

/-- The head of the loop of `idle`: `idle` ends, or waits. -/
def idle (s : Scheduler) (w : ThreadId) : Scheduler :=
  if s.stopping || s.callerThreadId != w && s.canEarlyClosure then
    let worker := { s.workers w with pc := .woken, idleDone := true }
    { s with workers := Function.update s.workers w worker }
  else s.setPc w .wait

/-- One step of `run`. -/
def run (s : Scheduler) (w : ThreadId) : Option Scheduler :=
  match (s.workers w).pc with
  | .scan => some (s.scan w)
  | .tickle next => some (s.setPc w (afterTickle s.tickleCnt next))
  | .dispatch task => s.dispatch w task
  | .resumed co => some (s.afterResume w co)
  | .noTask => some (s.noTask w)
  | .close => some (s.close w)
  | .idle => some (s.idle w)
  | .wait => some (s.setPc w .waiting)
  | .drain =>
    some (if 0 < s.tickles then { s with tickles := s.tickles - 1 } else s.setPc w .woken)
  | .woken => some ({ s with idleThreadCnt := s.idleThreadCnt - 1 }.setPc w .scan)
  | .signal .. | .running _ | .waiting | .exited => none

/-- One signal of the `tickle` of a thread in `run`. -/
def signalBy (s : Scheduler) (w v : ThreadId) : Option Scheduler :=
  match (s.workers w).pc with
  | .signal (cnt + 1) next => (s.signal v).map (·.setPc w (afterTickle cnt next))
  | _ => none

/-- `CondWait` wakes without a signal, or `epoll_wait` returns, with the tickle pipe or without. -/
def wake (s : Scheduler) (w : ThreadId) (tickled : Bool) : Option Scheduler :=
  if (s.workers w).pc = .waiting ∧ (tickled → s.isIOManager ∧ 0 < s.tickles) then
    some (s.setPc w (if tickled then .drain else .woken))
  else none

/-- A step of the coroutine that runs: it yields or ends. -/
def leaveCo (s : Scheduler) (w : ThreadId) (f : CoThread → Option CoThread) : Option Scheduler :=
  match (s.workers w).pc with
  | .running co => (f (s.thread w)).map (s.switched w co)
  | _ => none

inductive Step where
  /-- Any thread calls `schedule`. -/
  | schedule (tasks : List Task) (force : Bool)
  /-- A call of `schedule` reads `m_idleThreadCnt` in its `tickle`. -/
  | tickle (call : Nat)
  | signal (call : Nat) (v : ThreadId)
  | run (w : ThreadId)
  | signalBy (w v : ThreadId)
  | wake (w : ThreadId) (tickled : Bool)
  | yield (w : ThreadId)
  | finish (w : ThreadId) (except : Bool)
  | newCoroutine
  | setAutoStop
  | setStopping
  | setPendingEventCount (n : Nat)
  deriving DecidableEq

def step (s : Scheduler) : Step → Option Scheduler
  | .schedule tasks force =>
    if ∀ task ∈ tasks, ∀ co ∈ task.co, co < s.coCnt then some (s.schedule tasks force) else none
  | .tickle k =>
    match s.calls k with
    | some call =>
      if call.signals = none then
        some { s with calls := Function.update s.calls k (call.after s.tickleCnt) }
      else none
    | none => none
  | .signal k v =>
    match s.calls k with
    | some { tasks, signals := some (cnt + 1) } =>
      (s.signal v).map fun s =>
        { s with calls := Function.update s.calls k (Call.after { tasks } cnt) }
    | _ => none
  | .run w => if w ∈ s.threads then s.run w else none
  | .signalBy w v => if w ∈ s.threads then s.signalBy w v else none
  | .wake w tickled => if w ∈ s.threads then s.wake w tickled else none
  | .yield w => if w ∈ s.threads then s.leaveCo w fun t => some (t.yield t.cur) else none
  | .finish w except => if w ∈ s.threads then s.leaveCo w (·.finish except) else none
  | .newCoroutine => some { s with coCnt := s.coCnt + 1 }
  | .setAutoStop => some { s with autoStop := true }
  | .setStopping => if s.autoStop then some { s with mStopping := true } else none
  | .setPendingEventCount n => some { s with pendingEventCount := n }

/-! ## The start -/

/-- `n` threads `1, .., n` that enter `run` in their main coroutines of the same numbers. -/
def enterRun (isIOManager useCaller : Bool) (n : Nat) : Scheduler where
  isIOManager := isIOManager
  threads := Finset.Icc 1 n
  callerThreadId := if useCaller then 1 else n + 1
  activeThreadCnt := if useCaller then n - 1 else n
  workers w := { tls := { main := w, cur := w, running := w } }
  cos c := { ctx := c, state := if 0 < c ∧ c ≤ n then .EXECING else .INIT }
  coCnt := n + 1

/-- A started scheduler: with `useCaller` the first thread, the caller, has set the caller coroutine
0 and has resumed it. -/
def init (isIOManager useCaller : Bool) (n : Nat) : Scheduler :=
  let s := enterRun isIOManager useCaller n
  if useCaller then
    let t := { s.thread 1 with caller := some 0 }
    s.setThread 1 ((t.newStack 0).start 1 0)
  else s

end Scheduler

end Tigerkin
