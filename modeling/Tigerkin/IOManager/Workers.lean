import Mathlib.Order.Interval.Finset.Nat
import Tigerkin.IOManager.Basic
import Tigerkin.Scheduler.Basic

/-! # The workers of an I/O manager

`Scheduler::run` and `IOManager::idle` of several threads over one task pool and one event table, as
they interleave. A section under `Scheduler::m_mutex` or under the lock of an `FdContext` is one
step, but for those that contain more: the branches of `run` that resume `idle` with `m_mutex` held,
and the triggers, which take `m_mutex` under the lock of the context. `stopping` and
`canEarlyClosure` are evaluated one read after the other. A coroutine is known by what it does to
the manager, and so is a thread outside `run`. Tickles are left out: `epoll_wait` may return at any
time. The armed events are a list of registrations; an assertion that fails ends the process, so no
step leads on from it. -/

namespace Tigerkin

open IOManager (Event Mask realEvent)
open Scheduler (Takes)

namespace Workers

/-- The variables that `stopping` and `canEarlyClosure` read. -/
inductive Read where
  | autoStop | mStopping | taskPools | activeThreadCnt | idleThreadCnt | pendingEventCount
  deriving DecidableEq

/-- The reads of `IOManager::stopping`. -/
def stopping : List Read :=
  [.autoStop, .mStopping, .taskPools, .activeThreadCnt, .pendingEventCount]

/-- The reads of `IOManager::canEarlyClosure`. -/
def canEarlyClosure : List Read :=
  [.autoStop, .taskPools, .idleThreadCnt, .pendingEventCount]

/-- A task in the pool, and the thread that registered the event it comes from. -/
structure Entry where
  task : Task
  source : Option ThreadId := none
  deriving DecidableEq

/-- An armed event, with the task that `addEvent` left in its event context. -/
structure Registration where
  fd : Nat
  event : Event
  /-- The thread that called `addEvent`. -/
  owner : ThreadId
  /-- `Scheduler::GetThis()` was this manager. -/
  here : Bool
  task : Task
  deriving DecidableEq

/-- What a trigger does next for its next event. -/
inductive Stage where
  | clear
  | schedule (r : Registration)
  /-- `--m_pendingEventCount`. -/
  | count
  deriving DecidableEq

/-- The triggers of one context that a thread is making under the context's lock. -/
structure Trigger where
  fd : Nat
  events : List Event
  stage : Stage := .clear
  deriving DecidableEq

/-- Where a thread is in `idle`: reading for the head of the loop, or in its body. -/
inductive Idle where
  | stopping (reads : List Read)
  | canEarlyClosure (reads : List Read)
  | epollWait
  | scheduleIterator (reports : List (Nat × Mask))
  | reports (l : List (Nat × Mask))
  deriving DecidableEq

inductive Pc where
  | scan
  | dispatch (e : Option Entry)
  /-- A coroutine of a task runs, or, for a thread outside `run`, any other code. -/
  | user (co : Option CoId)
  /-- Before `schedule(.., true)`. -/
  | reschedule (e : Entry)
  /-- Before the section that ends the loop or counts the thread idle. -/
  | close
  /-- In that section, with the reads that are left. -/
  | check (reads : List Read)
  | checkFailed
  /-- In `idle`, resumed for the `last` time, with `m_mutex` held, or as an idle thread. -/
  | idle (last : Bool) (i : Idle)
  /-- Before `--m_idleThreadCnt`. -/
  | woken
  /-- Back from `idle` with `m_mutex` held, before the `break`. -/
  | leave
  | exited
  deriving DecidableEq

structure Worker where
  pc : Pc := .user none
  /-- `idle` has returned: `idleCo` is `TERMINAL`. -/
  idleDone : Bool := false
  trigger : Option Trigger := none

end Workers

open Workers

structure Workers where
  threads : Finset ThreadId
  callerThreadId : ThreadId
  autoStop : Bool := false
  /-- `m_stopping`. -/
  mStopping : Bool := false
  /-- The thread that holds `Scheduler::m_mutex`. -/
  mutex : Option ThreadId := none
  /-- The thread that holds the lock of a context. -/
  fdMutex : Nat → Option ThreadId := fun _ => none
  taskPools : List Entry := []
  activeThreadCnt : Nat
  idleThreadCnt : Nat := 0
  pendingEventCount : Nat := 0
  armed : List Registration := []
  /-- `EventContext::threadId`, which outlives the registration. -/
  contextThreadId : Nat → Event → ThreadId := fun _ _ => 0
  workers : ThreadId → Worker

namespace Workers

def set (s : Workers) (w : ThreadId) (x : Worker) : Workers :=
  { s with workers := Function.update s.workers w x }

def setPc (s : Workers) (w : ThreadId) (pc : Pc) : Workers :=
  s.set w { s.workers w with pc }

def setTrigger (s : Workers) (w : ThreadId) (trigger : Option Trigger) : Workers :=
  s.set w { s.workers w with trigger }

/-- What a read of `stopping` or `canEarlyClosure` finds. -/
def test (s : Workers) : Read → Bool
  | .autoStop => s.autoStop
  | .mStopping => s.mStopping
  | .taskPools => s.taskPools.isEmpty
  | .activeThreadCnt => s.activeThreadCnt == 0
  | .idleThreadCnt => s.idleThreadCnt == 0
  | .pendingEventCount => s.pendingEventCount == 0

/-! ## Events -/

/-- `fdCtx->events & event`. -/
def Armed (s : Workers) (fd : Nat) (event : Event) : Prop :=
  ∃ r ∈ s.armed, r.fd = fd ∧ r.event = event

instance (s : Workers) (fd : Nat) (event : Event) : Decidable (s.Armed fd event) :=
  inferInstanceAs (Decidable (∃ r ∈ s.armed, _))

def registration? (s : Workers) (fd : Nat) (event : Event) : Option Registration :=
  s.armed.find? fun r => r.fd = fd ∧ r.event = event

def setContextThreadId (s : Workers) (fd : Nat) (event : Event) (threadId : ThreadId) : Workers :=
  let context := Function.update (s.contextThreadId fd) event threadId
  { s with contextThreadId := Function.update s.contextThreadId fd context }

/-- The section of `addEvent` for an event that is not armed. A callback keeps the thread that the
context had before. `NONE` is counted, and no mask ever shows it. -/
def arm (s : Workers) (w : ThreadId) (fd : Nat) (event : Event) (co : CoId) (cb : Option CbId)
    (here : Bool) : Workers :=
  let threadId := if cb.isSome then s.contextThreadId fd event else w
  let task : Task := if cb.isSome then { cb, threadId } else { co := some co, threadId }
  { s.setContextThreadId fd event threadId with
    pendingEventCount := s.pendingEventCount + 1
    armed := if event = .NONE then s.armed else ⟨fd, event, w, here, task⟩ :: s.armed }

def addEvent (s : Workers) (w : ThreadId) (fd : Nat) (event : Event) (co : CoId) (cb : Option CbId)
    (here : Bool) : Workers :=
  if s.Armed fd event then s else s.arm w fd event co cb here

def delEvent (s : Workers) (fd : Nat) (event : Event) : Workers :=
  match s.registration? fd event with
  | none => s
  | some r =>
    { s.setContextThreadId fd event 0 with
      pendingEventCount := s.pendingEventCount - 1, armed := s.armed.erase r }

/-- Take the lock of a context and start to trigger events. -/
def startTrigger (s : Workers) (w : ThreadId) (fd : Nat) (events : List Event) : Workers :=
  { s with fdMutex := Function.update s.fdMutex fd (some w) }.setTrigger w (some { fd, events })

def cancelEvent (s : Workers) (w : ThreadId) (fd : Nat) (event : Event) : Workers :=
  if s.Armed fd event then s.startTrigger w fd [event] else s

def cancelAllEvent (s : Workers) (w : ThreadId) (fd : Nat) : Workers :=
  let events := [Event.READ, Event.WRITE].filter fun event => s.Armed fd event
  if events.isEmpty then s else s.startTrigger w fd events

/-- The body of the loop of `idle` over the reports. -/
def report (s : Workers) (w : ThreadId) (fd : Nat) (reported : Mask) (ctlOk : Bool) : Workers :=
  let events := [Event.READ, Event.WRITE].filter fun event => realEvent reported &&& event.bits ≠ 0
  if ctlOk ∧ ∃ event ∈ events, s.Armed fd event then s.startTrigger w fd events else s

/-- The entry that a trigger puts into the pool of this manager. -/
def Registration.entries (r : Registration) : List Entry :=
  if r.here then [⟨r.task, some r.owner⟩] else []

/-- `triggerEvent` and `--m_pendingEventCount` for each event of a trigger. -/
def triggerEvent (s : Workers) (w : ThreadId) (tr : Trigger) : Option Workers :=
  match tr.stage, tr.events with
  | .clear, [] =>
    some ({ s with fdMutex := Function.update s.fdMutex tr.fd none }.setTrigger w none)
  | .clear, event :: events =>
    -- the assertion of `triggerEvent` fails when the event is not armed
    (s.registration? tr.fd event).map fun r =>
      { s with armed := s.armed.erase r }.setTrigger w (some { tr with events, stage := .schedule r })
  | .schedule r, _ =>
    if s.mutex = none then
      some ({ s with taskPools := s.taskPools ++ r.entries }.setTrigger w
        (some { tr with stage := .count }))
    else none
  | .count, _ =>
    some ({ s with pendingEventCount := s.pendingEventCount - 1 }.setTrigger w
      (some { tr with stage := .clear }))

/-! ## The loop of `run` -/

/-- `scheduleWithoutLock` from outside the triggers. -/
def schedule (s : Workers) (task : Task) (force : Bool) : Workers :=
  if s.autoStop && !force then s
  else if task.cb.isSome || task.co.isSome then { s with taskPools := s.taskPools ++ [{ task }] }
  else s

def scan (s : Workers) (w : ThreadId) : Workers :=
  { s with taskPools := s.taskPools.eraseP fun e => Takes w e.task }.setPc w
    (.dispatch (s.taskPools.find? fun e => Takes w e.task))

/-- The loop after the scan took a task: `finished` is the state of its coroutine, and `co` the
coroutine made for its callback. -/
def dispatch (e : Entry) (finished : Bool) (co : CoId) : Pc :=
  match e.task.co, finished with
  | some co, false => .user (some co)
  | _, _ =>
    if e.task.cb.isSome then
      .reschedule { e with task := { co := some co, threadId := e.task.threadId } }
    else .scan

/-- The test of the section that ends the loop. -/
def checks (s : Workers) (w : ThreadId) : List Read :=
  if s.callerThreadId = w then stopping else canEarlyClosure

/-- The test has passed. -/
def closing (s : Workers) (w : ThreadId) : Workers :=
  let s' := if s.callerThreadId = w then s
    else { s with activeThreadCnt := s.activeThreadCnt - 1 }
  s'.setPc w (.idle true (.stopping stopping))

/-- The test has failed. -/
def notClosing (s : Workers) (w : ThreadId) : Workers :=
  let s := { s with mutex := none }
  if s.callerThreadId ≠ w ∧ s.autoStop then s.setPc w .scan
  else { s with idleThreadCnt := s.idleThreadCnt + 1 }.setPc w (.idle false (.stopping stopping))

/-- `idle` returns, to the branch of `run` that resumed it. -/
def idleReturn (s : Workers) (w : ThreadId) (last : Bool) : Workers :=
  if last then s.setPc w .leave
  else s.set w { s.workers w with pc := .woken, idleDone := true }

/-- The steps of `idle` without an outcome of their own. At the end of the body it yields. -/
def idle (s : Workers) (w : ThreadId) (last : Bool) : Idle → Option Workers
  | .stopping (r :: l) =>
    some (s.setPc w (.idle last
      (if s.test r then .stopping l
      else if s.callerThreadId = w then .epollWait
      else .canEarlyClosure canEarlyClosure)))
  | .canEarlyClosure (r :: l) =>
    some (s.setPc w (.idle last (if s.test r then .canEarlyClosure l else .epollWait)))
  | .stopping [] | .canEarlyClosure [] => some (s.idleReturn w last)
  | .reports [] => some (s.setPc w (if last then .leave else .woken))
  | .epollWait | .scheduleIterator _ | .reports (_ :: _) => none

/-- The next step of a thread, where it is determined. -/
def run (s : Workers) (w : ThreadId) : Option Workers :=
  match (s.workers w).trigger with
  | some tr => s.triggerEvent w tr
  | none =>
    match (s.workers w).pc with
    | .scan => if s.mutex = none then some (s.scan w) else none
    | .dispatch none => some (s.setPc w (if (s.workers w).idleDone then .exited else .close))
    | .reschedule e =>
      if s.mutex = none then some ({ s with taskPools := s.taskPools ++ [e] }.setPc w .scan)
      else none
    | .close =>
      if s.mutex = none then some ({ s with mutex := some w }.setPc w (.check (s.checks w)))
      else none
    | .check (r :: l) => some (s.setPc w (if s.test r then .check l else .checkFailed))
    | .check [] => some (s.closing w)
    | .checkFailed => some (s.notClosing w)
    | .idle last i => s.idle w last i
    | .woken => some ({ s with idleThreadCnt := s.idleThreadCnt - 1 }.setPc w .scan)
    | .leave => some ({ s with mutex := none }.setPc w .exited)
    | .dispatch (some _) | .user _ | .exited => none

/-! ## Steps -/

/-- What a thread does. -/
inductive Op where
  | run
  | dispatch (finished : Bool) (co : CoId)
  /-- The coroutine comes back, `READY` with the thread it is recorded with or not. -/
  | back (ready : Option ThreadId)
  | schedule (task : Task) (force : Bool)
  | addEvent (fd : Nat) (event : Event) (co : CoId) (cb : Option CbId) (here : Bool)
  | delEvent (fd : Nat) (event : Event)
  | cancelEvent (fd : Nat) (event : Event)
  | cancelAllEvent (fd : Nat)
  /-- `epoll_wait` returns, and the inner loop of `idle` ends. -/
  | epollWait (reports : List (Nat × Mask))
  /-- `scheduleIterator` for the callbacks of the timers. -/
  | scheduleIterator (cbs : List CbId)
  | report (ctlOk : Bool)
  deriving DecidableEq

/-- The steps of the code in a coroutine or outside `run`. -/
def call (s : Workers) (w : ThreadId) (co : Option CoId) : Op → Option Workers
  | .back ready =>
    co.map fun co =>
      s.setPc w (match ready with
        | some threadId => .reschedule { task := { co := some co, threadId } }
        | none => .scan)
  | .schedule task force => if s.mutex = none then some (s.schedule task force) else none
  | .addEvent fd event co cb here =>
    if s.fdMutex fd = none then some (s.addEvent w fd event co cb here) else none
  | .delEvent fd event => if s.fdMutex fd = none then some (s.delEvent fd event) else none
  | .cancelEvent fd event => if s.fdMutex fd = none then some (s.cancelEvent w fd event) else none
  | .cancelAllEvent fd => if s.fdMutex fd = none then some (s.cancelAllEvent w fd) else none
  | _ => none

/-- The steps of the body of the loop of `idle`. -/
def idleBody (s : Workers) (w : ThreadId) (last : Bool) : Idle → Op → Option Workers
  | .epollWait, .epollWait reports => some (s.setPc w (.idle last (.scheduleIterator reports)))
  | .scheduleIterator reports, .scheduleIterator cbs =>
    if s.mutex = none then
      let s := cbs.foldl (fun s cb => s.schedule { cb := some cb } false) s
      some (s.setPc w (.idle last (.reports reports)))
    else none
  | .reports ((fd, reported) :: l), .report ctlOk =>
    if s.fdMutex fd = none then
      some ((s.setPc w (.idle last (.reports l))).report w fd reported ctlOk)
    else none
  | _, _ => none

def act (s : Workers) (w : ThreadId) (op : Op) : Option Workers :=
  match op, (s.workers w).trigger, (s.workers w).pc with
  | .run, _, _ => s.run w
  | .dispatch finished co, none, .dispatch (some e) => some (s.setPc w (dispatch e finished co))
  | op, none, .user co => s.call w co op
  | op, none, .idle last i => s.idleBody w last i op
  | _, _, _ => none

inductive Step where
  | act (w : ThreadId) (op : Op)
  | setAutoStop
  | setStopping
  deriving DecidableEq

def step (s : Workers) : Step → Option Workers
  | .act w op => if w ∈ s.threads then s.act w op else none
  | .setAutoStop => some { s with autoStop := true }
  | .setStopping => if s.autoStop then some { s with mStopping := true } else none

/-- A started manager: the threads `1, .., n` enter `run`, and there are `m` more. With `useCaller`
the caller is the first thread. -/
def init (useCaller : Bool) (n m : Nat) : Workers where
  threads := Finset.Icc 1 (n + m)
  callerThreadId := if useCaller then 1 else n + 1
  activeThreadCnt := if useCaller then n - 1 else n
  workers w := { pc := if 1 ≤ w ∧ w ≤ n then .scan else .user none }

end Workers

end Tigerkin
