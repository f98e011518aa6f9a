import Mathlib.Algebra.Group.Nat.Defs
import Mathlib.Logic.Function.Basic
import Tigerkin.Scheduler.Task
import Tigerkin.Std.Run

/-! # The event table of the I/O manager

`IOManager::FdContext`, the table `m_fdContexts` and the functions of `iomanager.cpp` that arm,
disarm and trigger events. A pointer is a number; a context is an object of the heap `contexts`
reached through the pointer stored in the table, and `alive` tells which of them have not been
deleted. What is handed to `Scheduler::schedule` is appended to `scheduled`. A failed assertion, an
index outside the table and the use of a null or deleted object end the process: the state records
it in `fault`, and no operation is enabled any more. The result of `epoll_ctl` is an argument
(`ctlOk`). -/

namespace Tigerkin

namespace IOManager

/-- `IOManager::Event`. -/
inductive Event where
  | NONE | READ | WRITE
  deriving DecidableEq

abbrev Mask := BitVec 32

def Event.bits : Event → Mask
  | .NONE => 0x000
  | .READ => 0x001
  | .WRITE => 0x004

def EPOLLIN : Mask := 0x001
def EPOLLOUT : Mask := 0x004
def EPOLLERR : Mask := 0x008
def EPOLLHUP : Mask := 0x010

/-- `FdContext::EventContext`; the scheduler is a pointer that may be null. -/
structure EventContext where
  scheduler : Option Nat := none
  threadId : ThreadId := 0
  co : Option CoId := none
  cb : Option CbId := none
  deriving DecidableEq

structure FdContext where
  read : EventContext := {}
  write : EventContext := {}
  fd : Nat := 0
  events : Mask := 0
  deriving DecidableEq

namespace FdContext

def getEventContext (c : FdContext) : Event → EventContext
  | .READ => c.read
  | _ => c.write

def setEventContext (c : FdContext) (x : EventContext) : Event → FdContext
  | .READ => { c with read := x }
  | _ => { c with write := x }

end FdContext

/-- How the process can end inside these functions. -/
inductive Fault where
  | indexOutOfRange
  | nullContext
  | deletedContext
  | nullScheduler
  /-- `TIGERKIN_ASSERT(events & event)` in `triggerEvent`. -/
  | triggerUnarmed
  /-- `TIGERKIN_ASSERT(!eventCtx.scheduler && !eventCtx.co && !eventCtx.cb)` in `addEvent`. -/
  | contextInUse
  /-- `TIGERKIN_ASSERT(fdCtx->events == NONE)` in `cancelAllEvent`. -/
  | eventsLeft
  deriving DecidableEq

/-- Who calls `addEvent`: `Scheduler::GetThis()`, `Coroutine::GetThis()` and `GetThreadId()`. -/
structure Caller where
  scheduler : Option Nat
  co : CoId
  threadId : ThreadId
  deriving DecidableEq

end IOManager

open IOManager

structure IOManager where
  contexts : Nat → FdContext := fun _ => {}
  alive : Nat → Bool := fun _ => false
  /-- The next pointer `new FdContext` returns. -/
  fresh : Nat := 0
  /-- `m_fdContexts`. -/
  fdContexts : List (Option Nat) := []
  pendingEventCount : UInt64 := 0
  scheduled : List Task := []
  fault : Option Fault := none

namespace IOManager

def fail (s : IOManager) (f : Fault) : IOManager := { s with fault := some f }

def setContext (s : IOManager) (p : Nat) (c : FdContext) : IOManager :=
  { s with contexts := Function.update s.contexts p c }

/-! ## The table -/

def newContext (s : IOManager) (fd : Nat) : IOManager :=
  { s with
    contexts := Function.update s.contexts s.fresh { fd }
    alive := Function.update s.alive s.fresh true
    fresh := s.fresh + 1 }

/-- The last loop of `fdContextsResize`: the null entries from index `i` on get new contexts. -/
def fillNulls (s : IOManager) (i : Nat) : List (Option Nat) → IOManager × List (Option Nat)
  | [] => (s, [])
  | some p :: l => let (s, l) := fillNulls s (i + 1) l; (s, some p :: l)
  | none :: l => let (s', l) := fillNulls (s.newContext i) (i + 1) l; (s', some s.fresh :: l)

/-- The first loop of `fdContextsResize`: delete the contexts the new table has no room for. -/
def deleteAll (s : IOManager) : List (Option Nat) → IOManager
  | [] => s
  | none :: l => s.deleteAll l
  | some p :: l => { s with alive := Function.update s.alive p false }.deleteAll l

def fdContextsResize (s : IOManager) (size : Nat) : IOManager :=
  let s := s.deleteAll (s.fdContexts.drop size)
  let table := s.fdContexts.take size ++ List.replicate (size - s.fdContexts.length) none
  let (s, table) := s.fillNulls 0 table
  { s with fdContexts := table }

/-- `IOManager::IOManager`. -/
def init : IOManager := fdContextsResize {} 64

/-- `(int)m_fdContexts.size()`. -/
def intSize (s : IOManager) : Int := (BitVec.ofNat 32 s.fdContexts.length).toInt

/-- The argument `fd * 1.5` of `fdContextsResize` as a `size_t`. -/
def growSize (fd : Nat) : Nat := fd * 3 / 2

/-- `m_fdContexts[fd]` and the first use of the pointer found there. -/
def lookup (s : IOManager) (fd : Nat) : Except Fault Nat :=
  match s.fdContexts[fd]? with
  | none => .error .indexOutOfRange
  | some none => .error .nullContext
  | some (some p) => .ok p

/-! ## Events -/

/-- `FdContext::triggerEvent` followed by `--m_pendingEventCount`, as all its callers do. The task
takes the callback or the coroutine out of the event context. -/
def triggerEvent (s : IOManager) (p : Nat) (event : Event) : IOManager :=
  let c := s.contexts p
  if c.events &&& event.bits = 0 then s.fail .triggerUnarmed
  else
    let ctx := c.getEventContext event
    let c := { c with events := c.events &&& ~~~event.bits }
    match ctx.scheduler with
    | none => (s.setContext p c).fail .nullScheduler
    | some _ =>
      let task : Task :=
        if ctx.cb.isSome then { cb := ctx.cb, threadId := ctx.threadId }
        else { co := ctx.co, threadId := ctx.threadId }
      let ctx' := if ctx.cb.isSome then { ctx with cb := none, scheduler := none }
        else { ctx with co := none, scheduler := none }
      let s := s.setContext p (c.setEventContext ctx' event)
      { s with
        scheduled := if task.cb.isSome || task.co.isSome then s.scheduled ++ [task] else s.scheduled
        pendingEventCount := s.pendingEventCount - 1 }

/-- `if (mask & event) { triggerEvent(event); --m_pendingEventCount; }`. -/
def triggerIf (s : IOManager) (p : Nat) (mask : Mask) (event : Event) : IOManager :=
  if s.fault.isSome || mask &&& event.bits = 0 then s else s.triggerEvent p event

/-- The section of `addEvent` under the context's lock. -/
def armEvent (s : IOManager) (p : Nat) (event : Event) (cb : Option CbId) (caller : Caller)
    (ctlOk : Bool) : Bool × IOManager :=
  let c := s.contexts p
  if c.events &&& event.bits ≠ 0 then (false, s)
  else if !ctlOk then (false, s)
  else
    let s := { s with pendingEventCount := s.pendingEventCount + 1 }
    let c := { c with events := c.events ||| event.bits }
    let ctx := c.getEventContext event
    if ctx.scheduler.isSome || ctx.co.isSome || ctx.cb.isSome then
      (false, (s.setContext p c).fail .contextInUse)
    else
      let ctx := { ctx with scheduler := caller.scheduler }
      let ctx := if cb.isSome then { ctx with cb }
        else { ctx with co := some caller.co, threadId := caller.threadId }
      (true, s.setContext p (c.setEventContext ctx event))

/-- The sections of `addEvent` under the table's lock: resize the table if it has no index `fd`. -/
def reserve (s : IOManager) (fd : Nat) : IOManager :=
  if s.intSize > fd then s else s.fdContextsResize (growSize fd)

/-- The rest of `addEvent`, from `m_fdContexts[fd]` on. -/
def addEventAt (s : IOManager) (fd : Nat) (event : Event) (cb : Option CbId) (caller : Caller)
    (ctlOk : Bool) : Bool × IOManager :=
  match s.lookup fd with
  | .error f => (false, s.fail f)
  | .ok p => s.armEvent p event cb caller ctlOk

/-- `IOManager::addEvent` run alone. -/
def addEvent (s : IOManager) (fd : Nat) (event : Event) (cb : Option CbId) (caller : Caller)
    (ctlOk : Bool) : Bool × IOManager :=
  (s.reserve fd).addEventAt fd event cb caller ctlOk

/-- `IOManager::delEvent`. -/
def delEvent (s : IOManager) (fd : Nat) (event : Event) (ctlOk : Bool) : Bool × IOManager :=
  if s.intSize ≤ fd then (false, s)
  else
    match s.lookup fd with
    | .error f => (false, s.fail f)
    | .ok p =>
      let c := s.contexts p
      if c.events &&& event.bits = 0 then (false, s)
      else if !ctlOk then (false, s)
      else
        let s := { s with pendingEventCount := s.pendingEventCount - 1 }
        let c := { c with events := c.events &&& ~~~event.bits }
        (true, s.setContext p (c.setEventContext {} event))

/-- `IOManager::cancelEvent`. -/
def cancelEvent (s : IOManager) (fd : Nat) (event : Event) (ctlOk : Bool) : Bool × IOManager :=
  if s.intSize ≤ fd then (false, s)
  else
    match s.lookup fd with
    | .error f => (false, s.fail f)
    | .ok p =>
      let c := s.contexts p
      if c.events &&& event.bits = 0 then (false, s)
      else if !ctlOk then (false, s)
      else (true, s.triggerEvent p event)

/-- `IOManager::cancelAllEvent`. -/
def cancelAllEvent (s : IOManager) (fd : Nat) (ctlOk : Bool) : Bool × IOManager :=
  if s.intSize ≤ fd then (false, s)
  else
    match s.lookup fd with
    | .error f => (false, s.fail f)
    | .ok p =>
      let c := s.contexts p
      if c.events = 0 then (false, s)
      else if !ctlOk then (false, s)
      else
        let s := s.triggerIf p (s.contexts p).events .READ
        let s := s.triggerIf p (s.contexts p).events .WRITE
        (true, if s.fault.isSome || (s.contexts p).events = 0 then s else s.fail .eventsLeft)

/-- The events `idle` derives from a reported mask. -/
def realEvent (reported : Mask) : Mask :=
  let reported := if reported &&& (EPOLLERR ||| EPOLLHUP) ≠ 0 then reported ||| EPOLLIN ||| EPOLLOUT
    else reported
  let real := if reported &&& EPOLLIN ≠ 0 then Event.NONE.bits ||| Event.READ.bits
    else Event.NONE.bits
  if reported &&& EPOLLOUT ≠ 0 then real ||| Event.WRITE.bits else real

/-- The body of the loop of `idle` over the reported events, for the report of a context. -/
def dispatch (s : IOManager) (p : Nat) (reported : Mask) (ctlOk : Bool) : IOManager :=
  let real := realEvent reported
  if (s.contexts p).events &&& real = 0 then s
  else if !ctlOk then s
  else
    let s := s.triggerIf p real .READ
    s.triggerIf p real .WRITE

end IOManager

end Tigerkin
