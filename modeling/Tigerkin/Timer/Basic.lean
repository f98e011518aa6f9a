import Mathlib.Algebra.Group.Int.Defs
import Mathlib.Algebra.Group.Nat.Defs
import Mathlib.Logic.Function.Basic
import Tigerkin.Std.Run
import Tigerkin.Std.OrdSet

/-! # The timer manager

`Timer` and `TimerManager` of `timer.h` and `timer.cpp`. A `Timer::ptr` is an address; the objects
live in `heap`, and `m_timers` is the list of the addresses it holds in iteration order. The
comparator reads the deadline of the pointed-to objects, so the order of the set is relative to the
heap (`less`). Every operation runs under the manager's lock and is one function here; the value of
`GetNowMillisecond()` it reads is its argument `now`, and `refreshes` counts the calls of the
virtual `onTimerRefresh`. Milliseconds are `uint64_t`, so deadlines wrap. -/

namespace Tigerkin

abbrev Addr := Nat

/-- A timer object. The back pointer to the manager is left out: there is one manager here. -/
structure Timer (κ : Type) where
  ms : UInt64 := 0
  next : UInt64 := 0
  cb : Option κ := none
  recurring : Bool := false

variable {κ : Type}

/-- `Timer::Comparator::operator()`: a null pointer comes last, then the deadline decides, then the
address. -/
def Timer.comparator : (lth rth : Option (Addr × Timer κ)) → Bool
  | none, none => false
  | some _, none => true
  | none, some _ => false
  | some (a, lth), some (b, rth) =>
    if lth.next < rth.next then true
    else if rth.next < lth.next then false
    else a < b

structure TimerManager (κ : Type) where
  heap : Addr → Timer κ := fun _ => {}
  /-- Addresses of the timer objects that exist. -/
  live : Addr → Bool := fun _ => false
  /-- `m_timers`, in iteration order. -/
  timers : List Addr := []
  refreshes : Nat := 0

namespace TimerManager

/-- The order of `m_timers` in the current heap. -/
def less (m : TimerManager κ) (a b : Addr) : Bool :=
  Timer.comparator (some (a, m.heap a)) (some (b, m.heap b))

def setTimer (m : TimerManager κ) (a : Addr) (t : Timer κ) : TimerManager κ :=
  { m with heap := Function.update m.heap a t }

/-- `m_timers.find(timer) != m_timers.end()`. -/
def contains (m : TimerManager κ) (a : Addr) : Bool := (OrdSet.find m.less a m.timers).isSome

def eraseTimer (m : TimerManager κ) (a : Addr) : TimerManager κ :=
  { m with timers := OrdSet.erase m.less a m.timers }

def insertTimer (m : TimerManager κ) (a : Addr) : TimerManager κ :=
  { m with timers := OrdSet.insert m.less a m.timers }

def onTimerRefresh (m : TimerManager κ) : TimerManager κ :=
  { m with refreshes := m.refreshes + 1 }

/-- The common tail of `addTimer`, `refresh` and `reset`: insert, and report a new first timer. -/
def insertAndNotify (m : TimerManager κ) (a : Addr) : TimerManager κ :=
  let m := m.insertTimer a
  if m.timers.head? = some a then m.onTimerRefresh else m

/-- `TimerManager::addTimer`; `a` is the address `new Timer` returned. -/
def addTimer (m : TimerManager κ) (a : Addr) (ms : UInt64) (cb : Option κ) (recurring : Bool)
    (now : UInt64) : TimerManager κ :=
  let m := { m with live := Function.update m.live a true }
  (m.setTimer a { ms, next := now + ms, cb, recurring }).insertAndNotify a

/-- `Timer::cancel`. -/
def cancel (m : TimerManager κ) (a : Addr) : Bool × TimerManager κ :=
  if (m.heap a).cb.isSome then
    let m := m.setTimer a { m.heap a with cb := none }
    if m.contains a then (true, m.eraseTimer a) else (false, m)
  else (false, m)

/-- `Timer::refresh`. -/
def refresh (m : TimerManager κ) (a : Addr) (now : UInt64) : Bool × TimerManager κ :=
  if (m.heap a).cb.isNone then (false, m)
  else if !m.contains a then (false, m.setTimer a { m.heap a with cb := none })
  else
    let m := m.eraseTimer a
    let m := m.setTimer a { m.heap a with next := now + (m.heap a).ms }
    (true, m.insertAndNotify a)

/-- `Timer::reset`. -/
def reset (m : TimerManager κ) (a : Addr) (ms now : UInt64) : Bool × TimerManager κ :=
  if ms = (m.heap a).ms then (true, m)
  else if (m.heap a).cb.isNone then (false, m)
  else if !m.contains a then (false, m)
  else
    let m := m.eraseTimer a
    let m := m.setTimer a { m.heap a with ms, next := ms + now }
    (true, m.insertAndNotify a)

/-- `TimerManager::cancelAllTimers`: the loop takes the first timer until none is left. -/
def cancelAllTimers (m : TimerManager κ) : TimerManager κ :=
  m.timers.foldl (fun m a => { m.setTimer a { m.heap a with cb := none } with
    timers := m.timers.tail }) m

/-- The body of the loop of `listExpiredCbs` over the expired timers. -/
def expireOne (now : UInt64) (r : TimerManager κ × List (Option κ)) (a : Addr) :
    TimerManager κ × List (Option κ) :=
  let (m, cbs) := r
  let t := m.heap a
  let cbs := cbs ++ [t.cb]
  if t.recurring then ((m.setTimer a { t with next := now + t.ms }).insertTimer a, cbs)
  else (m.setTimer a { t with cb := none }, cbs)

/-- The timers before the iterator `it` of `listExpiredCbs`, and those from it on: the lower bound
of the probe timer, moved past the timers whose deadline is exactly `now`. -/
def splitExpired (m : TimerManager κ) (now : UInt64) (probe : Addr) : List Addr × List Addr :=
  let nowTimer : Timer κ := { next := now }
  let beforeProbe := fun a => Timer.comparator (some (a, m.heap a)) (some (probe, nowTimer))
  let isTie := fun a => (m.heap a).next == now
  let it := m.timers.dropWhile beforeProbe
  (m.timers.takeWhile beforeProbe ++ it.takeWhile isTie, it.dropWhile isTie)

/-- `TimerManager::listExpiredCbs`; `probe` is the address of `nowTimer`. -/
def listExpiredCbs (m : TimerManager κ) (cbs : List (Option κ)) (now : UInt64) (probe : Addr) :
    TimerManager κ × List (Option κ) :=
  if m.timers.isEmpty then (m, cbs)
  else
    let (expired, rest) := m.splitExpired now probe
    expired.foldl (expireOne now) ({ m with timers := rest }, cbs)

/-- `TimerManager::getNextTime`. -/
def getNextTime (m : TimerManager κ) (now : UInt64) : UInt64 :=
  match m.timers with
  | [] => ~~~0
  | next :: _ => if now ≥ (m.heap next).next then 0 else (m.heap next).next - now

/-! ## Runs -/

/-- The calls a manager receives. `release` is the end of an object that nothing points to. -/
inductive Op (κ : Type) where
  | addTimer (a : Addr) (ms : UInt64) (cb : Option κ) (recurring : Bool) (now : UInt64)
  | cancel (a : Addr)
  | refresh (a : Addr) (now : UInt64)
  | reset (a : Addr) (ms now : UInt64)
  | cancelAllTimers
  | listExpiredCbs (now : UInt64) (probe : Addr)
  | release (a : Addr)

def step (m : TimerManager κ) : Op κ → Option (TimerManager κ)
  | .addTimer a ms cb recurring now =>
    if m.live a then none else some (m.addTimer a ms cb recurring now)
  | .cancel a => if m.live a then some (m.cancel a).2 else none
  | .refresh a now => if m.live a then some (m.refresh a now).2 else none
  | .reset a ms now => if m.live a then some (m.reset a ms now).2 else none
  | .cancelAllTimers => some m.cancelAllTimers
  | .listExpiredCbs now probe => some (m.listExpiredCbs [] now probe).1
  | .release a =>
    if a ∈ m.timers then none else some { m with live := Function.update m.live a false }

/-- The states of a manager's life, from the empty one on. -/
abbrev Reachable (m : TimerManager κ) : Prop := Reach step Always {} m

end TimerManager

end Tigerkin
