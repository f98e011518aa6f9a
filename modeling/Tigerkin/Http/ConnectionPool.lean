import Mathlib.Data.Finset.Card
import Mathlib.Logic.Function.Basic
import Tigerkin.Std.Run

/-! # The connection pool

`HttpConnectionPool::getConnection` and `ReleasePtr` by several holders, one step for each locked
section, each update of the counter and each construction or deletion between them. The environment
closes connections and sets the clock. -/

namespace Tigerkin.Http

/-- The fields of `HttpConnection` that the pool uses. -/
structure PoolConnection where
  createTime : Nat
  request : Nat := 0
  isConnected : Bool := true
  /-- How many times `getConnection` has returned it. -/
  handed : Nat := 0

/-- Where a holder is in its calls; `none` in `ptr` is the null pointer. -/
inductive PoolPhase where
  | idle
  /-- `getConnection` before its locked section. -/
  | started (now : Nat)
  | swept (invalidConns : List Nat) (ptr : Option Nat)
  /-- Before `m_total -= invalidConns.size()`. -/
  | deleted (size : Nat) (ptr : Option Nat)
  | connecting
  /-- Before `++m_total`. -/
  | created (ptr : Nat)
  | holding (ptr : Nat)
  /-- `ReleasePtr` before `delete ptr`. -/
  | retiring (ptr : Nat)
  /-- Before `--m_total`. -/
  | retired
  /-- Before the locked section of `ReleasePtr`. -/
  | returning (ptr : Nat)
  deriving DecidableEq

/-- The pool, with the objects that exist. -/
structure HttpConnectionPool (H : Type) where
  maxSize : Nat
  maxAliveTime : Nat
  maxRequest : Nat
  conns : List Nat := []
  total : Int := 0
  phase : H → PoolPhase := fun _ => .idle
  connection : Nat → PoolConnection := fun _ => { createTime := 0 }
  live : Finset Nat := ∅
  fresh : Nat := 0
  now : Nat := 0

inductive PoolStep (H : Type) where
  | start (k : H)
  | sweep (k : H)
  | delete (k : H)
  | subtract (k : H)
  /-- No address, no socket or no connection. -/
  | fail (k : H)
  | create (k : H)
  | count (k : H)
  | release (k : H)
  | destroy (k : H)
  | uncount (k : H)
  | pushBack (k : H)
  | close (conn : Nat)
  | setClock (now : Nat)

namespace HttpConnectionPool

variable {H : Type} [DecidableEq H]

/-- The loop of `getConnection` over `m_conns`: the invalid connections, the one to hand out, and
the rest of the list. -/
def sweepLoop (s : HttpConnectionPool H) (now : Nat) : List Nat → List Nat × Option Nat × List Nat
  | [] => ([], none, [])
  | conn :: conns =>
    if !(s.connection conn).isConnected then
      let (invalidConns, ptr, rest) := s.sweepLoop now conns
      (conn :: invalidConns, ptr, rest)
    else if (s.connection conn).createTime + s.maxAliveTime < now then
      let (invalidConns, ptr, rest) := s.sweepLoop now conns
      (conn :: invalidConns, ptr, rest)
    else ([], some conn, conns)

def setPhase (s : HttpConnectionPool H) (k : H) (ph : PoolPhase) : HttpConnectionPool H :=
  { s with phase := Function.update s.phase k ph }

def modify (s : HttpConnectionPool H) (conn : Nat) (f : PoolConnection → PoolConnection) :
    HttpConnectionPool H :=
  { s with connection := Function.update s.connection conn (f (s.connection conn)) }

/-- `getConnection` returns. -/
def hand (s : HttpConnectionPool H) (k : H) (ptr : Nat) : HttpConnectionPool H :=
  (s.modify ptr fun c => { c with handed := c.handed + 1 }).setPhase k (.holding ptr)

/-- `++ptr->m_request` and the test of `ReleasePtr`. -/
def releasePtr (s : HttpConnectionPool H) (k : H) (ptr : Nat) : HttpConnectionPool H :=
  let s := s.modify ptr fun c => { c with request := c.request + 1 }
  let c := s.connection ptr
  if !c.isConnected || c.createTime + s.maxAliveTime ≤ s.now || s.maxRequest ≤ c.request then
    s.setPhase k (.retiring ptr)
  else s.setPhase k (.returning ptr)

def step (s : HttpConnectionPool H) : PoolStep H → Option (HttpConnectionPool H)
  | .start k => if s.phase k = .idle then some (s.setPhase k (.started s.now)) else none
  | .sweep k =>
    match s.phase k with
    | .started now =>
      let (invalidConns, ptr, rest) := s.sweepLoop now s.conns
      some ({ s with conns := rest }.setPhase k (.swept invalidConns ptr))
    | _ => none
  | .delete k =>
    match s.phase k with
    | .swept invalidConns ptr =>
      some ({ s with live := s.live \ invalidConns.toFinset }.setPhase k
        (.deleted invalidConns.length ptr))
    | _ => none
  | .subtract k =>
    match s.phase k with
    | .deleted size (some ptr) => some ({ s with total := s.total - size }.hand k ptr)
    | .deleted size none => some ({ s with total := s.total - size }.setPhase k .connecting)
    | _ => none
  | .fail k => if s.phase k = .connecting then some (s.setPhase k .idle) else none
  | .create k =>
    if s.phase k = .connecting then
      some ({ s with
        connection := Function.update s.connection s.fresh { createTime := s.now }
        live := insert s.fresh s.live
        fresh := s.fresh + 1 }.setPhase k (.created s.fresh))
    else none
  | .count k =>
    match s.phase k with
    | .created ptr => some ({ s with total := s.total + 1 }.hand k ptr)
    | _ => none
  | .release k =>
    match s.phase k with
    | .holding ptr => some (s.releasePtr k ptr)
    | _ => none
  | .destroy k =>
    match s.phase k with
    | .retiring ptr => some ({ s with live := s.live.erase ptr }.setPhase k .retired)
    | _ => none
  | .uncount k =>
    if s.phase k = .retired then some ({ s with total := s.total - 1 }.setPhase k .idle) else none
  | .pushBack k =>
    match s.phase k with
    | .returning ptr => some ({ s with conns := s.conns ++ [ptr] }.setPhase k .idle)
    | _ => none
  | .close conn => some (s.modify conn fun c => { c with isConnected := false })
  | .setClock now => some { s with now }

/-- `HttpConnectionPool::HttpConnectionPool` -/
def init (maxSize maxAliveTime maxRequest now : Nat) : HttpConnectionPool H :=
  { maxSize, maxAliveTime, maxRequest, now }

end HttpConnectionPool

end Tigerkin.Http
