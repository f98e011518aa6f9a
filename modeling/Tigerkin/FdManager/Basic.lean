import Mathlib.Algebra.Group.Int.Defs
import Mathlib.Algebra.Group.Nat.Defs
import Mathlib.Data.List.Basic

/-! # The descriptor manager

`FdEntity` and `FdManager` of `fdmanager.cpp`, over a kernel that is reached through `fstat` and the
original `fcntl`. A shared pointer to an entity is its number in `entities`, the list of all
entities that were ever created; the entries of `m_data` are such pointers or null. -/

namespace Tigerkin

def O_NONBLOCK : BitVec 32 := 0x800

/-- What the kernel knows of an open descriptor: `S_ISSOCK(st_mode)` and the file status flags. -/
structure Descriptor where
  isSocket : Bool
  flags : BitVec 32

/-- The open descriptors, and the flags that `F_SETFL` leaves for given flags and a given argument,
unless it fails. -/
structure Kernel where
  descriptors : Int → Option Descriptor
  setfl : BitVec 32 → BitVec 32 → Option (BitVec 32)
  setfl_nonblock : setfl flags arg = some flags' → flags' &&& O_NONBLOCK = arg &&& O_NONBLOCK
  setfl_or : (setfl flags (flags ||| O_NONBLOCK)).isSome

/-- A kernel that takes over the flags that it is given. -/
theorem nonblock_of_accepted {flags' arg : BitVec 32} (h : some arg = some flags') :
    flags' &&& O_NONBLOCK = arg &&& O_NONBLOCK :=
  congrArg (· &&& O_NONBLOCK) (Option.some.inj h).symm

theorem isSome_accepted {flags : BitVec 32} : (some (flags ||| O_NONBLOCK)).isSome :=
  rfl

structure FdEntity where
  recvTimeout : UInt64 := 0
  sendTimeout : UInt64 := 0
  connectTimeout : UInt64 := 0
  fd : Int := 0
  isInit : Bool := false
  isSysNonblock : Bool := false
  isUserNonblock : Bool := false
  isSocket : Bool := false
  isClosed : Bool := false

namespace Kernel

/-- `fcntl_f(fd, F_GETFL)`, -1 for a descriptor that is not open. -/
def getfl (k : Kernel) (fd : Int) : BitVec 32 :=
  match k.descriptors fd with
  | some d => d.flags
  | none => -1

def setFlags (k : Kernel) (fd : Int) (d : Descriptor) (flags : BitVec 32) : Kernel :=
  { k with descriptors := fun i => if i = fd then some { d with flags } else k.descriptors i }

/-- `fcntl_f(fd, F_SETFL, arg)` -/
def fcntlSetfl (k : Kernel) (fd : Int) (arg : BitVec 32) : Kernel × BitVec 32 :=
  match k.descriptors fd with
  | some d =>
    match k.setfl d.flags arg with
    | some flags => (k.setFlags fd d flags, 0)
    | none => (k, -1)
  | none => (k, -1)

end Kernel

namespace FdEntity

/-- `FdEntity::init` -/
def init (e : FdEntity) (k : Kernel) : Kernel × FdEntity :=
  if e.isInit then (k, e)
  else
    let e := { e with recvTimeout := -1, sendTimeout := -1 }
    let e := match k.descriptors e.fd with
      | none => { e with isInit := false, isSocket := false, isClosed := true }
      | some d => { e with isInit := true, isSocket := d.isSocket }
    if e.isSocket then
      let flags := k.getfl e.fd
      let k := if flags &&& O_NONBLOCK = 0 then (k.fcntlSetfl e.fd (flags ||| O_NONBLOCK)).1 else k
      (k, { e with isSysNonblock := true, isClosed := false, isUserNonblock := false })
    else (k, { e with isSysNonblock := false, isClosed := false, isUserNonblock := false })

/-- `FdEntity::FdEntity` -/
def make (fd : Int) (k : Kernel) : Kernel × FdEntity := init { fd } k

/-- `FdEntity::getConnectTimeout`, for the value of `tigerkin.socket.tcpConnectTimeout`. -/
def getConnectTimeout (e : FdEntity) (tcpConnectTimeout : UInt64) : UInt64 :=
  if e.connectTimeout ≤ 0 then tcpConnectTimeout else e.connectTimeout

end FdEntity

structure FdManager where
  kernel : Kernel
  entities : List FdEntity := []
  data : List (Option Nat) := List.replicate 60 none

namespace FdManager

/-- `(int)m_data.size()` -/
def size (m : FdManager) : Int := (m.data.length : Int).bmod (2 ^ 32)

/-- `m_data[fd]`, where an index out of range is undefined behaviour. -/
def index (m : FdManager) (fd : Int) : Option (Option Nat) :=
  if 0 ≤ fd then m.data[fd.toNat]? else none

/-- The comparison of `m_data.size() * 1.5` with `fd` is one of `double`s, and `resize` drops the
fraction. -/
def grow (m : FdManager) (fd : Int) : FdManager :=
  let n := if 2 * fd < 3 * m.data.length then 3 * m.data.length / 2 else fd.toNat
  { m with data := m.data.take n ++ List.replicate (n - m.data.length) none }

/-- `FdManager::add` -/
def add (m : FdManager) (fd : Int) : Option (FdManager × Option Nat) :=
  let m := if fd ≥ m.size then m.grow fd else m
  let (kernel, e) := FdEntity.make fd m.kernel
  let p := m.entities.length
  match m.index fd with
  | none => none
  | some _ => some ({ m with
      kernel, entities := m.entities ++ [e], data := m.data.set fd.toNat (some p) }, some p)

/-- `FdManager::get` -/
def get (m : FdManager) (fd : Int) (autoCreate : Bool) : Option (FdManager × Option Nat) :=
  if fd ≥ m.size then
    if autoCreate then m.add fd else some (m, none)
  else
    match m.index fd with
    | none => none
    | some (some p) => some (m, some p)
    | some none => if autoCreate then m.add fd else some (m, none)

/-- `FdManager::del` -/
def del (m : FdManager) (fd : Int) : Option (FdManager × Option Nat) :=
  if fd ≥ m.size then some (m, none)
  else
    match m.index fd with
    | none => none
    | some _ => some ({ m with data := m.data.set fd.toNat none }, none)

end FdManager

/-! ## Callers -/

/-- The descriptor of a `Socket`, -1 before it is opened. -/
structure Socket where
  socket : Int := -1

namespace Socket

/-- The timeout getters of `Socket`; -1 where the manager has no entity. -/
def timeout (s : Socket) (m : FdManager) (f : FdEntity → UInt64) : Option Int :=
  (m.get s.socket false).map fun (m, p) =>
    match p.bind (m.entities[·]?) with
    | some e => (f e).toBitVec.toInt
    | none => -1

def getSendTimeout (s : Socket) (m : FdManager) : Option Int := s.timeout m (·.sendTimeout)

def getRecvTimeout (s : Socket) (m : FdManager) : Option Int := s.timeout m (·.recvTimeout)

def getConnectTimeout (s : Socket) (m : FdManager) (tcpConnectTimeout : UInt64) : Option Int :=
  s.timeout m (·.getConnectTimeout tcpConnectTimeout)

end Socket

end Tigerkin
