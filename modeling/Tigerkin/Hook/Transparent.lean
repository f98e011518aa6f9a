import Tigerkin.Hook.Nonblock

/-! # The hooked functions

The twenty-one wrappers of `hook.cpp` over an environment that has the original functions. A wrapper
returns the state after it and its result, or nothing where it does not return: a recursion without
end, an index out of range, a pointer that cannot be read. Where a wrapper waits, past the
early returns of `doSocketIo` and `connect`, the wait is a parameter of the environment
(`SocketIo` is about it).

With hooks disabled a wrapper is to be the original function. Four are not (`transparent_iff`):
`usleep` calls itself, `fcntl` drops its argument, `accept` registers the descriptor, and `ioctl` does
not ask whether hooks are enabled. -/

namespace Tigerkin.Hook

abbrev Ptr := Nat

/-- The variadic argument of a call. -/
inductive Arg where
  | int (v : BitVec 32)
  | ptr (p : Ptr)
  deriving DecidableEq

/-- A call of a hooked or of an original function. -/
inductive Call where
  | sleep (seconds : UInt32)
  | usleep (usec : UInt32)
  | nanosleep (rqtp rmtp : Ptr)
  | socket (domain type protocol : Int)
  | connect (sockfd : Int) (addr : Ptr) (addrlen : UInt32)
  | accept (sockfd : Int) (addr addrlen : Ptr)
  | read (fd : Int) (buf : Ptr) (count : UInt64)
  | readv (fd : Int) (iov : Ptr) (iovcnt : Int)
  | recv (sockfd : Int) (buf : Ptr) (len : UInt64) (flags : Int)
  | recvfrom (sockfd : Int) (buf : Ptr) (len : UInt64) (flags : Int) (srcAddr addrlen : Ptr)
  | recvmsg (sockfd : Int) (msg : Ptr) (flags : Int)
  | write (fd : Int) (buf : Ptr) (count : UInt64)
  | writev (fd : Int) (iov : Ptr) (iovcnt : Int)
  | send (sockfd : Int) (buf : Ptr) (len : UInt64) (flags : Int)
  | sendto (sockfd : Int) (buf : Ptr) (len : UInt64) (flags : Int) (destAddr : Ptr)
    (addrlen : UInt32)
  | sendmsg (sockfd : Int) (msg : Ptr) (flags : Int)
  | close (fd : Int)
  | fcntl (fd cmd : Int) (arg : Option Arg)
  | ioctl (fd : Int) (request : UInt64) (arg : Option Ptr)
  | getsockopt (sockfd level optname : Int) (optval optlen : Ptr)
  | setsockopt (sockfd level optname : Int) (optval : Ptr) (optlen : UInt32)
  deriving DecidableEq

/-- What a wrapper asks of the original functions and of the I/O manager. -/
inductive Effect where
  | call (c : Call)
  | addTimer (ms : UInt64)
  | yield
  | cancelAllEvent (fd : Int)
  deriving DecidableEq

structure State where
  /-- `t_enable_hook` -/
  enableHook : Bool
  /-- `IOManager::GetThis()` is not null. -/
  iom : Bool
  manager : FdManager
  errno : Int := 0
  trace : List Effect := []

/-- The result of an original function. -/
structure Outcome where
  kernel : Kernel
  value : Int
  errno : Int

structure Env where
  /-- The original functions. -/
  origin : Call → Kernel → Outcome
  /-- The `int` at a pointer, unless it cannot be read. -/
  readInt : Ptr → Option (BitVec 32)
  /-- The two fields of the `timeval` or `timespec` at a pointer. -/
  readTime : Ptr → Option (BitVec 64 × BitVec 64)
  /-- What happens until the coroutine runs again. -/
  yield : State → State
  /-- `doSocketIo` from the loop on, and `connect` from `EINPROGRESS` on. -/
  wait : Call → State → Option (State × Int)

def EBADF : Int := 9
def EINPROGRESS : Int := 115
def SOL_SOCKET : Int := 1
def SO_RCVTIMEO : Int := 20
def SO_SNDTIMEO : Int := 21
def FIONBIO : UInt64 := 0x5421
def F_GETFL : Int := 3
def F_SETFL : Int := 4

/-- `F_DUPFD`, `F_DUPFD_CLOEXEC`, `F_SETFD`, `F_SETOWN`, `F_SETSIG`, `F_SETLEASE`, `F_SETPIPE_SZ`,
`F_ADD_SEALS`, `F_NOTIFY` -/
def intCommands : List Int := [0, 1030, 2, 8, 10, 1024, 1031, 1033, 1026]

/-- `F_SETLK`, `F_SETLKW`, `F_GETLK` and the same of open file descriptions, `F_GETOWN_EX`,
`F_SETOWN_EX`, and the four commands for write hints -/
def ptrCommands : List Int := [6, 7, 5, 37, 38, 36, 16, 15, 1035, 1036, 1037, 1038]

variable (env : Env) (s : State)

/-- The call of the original function. -/
def State.call (c : Call) : State × Int :=
  let r := env.origin c s.manager.kernel
  ({ s with
      manager := { s.manager with kernel := r.kernel }
      errno := r.errno
      trace := s.trace ++ [.call c] }, r.value)

/-- `SingletonFdMgr::GetInstance()->get(fd)` -/
def State.entity (fd : Int) : Option (Option (Nat × FdEntity)) :=
  (s.manager.get fd false).map fun (m, p) => p.bind fun p => (m.entities[p]?).map (p, ·)

/-- `errno = e; return -1;` -/
def State.fail (e : Int) : State × Int := ({ s with errno := e }, -1)

/-- `entity->setRecvTimeout(..)` and the like. -/
def State.setEntity (p : Nat) (f : FdEntity → FdEntity) : State :=
  { s with manager := { s.manager with entities := s.manager.entities.modify p f } }

/-! ## Sleeping -/

/-- The timer that schedules the coroutine again, and `Coroutine::Yield()`. -/
def sleepMs (ms : UInt64) : Option (State × Int) :=
  if s.iom then some (env.yield { s with trace := s.trace ++ [.addTimer ms, .yield] }, 0) else none

def sleep (seconds : UInt32) : Option (State × Int) :=
  if !s.enableHook then some (s.call env (.sleep seconds))
  else sleepMs env s (seconds * 1000).toUInt64

/-- The recursion has as many calls as `fuel` says. -/
def usleep (usec : UInt32) : Nat → Option (State × Int)
  | 0 => none
  | fuel + 1 =>
    if !s.enableHook then usleep usec fuel
    else sleepMs env s (usec / 1000).toUInt64

def nanosleep (rqtp rmtp : Ptr) : Option (State × Int) :=
  if !s.enableHook then some (s.call env (.nanosleep rqtp rmtp))
  else
    match env.readTime rqtp with
    | none => none
    | some (sec, nsec) =>
      let ms := (sec * 1000 + nsec.sdiv 1000000).setWidth 32
      sleepMs env s ⟨ms.signExtend 64⟩

/-! ## Sockets -/

def socket (domain type protocol : Int) : Option (State × Int) :=
  if !s.enableHook then some (s.call env (.socket domain type protocol))
  else
    let (s, fd) := s.call env (.socket domain type protocol)
    if fd = -1 then some (s, fd)
    else
      match s.manager.get fd true with
      | some (m, some p) => (m.entities[p]?).map fun e => ({ s with manager := m }, e.fd)
      | _ => none

def connect (sockfd : Int) (addr : Ptr) (addrlen : UInt32) : Option (State × Int) :=
  let c := Call.connect sockfd addr addrlen
  if !s.enableHook then some (s.call env c)
  else
    match s.entity sockfd with
    | none => none
    | some none => some (s.fail EBADF)
    | some (some (_, e)) =>
      if e.isClosed then some (s.fail EBADF)
      else if !e.isSocket then some (s.call env c)
      else if e.isUserNonblock then some (s.call env c)
      else
        let (s, n) := s.call env c
        if n = 0 then some (s, n)
        else if n ≠ -1 ∨ s.errno ≠ EINPROGRESS then some (s, n)
        else env.wait c s

/-- `doSocketIo` for the original function and the arguments of `c`. -/
def doSocketIo (fd : Int) (c : Call) : Option (State × Int) :=
  if !s.enableHook then some (s.call env c)
  else
    match s.entity fd with
    | none => none
    | some none => some (s.call env c)
    | some (some (_, e)) =>
      if e.isClosed then some (s.fail EBADF)
      else if !e.isSocket || e.isUserNonblock then some (s.call env c)
      else env.wait c s

def accept (sockfd : Int) (addr addrlen : Ptr) : Option (State × Int) :=
  match doSocketIo env s sockfd (.accept sockfd addr addrlen) with
  | none => none
  | some (s, fd) =>
    if 0 ≤ fd then (s.manager.get fd true).map fun (m, _) => ({ s with manager := m }, fd)
    else some (s, fd)

def read (fd : Int) (buf : Ptr) (count : UInt64) : Option (State × Int) :=
  doSocketIo env s fd (.read fd buf count)

def readv (fd : Int) (iov : Ptr) (iovcnt : Int) : Option (State × Int) :=
  doSocketIo env s fd (.readv fd iov iovcnt)

def recv (sockfd : Int) (buf : Ptr) (len : UInt64) (flags : Int) : Option (State × Int) :=
  doSocketIo env s sockfd (.recv sockfd buf len flags)

def recvfrom (sockfd : Int) (buf : Ptr) (len : UInt64) (flags : Int) (srcAddr addrlen : Ptr) :
    Option (State × Int) :=
  doSocketIo env s sockfd (.recvfrom sockfd buf len flags srcAddr addrlen)

def recvmsg (sockfd : Int) (msg : Ptr) (flags : Int) : Option (State × Int) :=
  doSocketIo env s sockfd (.recvmsg sockfd msg flags)

def write (fd : Int) (buf : Ptr) (count : UInt64) : Option (State × Int) :=
  doSocketIo env s fd (.write fd buf count)

def writev (fd : Int) (iov : Ptr) (iovcnt : Int) : Option (State × Int) :=
  doSocketIo env s fd (.writev fd iov iovcnt)

def send (sockfd : Int) (buf : Ptr) (len : UInt64) (flags : Int) : Option (State × Int) :=
  doSocketIo env s sockfd (.send sockfd buf len flags)

def sendto (sockfd : Int) (buf : Ptr) (len : UInt64) (flags : Int) (destAddr : Ptr)
    (addrlen : UInt32) : Option (State × Int) :=
  doSocketIo env s sockfd (.sendto sockfd buf len flags destAddr addrlen)

def sendmsg (sockfd : Int) (msg : Ptr) (flags : Int) : Option (State × Int) :=
  doSocketIo env s sockfd (.sendmsg sockfd msg flags)

def close (fd : Int) : Option (State × Int) :=
  if !s.enableHook then some (s.call env (.close fd))
  else
    match s.entity fd with
    | none => none
    | some none => some (s.call env (.close fd))
    | some (some _) =>
      let s := if s.iom then { s with trace := s.trace ++ [.cancelAllEvent fd] } else s
      (s.manager.del fd).map fun (m, _) => { s with manager := m }.call env (.close fd)

/-! ## Flags and options -/

def fcntl (fd cmd : Int) (arg : Option Arg) : Option (State × Int) :=
  if !s.enableHook then some (s.call env (.fcntl fd cmd none))
  else if cmd = F_SETFL then
    match arg, Nonblock.entity s.manager fd with
    | some (.int arg), some none => some (s.call env (.fcntl fd cmd (some (.int arg))))
    | some (.int arg), some (some (p, e)) =>
      let s := { s with
        manager := Nonblock.setUserNonblock s.manager p (arg &&& O_NONBLOCK ≠ 0) }
      let arg := if e.isSysNonblock then arg ||| O_NONBLOCK else arg &&& 0
      some (s.call env (.fcntl fd cmd (some (.int arg))))
    | _, _ => none
  else if cmd = F_GETFL then
    let (s, flag) := s.call env (.fcntl fd cmd none)
    match Nonblock.entity s.manager fd with
    | none => none
    | some none => some (s, flag)
    | some (some (_, e)) =>
      let flag := BitVec.ofInt 32 flag
      some (s, (if e.isUserNonblock then flag ||| O_NONBLOCK else flag &&& ~~~O_NONBLOCK).toInt)
  else if cmd ∈ intCommands then
    match arg with
    | some (.int arg) => some (s.call env (.fcntl fd cmd (some (.int arg))))
    | _ => none
  else if cmd ∈ ptrCommands then
    match arg with
    | some (.ptr arg) => some (s.call env (.fcntl fd cmd (some (.ptr arg))))
    | _ => none
  else some (s.call env (.fcntl fd cmd none))

def ioctl (fd : Int) (request : UInt64) : Option Ptr → Option (State × Int)
  -- `va_arg` without an argument
  | none => none
  | some arg =>
    if FIONBIO = request then
      match env.readInt arg, Nonblock.entity s.manager fd with
      | some _, some none => some (s.call env (.ioctl fd request (some arg)))
      | some v, some (some (p, _)) =>
        let s := { s with manager := Nonblock.setUserNonblock s.manager p (v ≠ 0) }
        some (s.call env (.ioctl fd request (some arg)))
      | _, _ => none
    else some (s.call env (.ioctl fd request (some arg)))

def getsockopt (sockfd level optname : Int) (optval optlen : Ptr) : Option (State × Int) :=
  some (s.call env (.getsockopt sockfd level optname optval optlen))

def setsockopt (sockfd level optname : Int) (optval : Ptr) (optlen : UInt32) :
    Option (State × Int) :=
  let c := Call.setsockopt sockfd level optname optval optlen
  if !s.enableHook then some (s.call env c)
  else if level = SOL_SOCKET then
    match s.entity sockfd with
    | none => none
    | some e =>
      if optname = SO_RCVTIMEO then
        match e, env.readTime optval with
        | some (p, _), some (sec, usec) =>
          let s := s.setEntity p fun e => { e with recvTimeout := ⟨sec * 1000 + usec⟩ }
          some (s.call env c)
        | _, _ => none
      else if optname = SO_SNDTIMEO then
        match e, env.readTime optval with
        | some (p, _), some (sec, usec) =>
          let s := s.setEntity p fun e => { e with sendTimeout := ⟨sec * 1000 + usec⟩ }
          some (s.call env c)
        | _, _ => none
      else some (s.call env c)
  else some (s.call env c)

/-- The wrapper of the function that `c` calls. -/
def hook (fuel : Nat) : Call → Option (State × Int)
  | .sleep seconds => sleep env s seconds
  | .usleep usec => usleep env s usec fuel
  | .nanosleep rqtp rmtp => nanosleep env s rqtp rmtp
  | .socket domain type protocol => socket env s domain type protocol
  | .connect sockfd addr addrlen => connect env s sockfd addr addrlen
  | .accept sockfd addr addrlen => accept env s sockfd addr addrlen
  | .read fd buf count => read env s fd buf count
  | .readv fd iov iovcnt => readv env s fd iov iovcnt
  | .recv sockfd buf len flags => recv env s sockfd buf len flags
  | .recvfrom sockfd buf len flags srcAddr addrlen =>
    recvfrom env s sockfd buf len flags srcAddr addrlen
  | .recvmsg sockfd msg flags => recvmsg env s sockfd msg flags
  | .write fd buf count => write env s fd buf count
  | .writev fd iov iovcnt => writev env s fd iov iovcnt
  | .send sockfd buf len flags => send env s sockfd buf len flags
  | .sendto sockfd buf len flags destAddr addrlen =>
    sendto env s sockfd buf len flags destAddr addrlen
  | .sendmsg sockfd msg flags => sendmsg env s sockfd msg flags
  | .close fd => close env s fd
  | .fcntl fd cmd arg => fcntl env s fd cmd arg
  | .ioctl fd request arg => ioctl env s fd request arg
  | .getsockopt sockfd level optname optval optlen =>
    getsockopt env s sockfd level optname optval optlen
  | .setsockopt sockfd level optname optval optlen =>
    setsockopt env s sockfd level optname optval optlen

/-! ## The non-blocking modes -/

section
variable {env s}

/-- Over an original `fcntl` that is the kernel's, `F_SETFL` is as in `Nonblock`. -/
theorem fcntl_setfl (hs : s.enableHook = true) (horigin : ∀ arg k,
      env.origin (.fcntl fd F_SETFL (some (.int arg))) k =
        ⟨(k.fcntlSetfl fd arg).1, (k.fcntlSetfl fd arg).2.toInt, e⟩) (arg : BitVec 32) :
    (fcntl env s fd F_SETFL (some (.int arg))).map (fun r => (r.1.manager, r.2)) =
      (Nonblock.fcntlSetfl s.manager fd arg).map fun r => (r.1, r.2.2.toInt) := by
  simp only [fcntl, hs, Bool.not_true, Bool.false_eq_true, if_false, if_true]
  unfold Nonblock.fcntlSetfl
  cases Nonblock.entity s.manager fd with
  | none => rfl
  | some x =>
    cases x with
    | none => simp only [State.call, horigin, Option.map_some]
    | some x => simp only [State.call, horigin, Option.map_some]

theorem ioctl_fionbio {v : BitVec 32} (hv : env.readInt arg = some v) (horigin : ∀ k,
      env.origin (.ioctl fd FIONBIO (some arg)) k =
        ⟨(k.fionbio fd v).1, (k.fionbio fd v).2.toInt, e⟩) :
    (ioctl env s fd FIONBIO (some arg)).map (fun r => (r.1.manager, r.2)) =
      (Nonblock.ioctl s.manager fd v).map fun r => (r.1, r.2.toInt) := by
  simp only [ioctl, hv, if_true]
  unfold Nonblock.ioctl
  cases Nonblock.entity s.manager fd with
  | none => rfl
  | some x =>
    cases x with
    | none => simp only [State.call, horigin, Option.map_some]
    | some x => simp only [State.call, horigin, Option.map_some]

end

/-! ## Transparency -/

/-- The wrapper returns, after one call of the original function with its own arguments and with
nothing else changed. -/
def Transparent (c : Call) : Prop := ∃ fuel, hook env s fuel c = some (s.call env c)

/-- The condition for a wrapper to be transparent on a thread whose hooks are disabled. -/
def PassesThrough : Call → Prop
  | .usleep _ => False
  | .fcntl _ _ arg => arg = none
  | .accept sockfd addr addrlen =>
    let (s, fd) := s.call env (.accept sockfd addr addrlen)
    0 ≤ fd → ∃ p, s.manager.get fd false = some (s.manager, some p)
  | .ioctl fd request arg => ∃ p, arg = some p ∧ (request = FIONBIO →
      ∃ v e, env.readInt p = some v ∧ Nonblock.entity s.manager fd = some e ∧
        ∀ x ∈ e, x.2.isUserNonblock = decide (v ≠ 0))
  | _ => True

variable {env : Env} {s : State}

/-- With hooks disabled `usleep` never returns. -/
theorem usleep_eq_none (hs : s.enableHook = false) (usec : UInt32) (fuel : Nat) :
    usleep env s usec fuel = none := by
  induction fuel with
  | zero => rfl
  | succ fuel ih => simp only [usleep, hs, Bool.not_false, if_true, ih]

theorem call_injective (h : s.call env c = s.call env c') : c = c' := by
  have h := congrArg (fun r => r.1.trace) h
  simpa [State.call] using h

theorem fcntl_iff (hs : s.enableHook = false) (fd cmd : Int) (arg : Option Arg) :
    fcntl env s fd cmd arg = some (s.call env (.fcntl fd cmd arg)) ↔ arg = none := by
  have hcall : fcntl env s fd cmd arg = some (s.call env (.fcntl fd cmd none)) := by
    simp [fcntl, hs]
  rw [hcall, Option.some.injEq]
  constructor
  · intro h
    have h := call_injective h
    cases h
    rfl
  · rintro rfl
    rfl

theorem get_false_eq {m : FdManager} {fd : Int} (h : m.get fd false = some (m', p)) : m' = m := by
  rw [FdManager.get_false] at h
  obtain ⟨q, -, heq⟩ := Option.map_eq_some_iff.mp h
  cases heq
  rfl

theorem get_true_eq (m : FdManager) (fd : Int) :
    m.get fd true = match m.get fd false with
      | some (_, none) => m.add fd
      | r => r := by
  unfold FdManager.get
  split
  · rfl
  · split
    · rfl
    · rfl
    · rfl

theorem add_entities {m : FdManager} {fd : Int} (h : m.add fd = some (m', p)) :
    m'.entities.length = m.entities.length + 1 := by
  unfold FdManager.add at h
  split at h
  · dsimp only at h
    split at h
    · cases h
    · cases h
      simp
  · dsimp only at h
    split at h
    · cases h
    · cases h
      simp

/-- `get(fd, true)` changes nothing exactly if there is an entity. -/
theorem register_iff (s : State) (fd : Int) :
    (s.manager.get fd true).map (fun x => ({ s with manager := x.1 }, fd)) = some (s, fd) ↔
      ∃ p, s.manager.get fd false = some (s.manager, some p) := by
  rw [get_true_eq]
  cases hget : s.manager.get fd false with
  | none => simp
  | some r =>
    obtain ⟨m, p⟩ := r
    obtain rfl := get_false_eq hget
    cases p with
    | some p => simp
    | none =>
      refine iff_of_false (fun h => ?_) (by simp)
      obtain ⟨r, hadd, h⟩ := Option.map_eq_some_iff.mp h
      have hlen := add_entities hadd
      have hm : r.1 = s.manager := congrArg (fun x => x.1.manager) h
      rw [hm] at hlen
      omega

theorem accept_iff (hs : s.enableHook = false) (sockfd : Int) (addr addrlen : Ptr) :
    accept env s sockfd addr addrlen = some (s.call env (.accept sockfd addr addrlen)) ↔
      PassesThrough env s (.accept sockfd addr addrlen) := by
  have hio : doSocketIo env s sockfd (.accept sockfd addr addrlen) =
      some (s.call env (.accept sockfd addr addrlen)) := by
    simp [doSocketIo, hs]
  unfold accept
  rw [hio, PassesThrough]
  generalize s.call env (.accept sockfd addr addrlen) = r
  obtain ⟨t, fd⟩ := r
  dsimp only
  split
  · rename_i h0
    rw [register_iff]
    exact ⟨fun h _ => h, fun h => h h0⟩
  · rename_i h0
    exact iff_of_true rfl fun h => absurd h h0

/-- Setting the user's mode of an entity changes nothing exactly if the mode is set already. -/
theorem setUserNonblock_eq_iff {m : FdManager} (he : m.entities[p]? = some e) (flag : Bool) :
    Nonblock.setUserNonblock m p flag = m ↔ e.isUserNonblock = flag := by
  constructor
  · intro h
    have h := congrArg (fun m => m.entities[p]?) h
    simp only [Nonblock.setUserNonblock, List.getElem?_modify_eq, he] at h
    exact (congrArg FdEntity.isUserNonblock (Option.some.inj h)).symm
  · rintro rfl
    have h : m.entities.modify p (fun e' => { e' with isUserNonblock := e.isUserNonblock }) =
        m.entities := by
      apply List.ext_getElem?
      intro i
      rw [List.getElem?_modify]
      by_cases hi : p = i
      · subst hi
        rw [he]
        simp
      · simp [hi]
    rw [Nonblock.setUserNonblock, h]

theorem entity_mem {m : FdManager} {fd : Int} (h : Nonblock.entity m fd = some (some (p, e))) :
    m.entities[p]? = some e := by
  unfold Nonblock.entity at h
  obtain ⟨⟨m', q⟩, hget, hfilter⟩ := Option.map_eq_some_iff.mp h
  obtain rfl := get_false_eq hget
  obtain ⟨hbind, -⟩ := Option.filter_eq_some_iff.mp hfilter
  obtain ⟨q, -, hmap⟩ := Option.bind_eq_some_iff.mp hbind
  obtain ⟨e', he, hpair⟩ := Option.map_eq_some_iff.mp hmap
  cases hpair
  exact he

theorem call_manager_eq_iff (env : Env) (s : State) (m : FdManager)
    (hm : m.kernel = s.manager.kernel) (c : Call) :
    { s with manager := m }.call env c = s.call env c ↔ m = s.manager := by
  constructor
  · intro h
    have h := congrArg (fun r => r.1.manager) h
    simp only [State.call, FdManager.mk.injEq, hm, true_and] at h
    cases m
    cases hs : s.manager
    simp_all
  · rintro rfl
    rfl

theorem ioctl_iff (fd : Int) (request : UInt64) (arg : Option Ptr) :
    ioctl env s fd request arg = some (s.call env (.ioctl fd request arg)) ↔
      PassesThrough env s (.ioctl fd request arg) := by
  cases arg with
  | none => simp [ioctl, PassesThrough]
  | some arg =>
    by_cases hreq : FIONBIO = request
    · subst hreq
      simp only [ioctl, PassesThrough, if_true, Option.some.injEq, exists_eq_left', forall_const]
      cases hv : env.readInt arg with
      | none => simp
      | some v =>
        cases he : Nonblock.entity s.manager fd with
        | none => simp
        | some x =>
          cases x with
          | none => simp
          | some x =>
            obtain ⟨p, e⟩ := x
            have hset := setUserNonblock_eq_iff (entity_mem he) (decide (v ≠ 0))
            dsimp only
            rw [Option.some.injEq, call_manager_eq_iff env s
              (Nonblock.setUserNonblock s.manager p (decide (v ≠ 0))) rfl, hset]
            simp
    · rw [ioctl, if_neg hreq]
      exact iff_of_true rfl ⟨arg, rfl, fun h => absurd h.symm hreq⟩

theorem transparent_const {c : Call} {r : Option (State × Int)} (h : ∀ fuel, hook env s fuel c = r) :
    Transparent env s c ↔ r = some (s.call env c) := by
  simp only [Transparent, h, exists_const]

/-- **Hook transparency**: with hooks disabled a wrapper is the original function exactly under
`PassesThrough`. -/
theorem transparent_iff (hs : s.enableHook = false) (c : Call) :
    Transparent env s c ↔ PassesThrough env s c := by
  have hio : ∀ fd c, doSocketIo env s fd c = some (s.call env c) := by
    intro fd c
    simp [doSocketIo, hs]
  cases c with
  | usleep usec =>
    refine iff_of_false ?_ id
    rintro ⟨fuel, h⟩
    rw [hook, usleep_eq_none hs] at h
    cases h
  | fcntl fd cmd arg =>
    exact (transparent_const fun _ => rfl).trans (fcntl_iff hs fd cmd arg)
  | accept sockfd addr addrlen =>
    exact (transparent_const fun _ => rfl).trans (accept_iff hs sockfd addr addrlen)
  | ioctl fd request arg =>
    exact (transparent_const fun _ => rfl).trans (ioctl_iff fd request arg)
  | sleep seconds => exact iff_of_true ⟨0, by simp [hook, sleep, hs]⟩ trivial
  | nanosleep rqtp rmtp => exact iff_of_true ⟨0, by simp [hook, nanosleep, hs]⟩ trivial
  | socket domain type protocol => exact iff_of_true ⟨0, by simp [hook, socket, hs]⟩ trivial
  | connect sockfd addr addrlen => exact iff_of_true ⟨0, by simp [hook, connect, hs]⟩ trivial
  | close fd => exact iff_of_true ⟨0, by simp [hook, close, hs]⟩ trivial
  | getsockopt sockfd level optname optval optlen => exact iff_of_true ⟨0, rfl⟩ trivial
  | setsockopt sockfd level optname optval optlen =>
    exact iff_of_true ⟨0, by simp [hook, setsockopt, hs]⟩ trivial
  | read | readv | recv | recvfrom | recvmsg | write | writev | send | sendto | sendmsg =>
    exact iff_of_true ⟨0, hio _ _⟩ trivial

/-- A thread whose hooks are disabled, over a kernel in which descriptor 3 is a blocking socket. -/
def disabled : State where
  enableHook := false
  iom := false
  manager := FdManager.init Nonblock.oneSocket

/-- `accept` returns that socket, and the other calls succeed. -/
def accepting : Env where
  origin c k := match c with
    | .accept .. => ⟨k, 3, 0⟩
    | _ => ⟨k, 0, 0⟩
  readInt _ := none
  readTime _ := none
  yield s := s
  wait _ _ := none

/-- `usleep(1000)` does not return, `fcntl(3, F_SETFL, O_RDWR | O_NONBLOCK)` drops the flags, and
`accept` makes the new socket non-blocking. -/
theorem wrappers_not_transparent : disabled.enableHook = false ∧
    ¬Transparent accepting disabled (.usleep 1000) ∧
    ¬Transparent accepting disabled (.fcntl 3 F_SETFL (some (.int 2050))) ∧
    ¬Transparent accepting disabled (.accept 4 0 0) ∧
    (accept accepting disabled 4 0 0).any (fun r =>
      (r.1.manager.kernel.descriptors 3).any fun d => d.flags = 2050) = true := by
  refine ⟨rfl, ?_, fun h => ?_, fun h => ?_, by decide⟩
  · rintro ⟨fuel, h⟩
    rw [hook, usleep_eq_none rfl] at h
    cases h
  · have h := (fcntl_iff rfl _ _ _).mp ((transparent_const fun _ => rfl).mp h)
    cases h
  · have h := (accept_iff rfl _ _ _).mp ((transparent_const fun _ => rfl).mp h)
    obtain ⟨p, hget⟩ := h (by decide)
    have h : some none = some (some p) := congrArg (Option.map Prod.snd) hget
    cases h

/-- `F_GETFL` passes through, without an argument only. -/
theorem transparent_iff_getfl :
    Transparent accepting disabled (.fcntl 3 F_GETFL none) ∧
      ¬Transparent accepting disabled (.fcntl 3 F_GETFL (some (.int 0))) :=
  ⟨(transparent_iff rfl _).mpr rfl, fun h => nomatch (transparent_iff rfl _).mp h⟩

end Tigerkin.Hook
