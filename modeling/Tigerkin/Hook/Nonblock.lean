import Tigerkin.FdManager.PartialMap

/-! # The two non-blocking modes of a socket

The hooked `fcntl` with `F_SETFL` and `F_GETFL` and the hooked `ioctl` with `FIONBIO`, on a thread
whose hook is enabled. The three share the test `!fdEntity->isClosed()`, which sends every open
socket past the bookkeeping (`allCorrect_iff_refused`). -/

namespace Tigerkin

/-- `ioctl_f(fd, FIONBIO, &arg)` -/
def Kernel.fionbio (k : Kernel) (fd : Int) (arg : BitVec 32) : Kernel × BitVec 32 :=
  match k.descriptors fd with
  | some d =>
    (k.setFlags fd d (if arg ≠ 0 then d.flags ||| O_NONBLOCK else d.flags &&& ~~~O_NONBLOCK), 0)
  | none => (k, -1)

namespace Nonblock

inductive Call where
  | setfl (arg : BitVec 32)
  | getfl
  | fionbio (arg : BitVec 32)

/-- The entity that passes the test `!fdEntity || !fdEntity->isSocket() || !fdEntity->isClosed()`. -/
def entity (m : FdManager) (fd : Int) : Option (Option (Nat × FdEntity)) :=
  (m.get fd false).map fun (m, p) =>
    (p.bind fun p => (m.entities[p]?).map (p, ·)).filter fun (_, e) => e.isSocket && e.isClosed

/-- `fdEntity->setUserNonblock(flag)` -/
def setUserNonblock (m : FdManager) (p : Nat) (flag : Bool) : FdManager :=
  { m with entities := m.entities.modify p fun e => { e with isUserNonblock := flag } }

/-- `fcntl(fd, F_SETFL, arg)`: the manager afterwards, what is handed to the original `fcntl`, and the
result. `!O_NONBLOCK` is zero. -/
def fcntlSetfl (m : FdManager) (fd : Int) (arg : BitVec 32) :
    Option (FdManager × BitVec 32 × BitVec 32) :=
  match entity m fd with
  | none => none
  | some none =>
    let (kernel, r) := m.kernel.fcntlSetfl fd arg
    some ({ m with kernel }, arg, r)
  | some (some (p, e)) =>
    let m := setUserNonblock m p (arg &&& O_NONBLOCK ≠ 0)
    let arg := if e.isSysNonblock then arg ||| O_NONBLOCK else arg &&& 0
    let (kernel, r) := m.kernel.fcntlSetfl fd arg
    some ({ m with kernel }, arg, r)

/-- `fcntl(fd, F_GETFL)` -/
def fcntlGetfl (m : FdManager) (fd : Int) : Option (BitVec 32) :=
  let flag := m.kernel.getfl fd
  match entity m fd with
  | none => none
  | some none => some flag
  | some (some (_, e)) =>
    some (if e.isUserNonblock then flag ||| O_NONBLOCK else flag &&& ~~~O_NONBLOCK)

/-- `ioctl(fd, FIONBIO, &arg)` -/
def ioctl (m : FdManager) (fd : Int) (arg : BitVec 32) : Option (FdManager × BitVec 32) :=
  let block : Bool := arg ≠ 0
  match entity m fd with
  | none => none
  | some none =>
    let (kernel, r) := m.kernel.fionbio fd arg
    some ({ m with kernel }, r)
  | some (some (p, _)) =>
    let m := setUserNonblock m p block
    let (kernel, r) := m.kernel.fionbio fd arg
    some ({ m with kernel }, r)

/-- A call, with what the law speaks of: the other flags that `F_SETFL` hands on, and the
`O_NONBLOCK` bit that `F_GETFL` reports. -/
def Step (fd : Int) (m : FdManager) : Call → FdManager → BitVec 32 → Prop
  | .setfl arg, m', r => ∃ arg' r', fcntlSetfl m fd arg = some (m', arg', r') ∧
      r = arg' &&& ~~~O_NONBLOCK
  | .getfl, m', r => m' = m ∧ ∃ flag, fcntlGetfl m fd = some flag ∧ r = flag &&& O_NONBLOCK
  | .fionbio arg, m', r => (∃ r', ioctl m fd arg = some (m', r')) ∧ r = 0

/-! ## The law -/

/-- The mode that the user has asked for last, and what a call is to hand on or report. -/
def spec (mode : Bool) : Call → Bool × BitVec 32
  | .setfl arg => (arg &&& O_NONBLOCK ≠ 0, arg &&& ~~~O_NONBLOCK)
  | .getfl => (mode, if mode then O_NONBLOCK else 0)
  | .fionbio arg => (arg ≠ 0, 0)

/-- The descriptor is non-blocking for the kernel, and its entity knows the mode of the user. -/
structure Law (fd : Int) (p : Nat) (m : FdManager) (mode : Bool) : Prop where
  kernel : ∃ d, m.kernel.descriptors fd = some d ∧ d.flags &&& O_NONBLOCK ≠ 0
  user : (m.entities[p]?).map (·.isUserNonblock) = some mode

/-- The entity `p` of the manager is the one that was made for the open socket `fd`, and nothing has
changed it or the descriptor since. -/
structure Managed (fd : Int) (p : Nat) (m : FdManager) : Prop where
  get : m.get fd false = some (m, some p)
  made : ∃ k d, k.descriptors fd = some d ∧ d.isSocket = true ∧
    m.kernel = (FdEntity.make fd k).1 ∧ m.entities[p]? = some (FdEntity.make fd k).2

/-- An `F_SETFL` without `O_NONBLOCK` that the kernel refuses. -/
def Refused (fd : Int) (m : FdManager) (c : Call) : Prop :=
  ∃ arg d, c = .setfl arg ∧ arg &&& O_NONBLOCK = 0 ∧ m.kernel.descriptors fd = some d ∧
    m.kernel.setfl d.flags arg = none

variable {m m' : FdManager} {fd : Int} {p : Nat} {mode : Bool} {c : Call} {r : BitVec 32}

theorem or_and_nonblock (f : BitVec 32) : (f ||| O_NONBLOCK) &&& O_NONBLOCK = O_NONBLOCK := by
  ext i
  simp only [BitVec.getElem_and, BitVec.getElem_or]
  cases f[i] <;> cases O_NONBLOCK[i] <;> rfl

theorem clear_and_nonblock (f : BitVec 32) : (f &&& ~~~O_NONBLOCK) &&& O_NONBLOCK = 0 := by
  ext i
  simp only [BitVec.getElem_and, BitVec.getElem_not]
  cases f[i] <;> cases O_NONBLOCK[i] <;> simp

theorem nonblock_ne_zero : O_NONBLOCK ≠ 0 := by decide

/-! ## The entity of a new socket -/

/-- `FdEntity::init` leaves a socket non-blocking, and open. -/
theorem make_socket {k : Kernel} {d : Descriptor} (hd : k.descriptors fd = some d)
    (hs : d.isSocket = true) :
    (∃ d', (FdEntity.make fd k).1.descriptors fd = some d' ∧ d'.flags &&& O_NONBLOCK ≠ 0) ∧
    (FdEntity.make fd k).2.isClosed = false ∧ (FdEntity.make fd k).2.isUserNonblock = false := by
  have hmake : FdEntity.make fd k = (if d.flags &&& O_NONBLOCK = 0 then
      (k.fcntlSetfl fd (d.flags ||| O_NONBLOCK)).1 else k,
      { fd, recvTimeout := -1, sendTimeout := -1, isInit := true, isSocket := true,
        isSysNonblock := true }) := by
    simp [FdEntity.make, FdEntity.init, Kernel.getfl, hd, hs]
  rw [hmake]
  refine ⟨?_, rfl, rfl⟩
  dsimp only
  split
  · obtain ⟨flags, hflags⟩ : ∃ flags, k.setfl d.flags (d.flags ||| O_NONBLOCK) = some flags :=
      Option.isSome_iff_exists.mp k.setfl_or
    refine ⟨{ d with flags }, by simp [Kernel.fcntlSetfl, Kernel.setFlags, hd, hflags], ?_⟩
    rw [k.setfl_nonblock hflags, or_and_nonblock]
    exact nonblock_ne_zero
  · exact ⟨d, hd, ‹_›⟩

theorem Managed.law (H : Managed fd p m) : Law fd p m false := by
  obtain ⟨k, d, hd, hs, hk, he⟩ := H.made
  obtain ⟨⟨d', hd', hflag⟩, -, huser⟩ := make_socket hd hs
  exact ⟨⟨d', hk ▸ hd', hflag⟩, by rw [he, Option.map_some, huser]⟩

/-- What `get(fd, true)` creates for an open socket is managed. -/
theorem managed_of_get {d : Descriptor} (hm : m.Fits) (h0 : 0 ≤ fd) (hroom : m.RoomFor fd)
    (hnew : m.lookup fd.toNat = none) (hd : m.kernel.descriptors fd = some d)
    (hs : d.isSocket = true) :
    ∃ m', m.get fd true = some (m', some m.entities.length) ∧
      Managed fd m.entities.length m' := by
  obtain ⟨m', hext, hadd⟩ := hm.add_eq h0 hroom
  refine ⟨m'.place fd, ?_, ?_, m.kernel, d, hd, hs, ?_, ?_⟩
  · rw [hm.get_eq h0, hnew, ← hadd]
    rfl
  · rw [(hext.fits.place fd).get_eq h0, FdManager.place_lookup h0 hext.lt, if_pos rfl,
      hext.entities]
  · rw [FdManager.place, hext.kernel]
  · simp [FdManager.place, hext.kernel, hext.entities]

/-! ## Calls on a managed socket -/

/-- What no call changes: the manager has the entity, which is not closed, and the user's mode in it
is off. -/
structure Bypassed (fd : Int) (p : Nat) (m : FdManager) : Prop where
  get : m.get fd false = some (m, some p)
  entity : ∃ e, m.entities[p]? = some e ∧ e.isClosed = false ∧ e.isUserNonblock = false
  kernel : ∃ d, m.kernel.descriptors fd = some d

theorem Managed.bypassed (H : Managed fd p m) : Bypassed fd p m := by
  obtain ⟨k, d, hd, hs, hk, he⟩ := H.made
  obtain ⟨⟨d', hd', -⟩, hclosed, huser⟩ := make_socket hd hs
  exact ⟨H.get, ⟨_, he, hclosed, huser⟩, ⟨d', hk ▸ hd'⟩⟩

/-- An open entity does not pass the test. -/
theorem Bypassed.entity_eq (H : Bypassed fd p m) : Nonblock.entity m fd = some none := by
  obtain ⟨e, he, hclosed, -⟩ := H.entity
  simp [Nonblock.entity, H.get, he, Option.filter, hclosed]

theorem get_kernel (k : Kernel) (h : m.get fd false = some (m, q)) :
    FdManager.get { m with kernel := k } fd false = some ({ m with kernel := k }, q) := by
  rw [FdManager.get_false] at h ⊢
  obtain ⟨p, hp, heq⟩ := Option.map_eq_some_iff.mp h
  cases heq
  exact Option.map_eq_some_iff.mpr ⟨q, hp, rfl⟩

theorem Bypassed.fcntlSetfl (H : Bypassed fd p m) (arg : BitVec 32) :
    Nonblock.fcntlSetfl m fd arg = some ({ m with kernel := (m.kernel.fcntlSetfl fd arg).1 }, arg,
      (m.kernel.fcntlSetfl fd arg).2) := by
  rw [Nonblock.fcntlSetfl, H.entity_eq]

theorem Bypassed.fcntlGetfl (H : Bypassed fd p m) :
    Nonblock.fcntlGetfl m fd = some (m.kernel.getfl fd) := by
  rw [Nonblock.fcntlGetfl, H.entity_eq]

theorem Bypassed.ioctl (H : Bypassed fd p m) (arg : BitVec 32) :
    Nonblock.ioctl m fd arg = some ({ m with kernel := (m.kernel.fionbio fd arg).1 },
      (m.kernel.fionbio fd arg).2) := by
  rw [Nonblock.ioctl, H.entity_eq]

theorem Bypassed.withKernel (H : Bypassed fd p m) {k : Kernel}
    (hk : ∃ d, k.descriptors fd = some d) : Bypassed fd p { m with kernel := k } :=
  ⟨get_kernel k H.get, H.entity, hk⟩

theorem setfl_descriptors {k : Kernel} (h : ∃ d, k.descriptors fd = some d) (arg : BitVec 32) :
    ∃ d, (k.fcntlSetfl fd arg).1.descriptors fd = some d := by
  obtain ⟨d, hd⟩ := h
  cases hf : k.setfl d.flags arg with
  | none => exact ⟨d, by simp [Kernel.fcntlSetfl, hd, hf]⟩
  | some flags => exact ⟨{ d with flags }, by simp [Kernel.fcntlSetfl, Kernel.setFlags, hd, hf]⟩

theorem Bypassed.step (H : Bypassed fd p m) (h : Step fd m c m' r) : Bypassed fd p m' := by
  cases c with
  | setfl arg =>
    obtain ⟨arg', r', h, -⟩ := h
    rw [H.fcntlSetfl] at h
    cases h
    exact H.withKernel (setfl_descriptors H.kernel arg)
  | getfl => exact h.1 ▸ H
  | fionbio arg =>
    obtain ⟨⟨r', h⟩, -⟩ := h
    rw [H.ioctl] at h
    cases h
    obtain ⟨d, hd⟩ := H.kernel
    refine H.withKernel ?_
    unfold Kernel.fionbio
    rw [hd]
    exact ⟨_, if_pos rfl⟩

/-- An `F_SETFL` obeys the law only if it leaves the flags alone. -/
theorem setfl_iff (H : Bypassed fd p m) (hlaw : Law fd p m mode) (arg : BitVec 32) :
    Refinement.Correct (Step fd) spec (Law fd p) m mode (.setfl arg) ↔
      Refused fd m (.setfl arg) := by
  obtain ⟨e, he, -, huser⟩ := H.entity
  obtain ⟨d, hd, hflag⟩ := hlaw.kernel
  constructor
  · rintro ⟨m', ⟨arg', r', h, -⟩, hlaw'⟩
    rw [H.fcntlSetfl] at h
    cases h
    have harg : arg &&& O_NONBLOCK = 0 := by
      have := hlaw'.user
      rw [he, Option.map_some, huser] at this
      simpa [spec] using this
    refine ⟨arg, d, rfl, harg, hd, ?_⟩
    by_contra hacc
    obtain ⟨flags, hflags⟩ := Option.ne_none_iff_exists'.mp hacc
    obtain ⟨d', hd', hflag'⟩ := hlaw'.kernel
    simp only [Kernel.fcntlSetfl, hd, hflags, Kernel.setFlags, if_pos, Option.some.injEq] at hd'
    subst hd'
    exact hflag' ((m.kernel.setfl_nonblock hflags).trans harg)
  · rintro ⟨arg', d', hc, harg, hd', href⟩
    cases hc
    rw [hd] at hd'
    cases hd'
    have hset : m.kernel.fcntlSetfl fd arg = (m.kernel, -1) := by
      simp only [Kernel.fcntlSetfl, hd, href]
    refine ⟨m, ⟨arg, -1, ?_, rfl⟩, ⟨d, hd, hflag⟩, ?_⟩
    · rw [H.fcntlSetfl, hset]
    · simp [he, huser, spec, harg]

/-- `F_GETFL` shows the mode of the kernel. -/
theorem getfl_not_correct (H : Bypassed fd p m) (hlaw : Law fd p m mode) :
    ¬Refinement.Correct (Step fd) spec (Law fd p) m mode .getfl := by
  obtain ⟨e, he, -, huser⟩ := H.entity
  obtain ⟨d, hd, hflag⟩ := hlaw.kernel
  rintro ⟨m', ⟨-, flag, h, hr⟩, -⟩
  rw [H.fcntlGetfl] at h
  cases h
  have hmode : mode = false := by
    have := hlaw.user
    rw [he, Option.map_some, huser] at this
    exact (Option.some.inj this).symm
  subst hmode
  exact hflag (by simpa [Kernel.getfl, hd, spec] using hr.symm)

/-- `FIONBIO` changes the mode of the kernel and not that of the user. -/
theorem fionbio_not_correct (H : Bypassed fd p m) (arg : BitVec 32) :
    ¬Refinement.Correct (Step fd) spec (Law fd p) m mode (.fionbio arg) := by
  obtain ⟨e, he, -, huser⟩ := H.entity
  obtain ⟨d, hd⟩ := H.kernel
  rintro ⟨m', ⟨⟨r, h⟩, -⟩, hlaw'⟩
  rw [H.ioctl] at h
  cases h
  have harg : arg = 0 := by
    have := hlaw'.user
    rw [he, Option.map_some, huser] at this
    simpa [spec] using this
  obtain ⟨d', hd', hflag'⟩ := hlaw'.kernel
  simp only [Kernel.fionbio, hd, Kernel.setFlags, if_pos, Option.some.injEq] at hd'
  subst hd'
  exact hflag' (by simp [harg, clear_and_nonblock])

theorem correct_iff (H : Bypassed fd p m) (hlaw : Law fd p m mode) :
    Refinement.Correct (Step fd) spec (Law fd p) m mode c ↔ Refused fd m c := by
  cases c with
  | setfl arg => exact setfl_iff H hlaw arg
  | getfl =>
    exact iff_of_false (getfl_not_correct H hlaw) fun ⟨_, _, hc, _⟩ => nomatch hc
  | fionbio arg =>
    exact iff_of_false (fionbio_not_correct H arg) fun ⟨_, _, hc, _⟩ => nomatch hc

theorem step_unique (h : Step fd m c m₁ r₁)
    (h' : Step fd m c m₂ r₂) : m₁ = m₂ := by
  cases c with
  | setfl arg =>
    obtain ⟨_, _, h, -⟩ := h
    obtain ⟨_, _, h', -⟩ := h'
    exact congrArg Prod.fst (Option.some.inj (h.symm.trans h'))
  | getfl => exact h.1.trans h'.1.symm
  | fionbio arg =>
    obtain ⟨⟨_, h⟩, -⟩ := h
    obtain ⟨⟨_, h'⟩, -⟩ := h'
    exact congrArg Prod.fst (Option.some.inj (h.symm.trans h'))

/-- **The bookkeeping of a managed socket**: a sequence of calls obeys the law only if the kernel
refuses each of them. -/
theorem allCorrect_iff_refused (H : Managed fd p m) (cs : List Call) :
    Refinement.AllCorrect (Step fd) spec (Law fd p) m false cs ↔
      Refinement.AllMeet (Step fd) (Refused fd) m cs := by
  refine Refinement.allCorrect_iff (I := Bypassed fd p) ?_ ?_ ?_ H.bypassed H.law cs
  · intro m c m₁ r₁ m₂ r₂ h h'
    exact step_unique h h'
  · intro m mode c H hlaw
    exact correct_iff H hlaw
  · intro m c m' r H _ h
    exact H.step h

/-- A kernel in which descriptor 3 is a blocking socket, open for reading and writing. -/
def oneSocket : Kernel where
  descriptors fd := if fd = 3 then some ⟨true, 2⟩ else none
  setfl _ arg := some arg
  setfl_nonblock := nonblock_of_accepted
  setfl_or := isSome_accepted

theorem oneSocket_managed :
    ∃ m, (FdManager.init oneSocket).get 3 true = some (m, some 0) ∧ Managed 3 0 m := by
  refine managed_of_get (d := ⟨true, 2⟩) (FdManager.init_fits _) (by decide) ?_ rfl rfl rfl
  intro h
  rw [FdManager.init_length] at h
  exact absurd h (by decide)

theorem allCorrect_iff_refused_oneSocket :
    ∃ m, (FdManager.init oneSocket).get 3 true = some (m, some 0) ∧
      (Refinement.AllCorrect (Step 3) spec (Law 3 0) m false [.setfl 2050, .getfl] ↔
        Refinement.AllMeet (Step 3) (Refused 3) m [.setfl 2050, .getfl]) := by
  obtain ⟨m, hget, H⟩ := oneSocket_managed
  exact ⟨m, hget, allCorrect_iff_refused H _⟩

/-- The first `F_GETFL` on a new socket reports `O_NONBLOCK`, and a first `F_SETFL` with `O_NONBLOCK`
leaves `isUserNonblock()` false. -/
theorem new_socket_breaks_law :
    ∃ m, (FdManager.init oneSocket).get 3 true = some (m, some 0) ∧ Managed 3 0 m ∧
      ¬Refinement.AllCorrect (Step 3) spec (Law 3 0) m false [.getfl] ∧
      ¬Refinement.AllCorrect (Step 3) spec (Law 3 0) m false [.setfl 2050] := by
  obtain ⟨m, hget, H⟩ := oneSocket_managed
  refine ⟨m, hget, H, ?_, ?_⟩
  · rintro ⟨m', hs, hlaw, -⟩
    exact getfl_not_correct H.bypassed H.law ⟨m', hs, hlaw⟩
  · rintro ⟨m', hs, hlaw, -⟩
    obtain ⟨arg, d, hc, harg, -⟩ := (setfl_iff H.bypassed H.law 2050).mp ⟨m', hs, hlaw⟩
    cases hc
    exact absurd harg (by decide)

end Nonblock

end Tigerkin
