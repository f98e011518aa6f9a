import Tigerkin.Hook.SocketIo
import Tigerkin.Hook.Transparent

/-! # The timeouts of a socket

`Socket` writes a timeout as a `timeval`, which the hooked `setsockopt` reads back as milliseconds
for the descriptor's entity. The timers of the hooked operations take it from there. -/

namespace Tigerkin

open Hook

/-- The `timeval` of a timeout in milliseconds, whose two fields are `long`. -/
def timeval (timeout : Int64) : BitVec 64 × BitVec 64 :=
  ((timeout / 1000).toInt32.toInt64.toBitVec, (timeout % 1000 * 1000).toInt32.toInt64.toBitVec)

namespace Socket

/-- `Socket::setOption` -/
def setOption (sock : Socket) (env : Env) (s : State) (level optname : Int) (optval : Ptr)
    (optlen : UInt32) : Option (State × Bool) :=
  (setsockopt env s sock.socket level optname optval optlen).map fun (s, rt) => (s, rt = 0)

/-- The setters of the timeouts, with the `timeval` at the address `tv`. -/
def setTimeout (sock : Socket) (env : Env) (s : State) (optname : Int) (timeout : Int64)
    (tv : Ptr) : Option State :=
  let env := { env with readTime := Function.update env.readTime tv (some (timeval timeout)) }
  (sock.setOption env s SOL_SOCKET optname tv 16).map Prod.fst

def setSendTimeout (sock : Socket) (env : Env) (s : State) (timeout : Int64) (tv : Ptr) :
    Option State :=
  sock.setTimeout env s SO_SNDTIMEO timeout tv

def setRecvTimeout (sock : Socket) (env : Env) (s : State) (timeout : Int64) (tv : Ptr) :
    Option State :=
  sock.setTimeout env s SO_RCVTIMEO timeout tv

end Socket

/-- The milliseconds that `setsockopt` takes the `timeval` of `timeout` for. -/
theorem timeval_millis {timeout : Int64} (h0 : 0 ≤ timeout.toInt) (hlt : timeout.toInt < 2 ^ 31) :
    ((timeval timeout).1 * 1000 + (timeval timeout).2).toInt =
      timeout.toInt + 999 * (timeout.toInt % 1000) := by
  have hthousand : (1000 : Int64).toInt = 1000 := rfl
  have hdiv : (timeout / 1000).toInt = timeout.toInt / 1000 := by
    rw [Int64.toInt_div, hthousand, Int.tdiv_eq_ediv_of_nonneg h0,
      Int.bmod_eq_of_le (by omega) (by omega)]
  have hmod : (timeout % 1000 * 1000).toInt = timeout.toInt % 1000 * 1000 := by
    rw [Int64.toInt_mul, Int64.toInt_mod, hthousand, Int.tmod_eq_emod_of_nonneg h0,
      Int.bmod_eq_of_le (by omega) (by omega)]
  have hsec : (timeval timeout).1.toInt = timeout.toInt / 1000 := by
    change ((timeout / 1000).toInt32.toInt64).toInt = _
    rw [Int32.toInt_toInt64, Int64.toInt_toInt32, hdiv, Int.bmod_eq_of_le (by omega) (by omega)]
  have husec : (timeval timeout).2.toInt = timeout.toInt % 1000 * 1000 := by
    change ((timeout % 1000 * 1000).toInt32.toInt64).toInt = _
    rw [Int32.toInt_toInt64, Int64.toInt_toInt32, hmod, Int.bmod_eq_of_le (by omega) (by omega)]
  have hwide : (1000 : BitVec 64).toInt = 1000 := rfl
  have hmillis : ((timeval timeout).1 * 1000).toInt = timeout.toInt / 1000 * 1000 := by
    rw [BitVec.toInt_mul, hsec, hwide, Int.bmod_eq_of_le (by omega) (by omega)]
  rw [BitVec.toInt_add, hmillis, husec, Int.bmod_eq_of_le (by omega) (by omega)]
  omega

namespace SocketIo

variable {s s' x : SocketIo} {e : FdEntity} {event : IOManager.Event} {t : Nat}

theorem cancelTimer_timeout (s : SocketIo) : s.cancelTimer.timeout = s.timeout := by
  unfold cancelTimer
  split
  · split <;> rfl
  · rfl

theorem step_timeout {a : SocketStep} (h : s.step a = some s') : s'.timeout = s.timeout := by
  cases a with
  | addCondTimer | addEvent suc =>
    simp only [step, Option.ite_none_right_eq_some, Option.some.injEq] at h
    obtain ⟨-, rfl⟩ := h
    split <;> rfl
  | cancel =>
    simp only [step] at h
    split at h
    · cases h
      exact cancelTimer_timeout s
    · simp only [Option.ite_none_right_eq_some, Option.some.injEq] at h
      obtain ⟨-, rfl⟩ := h
      exact cancelTimer_timeout s
  | callback k =>
    simp only [step] at h
    split at h
    · simp only [Option.ite_none_right_eq_some] at h
      obtain ⟨-, h⟩ := h
      split at h
      · cases h
        rfl
      · cases h
        rfl
    · cases h
  | cancelEvent k ctlOk =>
    simp only [step] at h
    split at h
    · simp only [Option.ite_none_right_eq_some, Option.some.injEq] at h
      obtain ⟨-, rfl⟩ := h
      split <;> rfl
    · cases h
  | tick | expire =>
    cases h
    rfl
  | func | yield | resume | test | clear | loop | report =>
    simp only [step, Option.ite_none_right_eq_some, Option.some.injEq] at h
    obtain ⟨-, rfl⟩ := h
    rfl

/-- Each wait of an operation on the entity arms a timer of `t` milliseconds. -/
def Arms (e : FdEntity) (event : IOManager.Event) (t : Nat) : Prop :=
  ∀ s s', Reach step Always (init e event) s → s.step .addCondTimer = some s' →
    s'.timers s'.wait = some ⟨s.now + t, .armed⟩

theorem addCondTimer_arms (ht : s.timeout = t) (h : s.step .addCondTimer = some s') :
    s'.timers s'.wait = some ⟨s.now + t, .armed⟩ := by
  simp only [step, Option.ite_none_right_eq_some, Option.some.injEq] at h
  obtain ⟨-, rfl⟩ := h
  rw [if_pos (by omega), ht]
  exact Function.update_self ..

/-- The operation can wait, and then its first wait decides. -/
theorem arms_iff : Arms e event t ↔ socketTimeout e event = t := by
  constructor
  · intro h
    have hfunc : (init e event).step (.func (-1) EAGAIN) =
        some { init e event with pc := .addCondTimer } := rfl
    have hadd := h _ _ (.tail .refl trivial hfunc) rfl
    split at hadd
    · rename_i h0
      simp only [setTimer, init, Function.update_self, Option.some.injEq, WaitTimer.mk.injEq,
        and_true] at h0 hadd
      omega
    · cases hadd
  · intro h s s' hs hs'
    have hkeep : s.timeout = (init e event).timeout :=
      hs.inv (I := fun x => x.timeout = (init e event).timeout) rfl fun hx _ hstep =>
        (step_timeout hstep).trans hx
    exact addCondTimer_arms (hkeep.trans h) hs'

/-- The `int` that a stored timeout is narrowed to. -/
theorem toInt32_toInt (v : UInt64) :
    v.toUInt32.toInt32.toInt = v.toBitVec.toInt.bmod (2 ^ 32) := by
  rw [← BitVec.toInt_signExtend_eq_toInt_bmod_of_le _ (by decide : 32 ≤ 64),
    BitVec.signExtend_eq_setWidth_of_le _ (by decide : 32 ≤ 64)]
  rfl

end SocketIo

namespace Socket

variable {sock : Socket} {env : Env} {s : State} {p : Nat} {e : FdEntity} {timeout : Int64}

/-- The getter returns `timeout`, and so long are the timers of the blocked operations. -/
def Keeps (sock : Socket) (s : State) (get : Socket → FdManager → Option Int)
    (event : IOManager.Event) (timeout : Int64) : Prop :=
  get sock s.manager = some timeout.toInt ∧ ∃ p e, s.entity sock.socket = some (some (p, e)) ∧
    SocketIo.Arms e event timeout.toInt.toNat

theorem entity_iff {fd : Int} : s.entity fd = some (some (p, e)) ↔
    s.manager.get fd false = some (s.manager, some p) ∧ s.manager.entities[p]? = some e := by
  constructor
  · intro h
    obtain ⟨⟨m, q⟩, hget, hbind⟩ := Option.map_eq_some_iff.mp h
    obtain ⟨p', rfl, hmap⟩ := Option.bind_eq_some_iff.mp hbind
    obtain ⟨e', he', heq⟩ := Option.map_eq_some_iff.mp hmap
    cases heq
    obtain rfl := get_false_eq hget
    exact ⟨hget, he'⟩
  · rintro ⟨hget, he⟩
    simp [State.entity, hget, he]

/-- The table is as it was, and so is the entity but for the timeout. -/
theorem setEntity_call_entity {fd : Int} (he : s.entity fd = some (some (p, e)))
    (f : FdEntity → FdEntity) (c : Call) :
    ((s.setEntity p f).call env c).1.entity fd = some (some (p, f e)) := by
  obtain ⟨hget, he⟩ := entity_iff.mp he
  rw [FdManager.get_false] at hget
  obtain ⟨q, hfind, heq⟩ := Option.map_eq_some_iff.mp hget
  cases heq
  refine entity_iff.mpr ⟨?_, by simp [State.call, State.setEntity, he]⟩
  rw [FdManager.get_false]
  exact Option.map_eq_some_iff.mpr ⟨some p, hfind, rfl⟩

section

variable {fd : Int} {tv : Ptr} {sec usec : BitVec 64} {optlen : UInt32}

theorem setsockopt_recv (hs : s.enableHook = true) (he : s.entity fd = some (some (p, e)))
    (htv : env.readTime tv = some (sec, usec)) :
    setsockopt env s fd SOL_SOCKET SO_RCVTIMEO tv optlen =
      some ((s.setEntity p fun e => { e with recvTimeout := ⟨sec * 1000 + usec⟩ }).call env
        (.setsockopt fd SOL_SOCKET SO_RCVTIMEO tv optlen)) := by
  simp only [setsockopt, hs, he, htv, Bool.not_true, Bool.false_eq_true, if_false, if_true]

theorem setsockopt_send (hs : s.enableHook = true) (he : s.entity fd = some (some (p, e)))
    (htv : env.readTime tv = some (sec, usec)) :
    setsockopt env s fd SOL_SOCKET SO_SNDTIMEO tv optlen =
      some ((s.setEntity p fun e => { e with sendTimeout := ⟨sec * 1000 + usec⟩ }).call env
        (.setsockopt fd SOL_SOCKET SO_SNDTIMEO tv optlen)) := by
  simp only [setsockopt, hs, he, htv, Bool.not_true, Bool.false_eq_true, if_false, if_true]
  exact if_neg (by decide)

end

theorem timeout_eq (he : s.entity sock.socket = some (some (p, e))) (f : FdEntity → UInt64) :
    sock.timeout s.manager f = some (f e).toBitVec.toInt := by
  obtain ⟨hget, he⟩ := entity_iff.mp he
  simp [Socket.timeout, hget, he]

/-- What is stored comes back exactly when the timeout is a number of whole seconds. -/
theorem keeps_iff {get : Socket → FdManager → Option Int} {event : IOManager.Event} {v : UInt64}
    (h0 : 0 ≤ timeout.toInt) (hlt : timeout.toInt < 2 ^ 31)
    (he : s.entity sock.socket = some (some (p, e)))
    (hget : get sock s.manager = some v.toBitVec.toInt)
    (hevent : SocketIo.socketTimeout e event = v.toUInt32.toInt32.toInt)
    (hv : v.toBitVec = (timeval timeout).1 * 1000 + (timeval timeout).2) :
    sock.Keeps s get event timeout ↔ timeout.toInt % 1000 = 0 := by
  have hmillis := timeval_millis h0 hlt
  rw [← hv] at hmillis
  rw [SocketIo.toInt32_toInt, hmillis] at hevent
  rw [hmillis] at hget
  constructor
  · rintro ⟨hkeep, -⟩
    rw [hget, Option.some.injEq] at hkeep
    omega
  · intro hzero
    refine ⟨by rw [hget, hzero]; simp, p, e, he, SocketIo.arms_iff.mpr ?_⟩
    rw [hevent, hzero, Int.mul_zero, Int.add_zero, Int.bmod_eq_of_le (by omega) (by omega),
      Int.toNat_of_nonneg h0]

/-- **A timeout survives** the way through `setsockopt` exactly when it is a number of whole
seconds. -/
theorem timeouts_kept_iff (hs : s.enableHook = true)
    (he : s.entity sock.socket = some (some (p, e))) (h0 : 0 ≤ timeout.toInt)
    (hlt : timeout.toInt < 2 ^ 31) (tv : Ptr) :
    ((∃ s', sock.setRecvTimeout env s timeout tv = some s' ∧
        sock.Keeps s' getRecvTimeout .READ timeout) ↔ timeout.toInt % 1000 = 0) ∧
      ((∃ s', sock.setSendTimeout env s timeout tv = some s' ∧
        sock.Keeps s' getSendTimeout .WRITE timeout) ↔ timeout.toInt % 1000 = 0) := by
  constructor
  · rw [setRecvTimeout, setTimeout, setOption, setsockopt_recv hs he (Function.update_self ..)]
    simp only [Option.map_some, Option.some.injEq, exists_eq_left']
    have he' := fun env => @setEntity_call_entity env _ _ _ _ he (fun e => { e with
      recvTimeout := ⟨(timeval timeout).1 * 1000 + (timeval timeout).2⟩ })
    exact keeps_iff h0 hlt (he' _ _) (timeout_eq (he' _ _) _) rfl rfl
  · rw [setSendTimeout, setTimeout, setOption, setsockopt_send hs he (Function.update_self ..)]
    simp only [Option.map_some, Option.some.injEq, exists_eq_left']
    have he' := fun env => @setEntity_call_entity env _ _ _ _ he (fun e => { e with
      sendTimeout := ⟨(timeval timeout).1 * 1000 + (timeval timeout).2⟩ })
    exact keeps_iff h0 hlt (he' _ _) (timeout_eq (he' _ _) _) rfl rfl

/-- A thread whose hooks are enabled, and whose manager has the socket 3. -/
def managed : State where
  enableHook := true
  iom := true
  manager := (((FdManager.init Nonblock.oneSocket).get 3 true).map Prod.fst).getD
    (FdManager.init Nonblock.oneSocket)

theorem managed_entity : ∃ e, managed.entity 3 = some (some (0, e)) := by
  have h : ((managed.entity 3).join.map Prod.fst) = some 0 := by decide +kernel
  obtain ⟨⟨p, e⟩, he, rfl⟩ := Option.map_eq_some_iff.mp h
  exact ⟨e, Option.join_eq_some_iff.mp he⟩

theorem timeouts_kept_iff_two :
    ((∃ s', (⟨3⟩ : Socket).setRecvTimeout accepting managed 2000 0 = some s' ∧
        (⟨3⟩ : Socket).Keeps s' getRecvTimeout .READ 2000) ↔ (2000 : Int64).toInt % 1000 = 0) ∧
      ((∃ s', (⟨3⟩ : Socket).setSendTimeout accepting managed 2000 0 = some s' ∧
        (⟨3⟩ : Socket).Keeps s' getSendTimeout .WRITE 2000) ↔ (2000 : Int64).toInt % 1000 = 0) := by
  obtain ⟨e, he⟩ := managed_entity
  exact timeouts_kept_iff rfl he (by decide) (by decide) 0

/-- A second and a half comes back as 501 seconds. -/
theorem setRecvTimeout_half : managed.enableHook = true ∧
    (∃ e, managed.entity 3 = some (some (0, e))) ∧
    (((⟨3⟩ : Socket).setRecvTimeout accepting managed 1500 0).bind fun s =>
      getRecvTimeout ⟨3⟩ s.manager) = some 501000 ∧
    ¬∃ s', (⟨3⟩ : Socket).setRecvTimeout accepting managed 1500 0 = some s' ∧
      (⟨3⟩ : Socket).Keeps s' getRecvTimeout .READ 1500 := by
  have h : (((⟨3⟩ : Socket).setRecvTimeout accepting managed 1500 0).bind fun s =>
      getRecvTimeout ⟨3⟩ s.manager) = some 501000 := by
    decide +kernel
  refine ⟨rfl, managed_entity, h, ?_⟩
  rintro ⟨s', hset, hget, -⟩
  rw [hset, Option.bind_some, hget] at h
  exact absurd h (by decide)

end Socket

end Tigerkin
