import Tigerkin.Hook.Transparent
import Tigerkin.Timer.Cond
import Tigerkin.Scheduler.Task

/-! # How long a hooked sleep is

A hooked `sleep`, `usleep` or `nanosleep` arms a timer and yields. The milliseconds are computed in
the type of the argument and then widened to the `uint64_t` of the timer: `sleep` multiplies in 32
bits without a sign, and `nanosleep` narrows to an `int`, whose sign the widening extends. -/

namespace Tigerkin.Hook

variable {env : Env} {s : State} {c : Call} {now : UInt64} {n : Nat}

/-- The nanoseconds that a call asks for; a `timespec` has to be valid. -/
def nanos (env : Env) : Call → Option Nat
  | .sleep seconds => some (seconds.toNat * 10 ^ 9)
  | .usleep usec => some (usec.toNat * 10 ^ 3)
  | .nanosleep rqtp _ => (env.readTime rqtp).bind fun (sec, nsec) =>
    if 0 ≤ sec.toInt ∧ 0 ≤ nsec.toInt ∧ nsec.toInt < 10 ^ 9 then
      some (sec.toNat * 10 ^ 9 + nsec.toNat)
    else none
  | _ => none

/-- The periods of the timers that a call arms before it yields. -/
def armed (env : Env) (s : State) (c : Call) : List UInt64 :=
  match hook { env with yield := id } { s with trace := [] } 1 c with
  | some (s, _) => s.trace.filterMap fun
    | .addTimer ms => some ms
    | _ => none
  | none => []

/-- The call arms one timer, in whatever state the manager is. Its period is the `n` nanoseconds in
milliseconds, rounded down, as a number with a sign, and its deadline is that much after `now`. -/
def KeepsDuration (env : Env) (s : State) (c : Call) (now : UInt64) (n : Nat) : Prop :=
  ∃ ms, armed env s c = [ms] ∧ ms.toBitVec.toInt = (n / 10 ^ 6 : Nat) ∧
    ∀ (m : TimerManager CbId) (a : Addr) (cb : CbId), m.Reachable → m.live a = false →
      a ∈ (m.addTimer a ms (some cb) false now).timers ∧
        ((m.addTimer a ms (some cb) false now).heap a).next.toNat = now.toNat + n / 10 ^ 6

/-- The milliseconds that the type of the computation can hold. -/
def Call.limit : Call → Nat
  | .nanosleep _ _ => 2 ^ 31
  | _ => 2 ^ 32

/-! ## The periods -/

theorem armed_sleepMs (s : State) (hiom : s.iom = true) {ms : UInt64}
    (h : hook { env with yield := id } { s with trace := [] } 1 c =
      sleepMs { env with yield := id } { s with trace := [] } ms) : armed env s c = [ms] := by
  have hsome : sleepMs { env with yield := id } { s with trace := [] } ms =
      some ({ s with trace := [.addTimer ms, .yield] }, 0) := if_pos hiom
  rw [armed, h, hsome]
  rfl

/-- The deadline is right if the period is and the sum has room. -/
theorem keepsDuration_iff_of_armed {ms : UInt64} (h : armed env s c = [ms]) :
    KeepsDuration env s c now n ↔
      ms.toBitVec.toInt = (n / 10 ^ 6 : Nat) ∧ now.toNat + n / 10 ^ 6 < 2 ^ 64 := by
  constructor
  · rintro ⟨ms', h', hint, hdeadline⟩
    rw [h] at h'
    cases h'
    have hnext := (hdeadline {} 0 0 .refl rfl).2
    rw [← hnext]
    exact ⟨hint, UInt64.toNat_lt _⟩
  · rintro ⟨hint, hroom⟩
    refine ⟨ms, h, hint, fun m a cb hm ha => ⟨hm.inv.mem_addTimer ha .., ?_⟩⟩
    have hms : ms.toNat = n / 10 ^ 6 := by
      have hcond := BitVec.toInt_eq_toNat_cond ms.toBitVec
      rw [UInt64.toNat_toBitVec] at hcond
      have hlt := ms.toNat_lt
      split at hcond
      · omega
      · omega
    rw [TimerManager.addTimer_heap_self, UInt64.toNat_add, hms, Nat.mod_eq_of_lt hroom]

/-- `seconds * 1000` in 32 bits. -/
theorem sleep_period (seconds : UInt32) :
    (seconds * 1000).toUInt64.toBitVec.toInt = (seconds.toNat * 1000 % 2 ^ 32 : Nat) := by
  rw [BitVec.toInt_eq_toNat_of_lt]
  · rw [UInt64.toNat_toBitVec, UInt32.toNat_toUInt64, UInt32.toNat_mul]
    rfl
  · have hlt := (seconds * 1000).toNat_lt
    rw [UInt64.toNat_toBitVec, UInt32.toNat_toUInt64]
    omega

theorem usleep_period (usec : UInt32) :
    (usec / 1000).toUInt64.toBitVec.toInt = (usec.toNat / 1000 : Nat) := by
  rw [BitVec.toInt_eq_toNat_of_lt]
  · rw [UInt64.toNat_toBitVec, UInt32.toNat_toUInt64, UInt32.toNat_div]
    rfl
  · have hlt := (usec / 1000).toNat_lt
    rw [UInt64.toNat_toBitVec, UInt32.toNat_toUInt64]
    omega

/-- `int ms = tv_sec * 1000 + tv_nsec / 1000000` -/
theorem nanosleep_period {sec nsec : BitVec 64} (hnsec : 0 ≤ nsec.toInt) :
    (((sec * 1000 + nsec.sdiv 1000000).setWidth 32).signExtend 64).toInt =
      ((sec.toNat * 1000 + nsec.toNat / 10 ^ 6 : Nat) : Int).bmod (2 ^ 32) := by
  have hmsb : nsec.msb = false := by
    rw [BitVec.msb_eq_toInt]
    exact decide_eq_false (Int.not_lt.mpr hnsec)
  have hdiv : (nsec.sdiv 1000000).toNat = nsec.toNat / 10 ^ 6 := by
    have hpos : (1000000 : BitVec 64).msb = false := by decide
    rw [BitVec.toNat_sdiv, hmsb, hpos]
    rfl
  have hthousand : (1000 : BitVec 64).toNat = 1000 := rfl
  have hnarrow : ((sec * 1000 + nsec.sdiv 1000000).setWidth 32).toNat =
      (sec.toNat * 1000 + nsec.toNat / 10 ^ 6) % 2 ^ 32 := by
    rw [BitVec.toNat_setWidth, BitVec.toNat_add, BitVec.toNat_mul, hdiv, hthousand,
      Nat.mod_add_mod, Nat.mod_mod_of_dvd _ (by decide)]
  rw [BitVec.toInt_signExtend_of_le (by decide), BitVec.toInt_eq_toNat_bmod, hnarrow,
    Int.natCast_mod]
  exact Int.emod_bmod ..

/-- The narrowing keeps the numbers that an `int` can hold. -/
theorem bmod_eq_iff (d : Nat) : (d : Int).bmod (2 ^ 32) = d ↔ d < 2 ^ 31 := by
  constructor
  · intro h
    have hlt := Int.bmod_lt (x := (d : Int)) (m := 2 ^ 32) (by decide)
    omega
  · intro h
    exact Int.bmod_eq_of_le (by omega) (by omega)

/-! ## The three functions -/

section
variable (hs : s.enableHook = true) (hiom : s.iom = true)
include hs hiom

theorem armed_sleep (env : Env) (seconds : UInt32) :
    armed env s (.sleep seconds) = [(seconds * 1000).toUInt64] :=
  armed_sleepMs s hiom
    (by simp only [hook, sleep, hs, Bool.not_true, Bool.false_eq_true, if_false])

theorem armed_usleep (env : Env) (usec : UInt32) :
    armed env s (.usleep usec) = [(usec / 1000).toUInt64] :=
  armed_sleepMs s hiom
    (by simp only [hook, usleep, hs, Bool.not_true, Bool.false_eq_true, if_false])

theorem armed_nanosleep {rqtp : Ptr} (rmtp : Ptr) {sec nsec : BitVec 64}
    (h : env.readTime rqtp = some (sec, nsec)) :
    armed env s (.nanosleep rqtp rmtp) =
      [⟨((sec * 1000 + nsec.sdiv 1000000).setWidth 32).signExtend 64⟩] :=
  armed_sleepMs s hiom
    (by simp only [hook, nanosleep, hs, h, Bool.not_true, Bool.false_eq_true, if_false])

/-- **Hooked sleeps.** With hooks enabled in a thread of an I/O manager, a call of `sleep`, `usleep`
or `nanosleep` keeps its duration if and only if the milliseconds fit into the type that they are
computed in, and the deadline into the clock's. -/
theorem keepsDuration_iff (hn : nanos env c = some n) (now : UInt64) :
    KeepsDuration env s c now n ↔
      n / 10 ^ 6 < c.limit ∧ now.toNat + n / 10 ^ 6 < 2 ^ 64 := by
  cases c with
  | sleep seconds =>
    cases hn
    have hms : seconds.toNat * 10 ^ 9 / 10 ^ 6 = seconds.toNat * 1000 := by omega
    rw [keepsDuration_iff_of_armed (armed_sleep hs hiom env seconds), sleep_period, hms,
      Int.natCast_inj, Nat.mod_eq_iff_lt (by decide)]
    rfl
  | usleep usec =>
    cases hn
    have hms : usec.toNat * 10 ^ 3 / 10 ^ 6 = usec.toNat / 1000 := by omega
    have hlt := usec.toNat_lt
    have hlimit : usec.toNat / 1000 < (Call.usleep usec).limit := by
      change _ < 2 ^ 32
      omega
    rw [keepsDuration_iff_of_armed (armed_usleep hs hiom env usec), usleep_period, hms]
    exact and_congr_left fun _ => iff_of_true rfl hlimit
  | nanosleep rqtp rmtp =>
    obtain ⟨⟨sec, nsec⟩, htime, hvalid⟩ := Option.bind_eq_some_iff.mp hn
    obtain ⟨⟨-, hnsec, -⟩, hsum⟩ := Option.ite_none_right_eq_some.mp hvalid
    cases hsum
    have hms : (sec.toNat * 10 ^ 9 + nsec.toNat) / 10 ^ 6 =
        sec.toNat * 1000 + nsec.toNat / 10 ^ 6 := by omega
    rw [keepsDuration_iff_of_armed (armed_nanosleep hs hiom rmtp htime),
      nanosleep_period hnsec, hms, bmod_eq_iff]
    rfl
  | _ => cases hn

end

/-- A thread of an I/O manager. -/
def inManager : State where
  enableHook := true
  iom := true
  manager := FdManager.init Nonblock.oneSocket

theorem keepsDuration_iff_two : KeepsDuration accepting inManager (.sleep 2) 5 (2 * 10 ^ 9) :=
  (keepsDuration_iff rfl rfl rfl 5).mpr (by decide)

/-- `sleep(4294968)`, which is to last 49 days, lasts 704 milliseconds. -/
theorem keepsDuration_long : armed accepting inManager (.sleep 4294968) = [704] ∧
    ¬KeepsDuration accepting inManager (.sleep 4294968) 5 (4294968 * 10 ^ 9) := by
  have h : armed accepting inManager (.sleep 4294968) = [704] := by decide +kernel
  refine ⟨h, ?_⟩
  rw [keepsDuration_iff_of_armed h]
  decide

end Tigerkin.Hook
