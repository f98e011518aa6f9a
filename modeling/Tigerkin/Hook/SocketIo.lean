import Tigerkin.IOManager.Basic
import Tigerkin.FdManager.Basic

/-! # Hooked socket operations

One call of `doSocketIo` of `hook.cpp` past its early returns, as a state machine: the loop that
calls the original function, arms a timer for each wait, adds the event and yields, next to the
steps of its environment (readiness reports, the clock, the expiry of timers into the task pool and
the two steps of an expired timer's callback). All waits of the call share the flag `canceled`, so a
callback must have run before its wait is over (`Prompt`). -/

namespace Tigerkin

def EINTR : Nat := 4
def EAGAIN : Nat := 11

namespace SocketIo

/-- `int timeout`; a negative one means that the operation does not time out. -/
def socketTimeout (e : FdEntity) : IOManager.Event → Int
  | .READ => e.recvTimeout.toUInt32.toInt32.toInt
  | .WRITE => e.sendTimeout.toUInt32.toInt32.toInt
  | .NONE => -1

/-- The timer of a wait: in the timer set, moved to the task pool, past `t->canceled = true` and
before `cancelEvent`, done, or removed by `timer->cancel()`. -/
inductive TimerState where
  | armed | expired | executing | finished | cancelled
  deriving DecidableEq

structure WaitTimer where
  deadline : Nat
  state : TimerState
  deriving DecidableEq

inductive Result where
  /-- What the original function returned. -/
  | io (n : Int) (errno : Nat)
  /-- `errno = ETIMEDOUT; return -1;`. -/
  | timedOut
  /-- `addEvent` failed. -/
  | failed
  deriving DecidableEq

/-- The next statement of the call. -/
inductive Pc where
  | func
  | addCondTimer
  | addEvent
  | addFailed
  | yield
  | waiting
  | cancel
  | test
  | clear
  | loop
  | done (r : Result)
  deriving DecidableEq

inductive Effect where
  | setCanceled | cancelEvent
  deriving DecidableEq

/-- What the callback of a timer did, and the wait in progress then. -/
structure Entry where
  timer : Nat
  wait : Nat
  effect : Effect
  deriving DecidableEq

end SocketIo

open SocketIo

structure SocketIo where
  timeout : Int
  pc : Pc := .func
  /-- The number of waits begun. -/
  wait : Nat := 0
  /-- `state->canceled`. -/
  canceled : Bool := false
  timers : Nat → Option WaitTimer := fun _ => none
  /-- The event of the descriptor is armed for this call. -/
  event : Bool := false
  /-- The coroutine of the call has been handed to the scheduler. -/
  scheduled : Bool := false
  now : Nat := 0
  log : List Entry := []

/-- A step of the call, or of its environment: from `report` on. -/
inductive SocketStep where
  | func (n : Int) (errno : Nat)
  | addCondTimer
  | addEvent (suc : Bool)
  | yield
  | resume
  | cancel
  | test
  | clear
  | loop (errno : Nat)
  | report
  | tick
  | expire
  | callback (k : Nat)
  | cancelEvent (k : Nat) (ctlOk : Bool)

namespace SocketIo

def setTimer (s : SocketIo) (k : Nat) (t : WaitTimer) : SocketIo :=
  { s with timers := Function.update s.timers k (some t) }

/-- `timer->cancel()`: a timer that is not in the set any more is left alone. -/
def cancelTimer (s : SocketIo) : SocketIo :=
  match s.timers s.wait with
  | some t => if t.state = .armed then s.setTimer s.wait { t with state := .cancelled } else s
  | none => s

def expireTimer (now : Nat) (t : WaitTimer) : WaitTimer :=
  if t.state = .armed ∧ t.deadline ≤ now then { t with state := .expired } else t

def Pc.isDone : Pc → Bool
  | .done _ => true
  | _ => false

/-- The condition `errno == EINTR || errno == EAGAIN`. -/
def retry (errno : Nat) : Bool := errno = EINTR || errno = EAGAIN

def step (s : SocketIo) : SocketStep → Option SocketIo
  | .func n errno =>
    if s.pc = .func then
      let pc : Pc := if n = -1 ∧ errno = EAGAIN then .addCondTimer
        else if n = -1 ∧ retry errno then .func
        else .done (.io n errno)
      some { s with pc }
    else none
  | .addCondTimer =>
    if s.pc = .addCondTimer then
      let s := { s with pc := .addEvent, wait := s.wait + 1 }
      some (if 0 ≤ s.timeout then s.setTimer s.wait ⟨s.now + s.timeout.toNat, .armed⟩ else s)
    else none
  | .addEvent suc =>
    if s.pc = .addEvent then
      some (if suc then { s with event := true, pc := .yield } else { s with pc := .addFailed })
    else none
  | .yield => if s.pc = .yield then some { s with pc := .waiting } else none
  | .resume =>
    if s.pc = .waiting ∧ s.scheduled then some { s with pc := .cancel, scheduled := false }
    else none
  | .cancel =>
    if s.pc = .cancel then some { s.cancelTimer with pc := .test }
    else if s.pc = .addFailed then some { s.cancelTimer with pc := .done .failed }
    else none
  | .test =>
    if s.pc = .test then some { s with pc := if s.canceled then .done .timedOut else .clear }
    else none
  | .clear => if s.pc = .clear then some { s with canceled := false, pc := .loop } else none
  -- `n` is still `-1`; `errno` is whatever the thread's other coroutines left there.
  | .loop errno =>
    if s.pc = .loop then
      let pc : Pc := if retry errno then .func else .done (.io (-1) errno)
      some { s with pc }
    else none
  | .report => if s.event then some { s with event := false, scheduled := true } else none
  | .tick => some { s with now := s.now + 1 }
  | .expire => some { s with timers := fun k => (s.timers k).map (expireTimer s.now) }
  | .callback k =>
    match s.timers k with
    | some t =>
      if t.state = .expired then
        -- `weekState.lock()` fails after the call has returned.
        if s.pc.isDone || s.canceled then some (s.setTimer k { t with state := .finished })
        else some { s.setTimer k { t with state := .executing } with
          canceled := true
          log := s.log ++ [⟨k, s.wait, .setCanceled⟩] }
      else none
    | none => none
  | .cancelEvent k ctlOk =>
    match s.timers k with
    | some t =>
      if t.state = .executing then
        let s := s.setTimer k { t with state := .finished }
        some (if s.event && ctlOk then { s with
            event := false
            scheduled := true
            log := s.log ++ [⟨k, s.wait, .cancelEvent⟩] }
          else s)
      else none
    | none => none

def init (e : FdEntity) (event : IOManager.Event) : SocketIo := { timeout := socketTimeout e event }

/-- A wait that is over has no expired timer whose callback is still in the task pool. -/
def Prompt (s : SocketIo) : SocketStep → Prop
  | .cancel => s.pc = .cancel → ∀ t ∈ s.timers s.wait, t.state ≠ .expired
  | _ => True

instance (s : SocketIo) (a : SocketStep) : Decidable (s.Prompt a) := by
  unfold Prompt
  split <;> infer_instance

/-! ## The invariant -/

/-- The call is between two waits. -/
def Pc.between : Pc → Bool
  | .func | .addCondTimer | .clear | .loop => true
  | _ => false

/-- The callback of the timer can do nothing any more. -/
def WaitTimer.Dead (t : WaitTimer) : Prop := t.state = .finished ∨ t.state = .cancelled

structure Inv (s : SocketIo) : Prop where
  log : ∀ x ∈ s.log, x.timer = x.wait
  later : ∀ k t, s.timers k = some t → k ≤ s.wait
  /-- Only the timer of the wait in progress is live. -/
  dead : ∀ k t, s.timers k = some t → k ≠ s.wait ∨ s.pc.between = true → t.Dead
  due : ∀ k t, s.timers k = some t → t.state = .expired ∨ t.state = .executing → t.deadline ≤ s.now
  executing : ∀ t, s.timers s.wait = some t → t.state = .executing → s.canceled = true
  between : s.pc.between = true → s.canceled = false
  canceled : s.canceled = true → ∃ t, s.timers s.wait = some t ∧ t.deadline ≤ s.now
  tested : s.pc = .test → ∀ t, s.timers s.wait = some t → t.state ≠ .armed ∧ t.state ≠ .expired
  timedOut : s.pc = .done .timedOut → s.canceled = true

variable {s s' : SocketIo}

theorem Inv.atWait (H : s.Inv) (hb : s.pc.between = true) :
    (∀ t, s.timers s.wait = some t → t.Dead) ∧ s.canceled = false :=
  ⟨fun t ht => H.dead _ t ht (.inr hb), H.between hb⟩

/-- A step of the call that touches neither the timers nor the flag. -/
theorem Inv.goto (H : s.Inv) {pc : Pc} {event scheduled : Bool}
    (hb : pc.between = true → (∀ t, s.timers s.wait = some t → t.Dead) ∧ s.canceled = false)
    (ht : pc = .test → s.pc = .test) (hd : pc = .done .timedOut → s.canceled = true) :
    Inv { s with pc, event, scheduled } where
  log := H.log
  later := H.later
  dead k t hk h := by
    by_cases hkw : k = s.wait
    · subst hkw
      exact (hb (h.resolve_left (absurd rfl))).1 t hk
    · exact H.dead k t hk (.inl hkw)
  due := H.due
  executing := H.executing
  between h := (hb h).2
  canceled := H.canceled
  tested h := H.tested (ht h)
  timedOut := hd

/-- A step of the call's environment that touches neither the timers nor the flag. -/
theorem Inv.frame (H : s.Inv) {event scheduled : Bool} : Inv { s with event, scheduled } :=
  H.goto (fun hb => H.atWait hb) id H.timedOut

/-- A timer that changes its state only. -/
theorem Inv.setState (H : s.Inv) (hk : s.timers k = some t) {st : TimerState}
    (hdead : t.Dead → st = .finished ∨ st = .cancelled)
    (hdue : st = .expired ∨ st = .executing → t.deadline ≤ s.now)
    (hexec : k = s.wait → st = .executing → s.canceled = true)
    (htest : s.pc = .test → k = s.wait → st ≠ .armed ∧ st ≠ .expired) :
    Inv (s.setTimer k { t with state := st }) := by
  have hget : ∀ j u, (s.setTimer k { t with state := st }).timers j = some u →
      j = k ∧ u = { t with state := st } ∨ j ≠ k ∧ s.timers j = some u := by
    intro j u hj
    by_cases hjk : j = k
    · subst hjk
      simp only [setTimer, Function.update_self, Option.some.injEq] at hj
      exact .inl ⟨rfl, hj.symm⟩
    · exact .inr ⟨hjk, by simpa [setTimer, Function.update_of_ne hjk] using hj⟩
  exact {
    log := H.log
    later := fun j u hj => by
      rcases hget j u hj with ⟨rfl, -⟩ | ⟨-, hj⟩
      · exact H.later j t hk
      · exact H.later j u hj
    dead := fun j u hj h => by
      rcases hget j u hj with ⟨rfl, rfl⟩ | ⟨-, hj⟩
      · exact hdead (H.dead j t hk h)
      · exact H.dead j u hj h
    due := fun j u hj h => by
      rcases hget j u hj with ⟨rfl, rfl⟩ | ⟨-, hj⟩
      · exact hdue h
      · exact H.due j u hj h
    executing := fun u hj h => by
      rcases hget _ u hj with ⟨hw, rfl⟩ | ⟨-, hj⟩
      · exact hexec hw.symm h
      · exact H.executing u hj h
    between := H.between
    canceled := fun h => by
      obtain ⟨u, hu, hd⟩ := H.canceled h
      by_cases hw : s.wait = k
      · subst hw
        rw [hk, Option.some.injEq] at hu
        subst hu
        exact ⟨{ t with state := st }, by simp [setTimer], hd⟩
      · exact ⟨u, by simp [setTimer, Function.update_of_ne hw, hu], hd⟩
    tested := fun h u hj => by
      rcases hget _ u hj with ⟨hw, rfl⟩ | ⟨-, hj⟩
      · exact htest h hw.symm
      · exact H.tested h u hj
    timedOut := H.timedOut }

/-- The beginning of a wait. -/
theorem Inv.addCondTimer (H : s.Inv) (hpc : s.pc = .addCondTimer) :
    Inv { s with pc := .addEvent, wait := s.wait + 1 } ∧
      ∀ d, Inv (setTimer { s with pc := .addEvent, wait := s.wait + 1 } (s.wait + 1) ⟨d, .armed⟩) := by
  obtain ⟨hdead, hc⟩ := H.atWait (by rw [hpc]; rfl)
  have hold : ∀ k t, s.timers k = some t → k ≤ s.wait ∧ t.Dead := by
    intro k t hk
    by_cases hkw : k = s.wait
    · subst hkw
      exact ⟨Nat.le_refl _, hdead t hk⟩
    · exact ⟨H.later k t hk, H.dead k t hk (.inl hkw)⟩
  have hnew : ∀ t, s.timers (s.wait + 1) ≠ some t := fun t ht => by
    have := (hold _ t ht).1
    omega
  have H₁ : Inv { s with pc := .addEvent, wait := s.wait + 1 } :=
    ⟨H.log, fun k t hk => Nat.le_succ_of_le (hold k t hk).1, fun k t hk _ => (hold k t hk).2, H.due,
      fun t ht => absurd ht (hnew t), nofun, fun h => by simp [hc] at h, nofun, nofun⟩
  refine ⟨H₁, fun d => ?_⟩
  have hget : ∀ j u, (setTimer { s with pc := .addEvent, wait := s.wait + 1 } (s.wait + 1)
      ⟨d, .armed⟩).timers j = some u → j = s.wait + 1 ∧ u = ⟨d, .armed⟩ ∨ s.timers j = some u := by
    intro j u hj
    by_cases hjk : j = s.wait + 1
    · subst hjk
      simp only [setTimer, Function.update_self, Option.some.injEq] at hj
      exact .inl ⟨rfl, hj.symm⟩
    · exact .inr (by simpa [setTimer, Function.update_of_ne hjk] using hj)
  exact {
    log := H₁.log
    later := fun j u hj => by
      rcases hget j u hj with ⟨rfl, -⟩ | hj
      · exact Nat.le_refl _
      · exact H₁.later j u hj
    dead := fun j u hj h => by
      rcases hget j u hj with ⟨rfl, -⟩ | hj
      · rcases h with h | h
        · exact absurd rfl h
        · cases h
      · exact (hold j u hj).2
    due := fun j u hj h => by
      rcases hget j u hj with ⟨-, rfl⟩ | hj
      · rcases h with h | h <;> cases h
      · exact H.due j u hj h
    executing := fun u hj h => by
      rcases hget _ u hj with ⟨-, rfl⟩ | hj
      · cases h
      · exact absurd hj (hnew u)
    between := nofun
    canceled := fun h => by simp [setTimer, hc] at h
    tested := nofun
    timedOut := nofun }

theorem Inv.cancelTimer (H : s.Inv) : s.cancelTimer.Inv := by
  unfold SocketIo.cancelTimer
  split
  · rename_i t ht
    split
    · exact H.setState ht (fun _ => .inr rfl) (fun h => by rcases h with h | h <;> cases h)
        (fun _ h => by cases h) fun _ _ => ⟨nofun, nofun⟩
    · exact H
  · exact H

theorem cancelTimer_not_armed {t : WaitTimer} (h : s.cancelTimer.timers s.wait = some t) :
    t.state ≠ .armed ∧ (t.state = .expired → s.timers s.wait = some t) := by
  unfold cancelTimer at h
  split at h
  · rename_i u hu
    split at h
    · simp only [setTimer, Function.update_self, Option.some.injEq] at h
      subst h
      exact ⟨nofun, nofun⟩
    · rename_i ha
      rw [hu, Option.some.injEq] at h
      subst h
      exact ⟨ha, fun _ => hu⟩
  · rename_i hu
    rw [hu] at h
    cases h

theorem cancelTimer_wait (s : SocketIo) : s.cancelTimer.wait = s.wait := by
  unfold cancelTimer
  split
  · split <;> rfl
  · rfl

/-- `timer->cancel()` at the end of a wait whose callback is not pending. -/
theorem Inv.cancel (H : s.Inv) (hG : ∀ t ∈ s.timers s.wait, t.state ≠ .expired) :
    Inv { s.cancelTimer with pc := .test } := by
  have H₁ := H.cancelTimer
  refine ⟨H₁.log, H₁.later, fun k t hk h => H₁.dead k t hk (h.imp_right nofun), H₁.due,
    H₁.executing, nofun, H₁.canceled, fun _ t ht => ?_, nofun⟩
  rw [cancelTimer_wait] at ht
  obtain ⟨ha, he⟩ := cancelTimer_not_armed ht
  exact ⟨ha, fun h => hG t (he h) h⟩

theorem Inv.expire (H : s.Inv) :
    Inv { s with timers := fun k => (s.timers k).map (expireTimer s.now) } := by
  have hget : ∀ k u, (s.timers k).map (expireTimer s.now) = some u →
      ∃ t, s.timers k = some t ∧ u.deadline = t.deadline ∧
        (u.state = t.state ∨ t.state = .armed ∧ u.state = .expired ∧ t.deadline ≤ s.now) := by
    intro k u hu
    obtain ⟨t, ht, rfl⟩ := Option.map_eq_some_iff.mp hu
    unfold expireTimer
    split
    · rename_i h
      exact ⟨t, ht, rfl, .inr ⟨h.1, rfl, h.2⟩⟩
    · exact ⟨t, ht, rfl, .inl rfl⟩
  exact {
    log := H.log
    later := fun k u hu => by
      obtain ⟨t, ht, -⟩ := hget k u hu
      exact H.later k t ht
    dead := fun k u hu h => by
      obtain ⟨t, ht, -, hs⟩ := hget k u hu
      have := H.dead k t ht h
      unfold WaitTimer.Dead at *
      grind
    due := fun k u hu h => by
      obtain ⟨t, ht, hd, hs⟩ := hget k u hu
      have := H.due k t ht
      grind
    executing := fun u hu h => by
      obtain ⟨t, ht, -, hs⟩ := hget _ u hu
      exact H.executing t ht (by grind)
    between := H.between
    canceled := fun h => by
      obtain ⟨t, ht, hd⟩ := H.canceled h
      refine ⟨expireTimer s.now t, by simp [ht], ?_⟩
      unfold expireTimer
      split <;> exact hd
    tested := fun h u hu => by
      obtain ⟨t, ht, -, hs⟩ := hget _ u hu
      have := H.tested h t ht
      grind
    timedOut := H.timedOut }

/-- A live timer belongs to the wait in progress. -/
theorem Inv.live (H : s.Inv) {k : Nat} {t : WaitTimer} (hk : s.timers k = some t) (h : ¬ t.Dead) :
    k = s.wait ∧ s.pc.between = false := by
  have := H.dead k t hk
  grind

theorem Inv.log_append (H : s.Inv) {x : Entry} (hx : x.timer = x.wait) :
    Inv { s with log := s.log ++ [x] } where
  log y hy := by
    rcases List.mem_append.mp hy with hy | hy
    · exact H.log y hy
    · rw [List.mem_singleton.mp hy, hx]
  later := H.later
  dead := H.dead
  due := H.due
  executing := H.executing
  between := H.between
  canceled := H.canceled
  tested := H.tested
  timedOut := H.timedOut

/-- The callback of an expired timer, up to `cancelEvent`. -/
theorem Inv.callback (H : s.Inv) (hk : s.timers k = some t) (he : t.state = .expired) :
    Inv { s.setTimer k { t with state := .executing } with
      canceled := true
      log := s.log ++ [⟨k, s.wait, .setCanceled⟩] } := by
  obtain ⟨hw, hb⟩ := H.live hk (by simp [WaitTimer.Dead, he])
  have hdue := H.due k t hk (.inl he)
  have H₁ : Inv { s with canceled := true } :=
    ⟨H.log, H.later, H.dead, H.due, fun _ _ _ => rfl, fun h => by simp [hb] at h,
      fun _ => ⟨t, hw ▸ hk, hdue⟩, H.tested, fun _ => rfl⟩
  have H₂ := H₁.log_append (x := ⟨k, s.wait, .setCanceled⟩) hw
  exact H₂.setState hk (fun hd => by simp [WaitTimer.Dead, he] at hd)
    (fun _ => hdue) (fun _ _ => rfl) fun _ _ => ⟨nofun, nofun⟩

theorem Inv.finish (H : s.Inv) (hk : s.timers k = some t) :
    (s.setTimer k { t with state := .finished }).Inv :=
  H.setState hk (fun _ => .inl rfl) (fun h => by rcases h with h | h <;> cases h) (fun _ h => by cases h)
    fun _ _ => ⟨nofun, nofun⟩

theorem Inv.clear (H : s.Inv) (hpc : s.pc = .clear) :
    Inv { s with canceled := false, pc := .loop } := by
  obtain ⟨hdead, hc⟩ := H.atWait (by rw [hpc]; rfl)
  refine ⟨H.log, H.later, fun k t hk h => ?_, H.due, fun t ht h => ?_, fun _ => rfl, nofun, nofun,
    nofun⟩
  · exact H.dead k t hk (h.imp_right fun _ => by rw [hpc]; rfl)
  · rcases hdead t ht with hd | hd <;> simp [hd] at h

theorem Inv.tick (H : s.Inv) : Inv { s with now := s.now + 1 } where
  log := H.log
  later := H.later
  dead := H.dead
  due k t hk h := Nat.le_succ_of_le (H.due k t hk h)
  executing := H.executing
  between := H.between
  canceled h := (H.canceled h).imp fun _ ht => ⟨ht.1, Nat.le_succ_of_le ht.2⟩
  tested := H.tested
  timedOut := H.timedOut

theorem Inv.step {a : SocketStep} (H : s.Inv) (hG : s.Prompt a) (h : s.step a = some s') :
    s'.Inv := by
  cases a with
  | func n errno =>
    simp only [SocketIo.step, Option.ite_none_right_eq_some, Option.some.injEq] at h
    obtain ⟨hpc, rfl⟩ := h
    exact H.goto (fun _ => H.atWait (by rw [hpc]; rfl)) (by grind) (by grind)
  | addCondTimer =>
    simp only [SocketIo.step, Option.ite_none_right_eq_some, Option.some.injEq] at h
    obtain ⟨hpc, rfl⟩ := h
    obtain ⟨H₁, H₂⟩ := H.addCondTimer hpc
    split
    · exact H₂ _
    · exact H₁
  | addEvent suc =>
    simp only [SocketIo.step, Option.ite_none_right_eq_some, Option.some.injEq] at h
    obtain ⟨hpc, rfl⟩ := h
    split
    · exact H.goto nofun nofun nofun
    · exact H.goto nofun nofun nofun
  | yield =>
    simp only [SocketIo.step, Option.ite_none_right_eq_some, Option.some.injEq] at h
    obtain ⟨hpc, rfl⟩ := h
    exact H.goto nofun nofun nofun
  | resume =>
    simp only [SocketIo.step, Option.ite_none_right_eq_some, Option.some.injEq] at h
    obtain ⟨hpc, rfl⟩ := h
    exact H.goto nofun nofun nofun
  | cancel =>
    simp only [SocketIo.step] at h
    split at h
    · cases h
      exact H.cancel (hG ‹_›)
    · simp only [Option.ite_none_right_eq_some, Option.some.injEq] at h
      obtain ⟨-, rfl⟩ := h
      exact H.cancelTimer.goto nofun nofun nofun
  | test =>
    simp only [SocketIo.step, Option.ite_none_right_eq_some, Option.some.injEq] at h
    obtain ⟨hpc, rfl⟩ := h
    have htested := H.tested hpc
    have hexec := H.executing
    split
    · rename_i hc
      exact H.goto nofun nofun fun _ => hc
    · rename_i hc
      refine H.goto (fun _ => ⟨fun t ht => ?_, by simpa using hc⟩) nofun nofun
      have h₁ := htested t ht
      have h₂ := hexec t ht
      unfold WaitTimer.Dead
      cases hst : t.state <;> simp_all
  | clear =>
    simp only [SocketIo.step, Option.ite_none_right_eq_some, Option.some.injEq] at h
    obtain ⟨hpc, rfl⟩ := h
    exact H.clear hpc
  | loop errno =>
    simp only [SocketIo.step, Option.ite_none_right_eq_some, Option.some.injEq] at h
    obtain ⟨hpc, rfl⟩ := h
    exact H.goto (fun _ => H.atWait (by rw [hpc]; rfl)) (by grind) (by grind)
  | report =>
    simp only [SocketIo.step, Option.ite_none_right_eq_some, Option.some.injEq] at h
    obtain ⟨-, rfl⟩ := h
    exact H.frame
  | tick =>
    cases h
    exact H.tick
  | expire =>
    cases h
    exact H.expire
  | callback k =>
    simp only [SocketIo.step] at h
    split at h
    · rename_i t hk
      simp only [Option.ite_none_right_eq_some] at h
      obtain ⟨he, h⟩ := h
      split at h
      · cases h
        exact H.finish hk
      · cases h
        exact H.callback hk he
    · cases h
  | cancelEvent k ctlOk =>
    simp only [SocketIo.step] at h
    split at h
    · rename_i t hk
      simp only [Option.ite_none_right_eq_some, Option.some.injEq] at h
      obtain ⟨he, rfl⟩ := h
      have hw := (H.live hk (by simp [WaitTimer.Dead, he])).1
      split
      · exact ((H.finish hk).log_append (x := ⟨k, s.wait, .cancelEvent⟩) hw).frame
      · exact H.finish hk
    · cases h

theorem init_inv (e : FdEntity) (event : IOManager.Event) : (init e event).Inv :=
  ⟨nofun, nofun, nofun, nofun, nofun, fun _ => rfl, nofun, nofun, nofun⟩

/-- **A wait is timed out by its own timer only** in a call whose waits never end before the
callback of an expired timer of theirs has run. -/
theorem timedOut_own {event : IOManager.Event} (h : Reach step Prompt (init e event) s) :
    (∀ x ∈ s.log, x.timer = x.wait) ∧
      (s.pc = .done .timedOut → ∃ t, s.timers s.wait = some t ∧ t.deadline ≤ s.now) := by
  have H : s.Inv := Reach.inv h (init_inv e event) fun H hG hs => H.step hG hs
  exact ⟨H.log, fun hpc => H.canceled (H.timedOut hpc)⟩

/-- A descriptor with a receive timeout of one millisecond. -/
def quick : FdEntity := { recvTimeout := 1, sendTimeout := 1 }

/-- A wait that times out. -/
def oneTimeout : List SocketStep :=
  [.func (-1) EAGAIN, .addCondTimer, .addEvent true, .yield, .tick, .expire, .callback 1,
    .cancelEvent 1 true, .resume, .cancel, .test]

theorem timedOut_own_first : ∃ s, Reach step Prompt (init quick .READ) s ∧
    s.pc = .done .timedOut ∧ ∃ t, s.timers s.wait = some t ∧ t.deadline ≤ s.now := by
  obtain ⟨s, hs, h⟩ := Reach.of_any step Prompt (init quick .READ) oneTimeout
    (fun s => s.pc = .done .timedOut) (by decide +kernel)
  have h := of_decide_eq_true h
  exact ⟨s, hs, h, (timedOut_own hs).2 h⟩

/-- The first wait ends by readiness when its timer has expired already; the callback runs in the
second wait. -/
def staleCallback : List SocketStep :=
  [.func (-1) EAGAIN, .addCondTimer, .addEvent true, .yield, .tick, .report, .expire, .resume,
    .cancel, .test, .clear, .loop EAGAIN, .func (-1) EAGAIN, .addCondTimer, .addEvent true, .yield,
    .callback 1, .cancelEvent 1 true, .resume, .cancel, .test]

/-- The second wait is cancelled by the timer of the first, and returns `ETIMEDOUT` early. -/
theorem stale_callback_times_out : ∃ s, Reach step Always (init quick .READ) s ∧
    s.pc = .done .timedOut ∧ (∃ x ∈ s.log, x.timer ≠ x.wait) ∧
    ∃ t, s.timers s.wait = some t ∧ s.now < t.deadline := by
  obtain ⟨s, hs, h⟩ := Reach.of_any step Always (init quick .READ) staleCallback
    (fun s => s.pc = .done .timedOut ∧ (∃ x ∈ s.log, x.timer ≠ x.wait) ∧
      (s.timers s.wait).any fun t => s.now < t.deadline) (by decide +kernel)
  obtain ⟨hpc, hx, ht⟩ := of_decide_eq_true h
  exact ⟨s, hs, hpc, hx, by simpa [Option.any_eq_true] using ht⟩

end SocketIo

end Tigerkin
