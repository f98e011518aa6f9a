import Mathlib.Algebra.BigOperators.Group.Finset.Piecewise
import Mathlib.Algebra.Order.BigOperators.Group.Finset
import Tigerkin.IOManager.Workers
import Tigerkin.Std.Sum

/-! # Early closure

A worker that leaves `run` has read `m_pendingEventCount == 0` with `m_mutex` held. Every armed
event is counted there, and so is every trigger until its task is in the pool; the worker itself
registers nothing any more. So none of its events is armed when it leaves, and none of their tasks
pinned to it comes into the pool. -/

namespace Tigerkin.Workers

open Finset
open IOManager (Event EPOLLIN)
open Scheduler (Takes)

variable {s s' t : Workers} {w v : ThreadId} {x : Worker} {r : Registration}

/-! ## Phases -/

/-- What a position of a thread says about the lock and the counters. -/
inductive Phase where
  /-- Outside `run`. -/
  | external
  | loop
  /-- In the test that ends the loop, with `m_mutex` held. -/
  | checking (unread : List Read)
  | failed
  /-- In `m_idleThreadCnt`. -/
  | counted
  /-- The test has passed. -/
  | closing
  | exited
  deriving DecidableEq

def Pc.phase : Pc → Phase
  | .user none => .external
  | .scan | .dispatch _ | .user (some _) | .reschedule _ | .close => .loop
  | .check l => .checking l
  | .checkFailed => .failed
  | .idle false _ | .woken => .counted
  | .idle true _ | .leave => .closing
  | .exited => .exited

namespace Phase

/-- The thread holds `m_mutex`. -/
def Locked : Phase → Prop
  | .checking _ | .failed | .closing => True
  | _ => False

def idleCnt : Phase → Nat
  | .counted => 1
  | _ => 0

def activeCnt : Phase → Nat
  | .loop | .checking _ | .failed | .counted => 1
  | _ => 0

/-- The reads that the test has still to make, once it has begun. -/
def unread : Phase → Option (List Read)
  | .checking l => some l
  | .closing => some []
  | _ => none

/-- The test has passed. -/
def Closed : Phase → Prop
  | .checking [] | .closing | .exited => True
  | _ => False

end Phase

def Worker.phase (x : Worker) : Phase := x.pc.phase

/-- The thread has disarmed `r` and has not scheduled its task yet. -/
def Worker.Carries (x : Worker) (r : Registration) : Prop :=
  ∃ tr, x.trigger = some tr ∧ tr.stage = .schedule r

/-- The event that the trigger of a thread has disarmed and not yet uncounted. -/
def Worker.inFlight (x : Worker) : Nat :=
  match x.trigger with
  | none | some { stage := .clear, .. } => 0
  | some _ => 1

/-- The head of the loop of `idle` has a read to make that fails for an idle worker: it finds a
thread active and a thread idle, namely itself. -/
def Idle.Stays : Idle → Prop
  | .stopping l => .activeThreadCnt ∈ l
  | .canEarlyClosure l => .idleThreadCnt ∈ l
  | _ => True

def Worker.Stays (x : Worker) : Prop :=
  x.idleDone = false ∧ ∀ i, x.pc = .idle false i → i.Stays

/-- The entry in the hands of the loop. -/
def Pc.entry? : Pc → Option Entry
  | .dispatch e => e
  | .reschedule e => some e
  | _ => none

/-- The loop holds a task that it was free to take. -/
def Worker.Took (w : ThreadId) (x : Worker) : Prop :=
  ∀ e, x.pc.entry? = some e → e.source = none ∨ Takes w e.task

/-- Where a trigger can be in progress. -/
def Pc.Calls : Pc → Prop
  | .user _ | .idle _ (.reports _) => True
  | _ => False

/-- Nothing leads from an event that `w` registered to a task pinned to `w`. -/
structure Gone (s : Workers) (w : ThreadId) : Prop where
  armed : ∀ r ∈ s.armed, r.owner ≠ w
  carried : ∀ v r, (s.workers v).Carries r → r.owner ≠ w
  pool : ∀ e ∈ s.taskPools, e.source = some w → e.task.threadId ≠ w

structure Inv (s : Workers) : Prop where
  zero : 0 ∉ s.threads
  others : ∀ v ∉ s.threads, s.workers v = {}
  pending : s.armed.length + ∑ v ∈ s.threads, (s.workers v).inFlight ≤ s.pendingEventCount
  idle : ∑ v ∈ s.threads, (s.workers v).phase.idleCnt ≤ s.idleThreadCnt
  active : ∑ v ∈ s.threads.erase s.callerThreadId, (s.workers v).phase.activeCnt ≤
    s.activeThreadCnt
  mutex : ∀ v, (s.workers v).phase.Locked ↔ s.mutex = some v
  /-- The reads that the test has made, but for the last, stay true while the lock is held. -/
  reads : ∀ v l, (s.workers v).phase.unread = some l →
    ∀ r ∈ s.checks v, r ∉ l → r = .pendingEventCount ∨ s.test r = true
  last : ∀ v l, (s.workers v).pc = .check l → l = [] ∨ l.getLast? = some .pendingEventCount
  stays : ∀ v, v ≠ s.callerThreadId → (s.workers v).Stays
  took : ∀ v, (s.workers v).Took v
  calls : ∀ v, (s.workers v).trigger.isSome → (s.workers v).pc.Calls
  gone : ∀ v, v ≠ s.callerThreadId → (s.workers v).phase.Closed → s.Gone v

theorem Worker.Carries.inFlight (h : x.Carries r) : x.inFlight = 1 := by
  obtain ⟨⟨fd, events, stage⟩, hx, rfl⟩ := h
  simp [Worker.inFlight, hx]

/-! ## One thread moves -/

/-- The thread moves within its phase, and disarms and counts nothing. -/
structure Quiet (s : Workers) (w : ThreadId) (x : Worker) : Prop where
  phase : x.phase = (s.workers w).phase
  inFlight : x.inFlight = (s.workers w).inFlight
  carries : ∀ r, x.Carries r → (s.workers w).Carries r
  calls : x.trigger.isSome → x.pc.Calls
  stays : w ≠ s.callerThreadId → x.Stays
  took : x.Took w

/-- The thread `w` moves to `x` and changes what is shared from `s` to `s'`. -/
inductive Moves (s : Workers) (w : ThreadId) : Workers → Worker → Prop
  | quiet (f c y) : Quiet s w y → Moves s w { s with fdMutex := f, contextThreadId := c } y
  | push (es y) : Quiet s w y → s.mutex = none → ¬(s.workers w).phase.Closed →
      (∀ e ∈ es, e.source = none ∨ Takes w e.task) →
      Moves s w { s with taskPools := s.taskPools ++ es } y
  | take (l y) : Quiet s w y → (∀ e ∈ l, e ∈ s.taskPools) → Moves s w { s with taskPools := l } y
  | arm (c l co) : (s.workers w).pc = .user co → (∀ r ∈ l, r ∈ s.armed ∨ r.owner = w) →
      l.length ≤ s.armed.length + 1 →
      Moves s w { s with
        contextThreadId := c, pendingEventCount := s.pendingEventCount + 1, armed := l }
        (s.workers w)
  | disarm (c r) : r ∈ s.armed →
      Moves s w { s with
        contextThreadId := c, pendingEventCount := s.pendingEventCount - 1
        armed := s.armed.erase r } (s.workers w)
  | clear (r tr) : r ∈ s.armed → (s.workers w).inFlight = 0 → tr.stage = .schedule r →
      (s.workers w).trigger.isSome →
      Moves s w { s with armed := s.armed.erase r } { s.workers w with trigger := some tr }
  | trigger (r tr) : s.mutex = none → (s.workers w).Carries r → tr.stage = .count →
      Moves s w { s with taskPools := s.taskPools ++ r.entries }
        { s.workers w with trigger := some tr }
  | count (tr) : (s.workers w).inFlight = 1 → tr.stage = .clear → (s.workers w).trigger.isSome →
      Moves s w { s with pendingEventCount := s.pendingEventCount - 1 }
        { s.workers w with trigger := some tr }
  | lock : s.mutex = none → (s.workers w).trigger = none → (s.workers w).phase = .loop →
      Moves s w { s with mutex := some w } { s.workers w with pc := .check (s.checks w) }
  | read (r l) : (s.workers w).trigger = none → (s.workers w).pc = .check (r :: l) →
      s.test r = true → Moves s w s { s.workers w with pc := .check l }
  | fail (l) : (s.workers w).trigger = none → (s.workers w).pc = .check l →
      Moves s w s { s.workers w with pc := .checkFailed }
  | closing : (s.workers w).trigger = none → (s.workers w).pc = .check [] →
      s.callerThreadId ≠ w → Moves s w { s with activeThreadCnt := s.activeThreadCnt - 1 }
        { s.workers w with pc := .idle true (.stopping stopping) }
  | closingCaller : (s.workers w).trigger = none → (s.workers w).pc = .check [] →
      s.callerThreadId = w → Moves s w s
        { s.workers w with pc := .idle true (.stopping stopping) }
  | unlock : (s.workers w).trigger = none → (s.workers w).pc = .checkFailed →
      Moves s w { s with mutex := none } { s.workers w with pc := .scan }
  | enterIdle : (s.workers w).trigger = none → (s.workers w).pc = .checkFailed →
      Moves s w { s with mutex := none, idleThreadCnt := s.idleThreadCnt + 1 }
        { s.workers w with pc := .idle false (.stopping stopping) }
  | woken : (s.workers w).trigger = none → (s.workers w).pc = .woken →
      Moves s w { s with idleThreadCnt := s.idleThreadCnt - 1 } { s.workers w with pc := .scan }
  | leave : (s.workers w).trigger = none → (s.workers w).pc = .leave →
      Moves s w { s with mutex := none } { s.workers w with pc := .exited }
  | exit : (s.workers w).trigger = none → (s.workers w).phase = .loop →
      (s.workers w).idleDone = true → Moves s w s { s.workers w with pc := .exited }

/-- `t` is `s` after a move of the thread `w`. -/
def MovesTo (s : Workers) (w : ThreadId) (t : Workers) : Prop :=
  ∃ s' x, Moves s w s' x ∧ t = s'.set w x

@[simp] theorem set_self (s : Workers) (w : ThreadId) (x : Worker) :
    (s.set w x).workers w = x :=
  Function.update_self ..

theorem set_ne (s : Workers) (x : Worker) (h : v ≠ w) :
    (s.set w x).workers v = s.workers v :=
  Function.update_of_ne h ..

theorem Moves.frame (h : Moves s w s' x) : s'.workers = s.workers ∧ s'.threads = s.threads ∧
    s'.callerThreadId = s.callerThreadId := by
  cases h <;> exact ⟨rfl, rfl, rfl⟩

theorem Moves.set_ne (h : Moves s w s' x) (hv : v ≠ w) :
    (s'.set w x).workers v = s.workers v := by
  rw [Workers.set_ne s' x hv, h.frame.1]

theorem Inv.mem (H : s.Inv) (h : (s.workers v).phase ≠ .external) : v ∈ s.threads := by
  by_contra hv
  rw [H.others v hv] at h
  exact h rfl

theorem Phase.Closed.ne_external {p : Phase} (h : p.Closed) : p ≠ .external := by
  rintro rfl
  exact h

theorem Phase.unread_locked {p : Phase} {l : List Read} (h : p.unread = some l) : p.Locked := by
  cases p <;> trivial

/-! ### Counters -/

theorem sum_set {S : Finset ThreadId} (f : Worker → Nat) (hw : w ∈ S) (h : Moves s w s' x) :
    ∑ v ∈ S, f ((s'.set w x).workers v) + f (s.workers w) = ∑ v ∈ S, f (s.workers v) + f x := by
  have := sum_move (f := fun v => f (s.workers v))
    (g := fun v => f ((s'.set w x).workers v)) hw fun v hv => by rw [h.set_ne hv]
  simpa using this

theorem le_sum (f : Worker → Nat) {S : Finset ThreadId} (hw : w ∈ S) :
    f (s.workers w) ≤ ∑ v ∈ S, f (s.workers v) :=
  single_le_sum (f := fun v => f (s.workers v)) (fun _ _ => Nat.zero_le _) hw

theorem Moves.pending (h : Moves s w s' x)
    (hp : s.armed.length + (s.workers w).inFlight ≤ s.pendingEventCount) :
    s'.armed.length + x.inFlight + s.pendingEventCount ≤
      s'.pendingEventCount + s.armed.length + (s.workers w).inFlight := by
  cases h with
  | quiet _ _ _ q | push _ _ q | take _ _ q =>
    have := q.inFlight
    dsimp only
    omega
  | arm _ l _ _ _ hl =>
    dsimp only
    omega
  | disarm _ r hr =>
    have := List.length_pos_of_mem hr
    simp only [List.length_erase_of_mem hr]
    omega
  | clear r tr hr h0 htr =>
    have := List.length_pos_of_mem hr
    have h1 : Worker.inFlight { s.workers w with trigger := some tr } = 1 :=
      Worker.Carries.inFlight ⟨tr, rfl, htr⟩
    simp only [List.length_erase_of_mem hr, h1, h0]
    omega
  | trigger r tr _ hc htr =>
    have h1 : Worker.inFlight { s.workers w with trigger := some tr } = 1 := by
      obtain ⟨fd, events, stage⟩ := tr
      subst htr
      rfl
    simp only [h1, hc.inFlight]
    omega
  | count tr h1 htr =>
    have h0 : Worker.inFlight { s.workers w with trigger := some tr } = 0 := by
      obtain ⟨fd, events, stage⟩ := tr
      subst htr
      rfl
    simp only [h0, h1] at hp ⊢
    omega
  | read | fail | closingCaller | exit =>
    change _ + (s.workers w).inFlight + _ ≤ _
    omega
  | _ =>
    change _ + (s.workers w).inFlight + _ ≤ _
    dsimp only
    omega

theorem Moves.idle (h : Moves s w s' x) : x.phase.idleCnt + s.idleThreadCnt ≤
    s'.idleThreadCnt + (s.workers w).phase.idleCnt := by
  cases h with
  | quiet _ _ _ q | push _ _ q | take _ _ q =>
    rw [q.phase]
    dsimp only
    omega
  | lock _ _ hp => simp [Worker.phase, Pc.phase, Phase.idleCnt]
  | woken _ hp =>
    simp only [Worker.phase, hp, Pc.phase, Phase.idleCnt]
    omega
  | enterIdle _ hp =>
    simp only [Worker.phase, hp, Pc.phase, Phase.idleCnt]
    omega
  | clear | trigger | count | arm | disarm =>
    change (s.workers w).phase.idleCnt + _ ≤ _
    dsimp only
    omega
  | _ => simp [Worker.phase, Pc.phase, Phase.idleCnt]

theorem Moves.active (h : Moves s w s' x) (hw : w ≠ s.callerThreadId) :
    x.phase.activeCnt + s.activeThreadCnt ≤ s'.activeThreadCnt + (s.workers w).phase.activeCnt := by
  cases h with
  | quiet _ _ _ q | push _ _ q | take _ _ q =>
    rw [q.phase]
    dsimp only
    omega
  | lock _ _ hp =>
    rw [hp]
    simp [Worker.phase, Pc.phase, Phase.activeCnt]
    omega
  | read _ _ _ hp | fail _ _ hp | unlock _ hp | enterIdle _ hp | closing _ hp | woken _ hp =>
    simp only [Worker.phase, hp, Pc.phase, Phase.activeCnt]
    omega
  | closingCaller _ _ hc => exact absurd hc.symm hw
  | clear | trigger | count | arm | disarm =>
    change (s.workers w).phase.activeCnt + _ ≤ _
    dsimp only
    omega
  | leave | exit => simp [Worker.phase, Pc.phase, Phase.activeCnt]

theorem Moves.active_caller (h : Moves s w s' x) (hw : w = s.callerThreadId) :
    s'.activeThreadCnt = s.activeThreadCnt := by
  cases h with
  | closing _ _ hc => exact absurd hw.symm hc
  | _ => rfl

/-! ### The lock -/

theorem Inv.locked (H : s.Inv) (h : (s.workers v).phase.Locked) : s.mutex = some v :=
  (H.mutex v).mp h

theorem Moves.mutex (H : s.Inv) (h : Moves s w s' x) (v : ThreadId) :
    ((s'.set w x).workers v).phase.Locked ↔ (s'.set w x).mutex = some v := by
  by_cases hv : v = w
  · subst hv
    rw [set_self]
    cases h with
    | quiet _ _ _ q | push _ _ q | take _ _ q =>
      rw [q.phase]
      exact H.mutex v
    | arm | disarm | clear | trigger | count => exact H.mutex v
    | lock => simp [Workers.set, Worker.phase, Pc.phase, Phase.Locked]
    | read _ _ _ hp | fail _ _ hp | closing _ hp | closingCaller _ hp =>
      have : s.mutex = some v := H.locked (by simp [Worker.phase, hp, Pc.phase, Phase.Locked])
      simp [Workers.set, Worker.phase, Pc.phase, Phase.Locked, this]
    | unlock | enterIdle | leave => simp [Workers.set, Worker.phase, Pc.phase, Phase.Locked]
    | woken _ hp =>
      have : s.mutex ≠ some v := fun h => by
        simpa [Worker.phase, hp, Pc.phase, Phase.Locked] using (H.mutex v).mpr h
      simp [Workers.set, Worker.phase, Pc.phase, Phase.Locked, this]
    | exit _ hp =>
      have : s.mutex ≠ some v := fun h => by
        simpa [hp, Phase.Locked] using (H.mutex v).mpr h
      simp [Workers.set, Worker.phase, Pc.phase, Phase.Locked, this]
  · rw [h.set_ne hv, H.mutex v]
    cases h with
    | lock hm => simp [Workers.set, hm, Ne.symm hv]
    | unlock _ hp | enterIdle _ hp | leave _ hp =>
      have : s.mutex = some w := H.locked (by simp [Worker.phase, hp, Pc.phase, Phase.Locked])
      simp [Workers.set, this, Ne.symm hv]
    | _ => rfl

/-- While the lock is held only its holder, when its test has failed, can make a read fail that
would have passed. -/
theorem Moves.test (h : Moves s w s' x) (hm : s.mutex ≠ none) (hw : (s.workers w).pc ≠ .checkFailed)
    {r : Read} (hr : r ≠ .pendingEventCount) (ht : s.test r = true) : s'.test r = true := by
  cases h with
  | push _ _ _ h | lock h => exact absurd h hm
  | trigger _ _ h => exact absurd h hm
  | unlock _ h | enterIdle _ h => exact absurd h hw
  | take l _ _ hl =>
    cases r with
    | taskPools =>
      simp only [test, List.isEmpty_iff] at ht ⊢
      exact List.eq_nil_iff_forall_not_mem.mpr fun e he => by simpa [ht] using hl e he
    | _ => exact ht
  | arm | disarm | count =>
    cases r with
    | pendingEventCount => exact absurd rfl hr
    | _ => exact ht
  | closing | woken => cases r <;> simp_all [test]
  | _ => exact ht

/-! ### The test -/

theorem Moves.reads (H : s.Inv) (h : Moves s w s' x) (v : ThreadId) (l : List Read)
    (hl : ((s'.set w x).workers v).phase.unread = some l) :
    ∀ r ∈ (s'.set w x).checks v, r ∉ l → r = .pendingEventCount ∨ (s'.set w x).test r = true := by
  have hc : (s'.set w x).checks v = s.checks v := by
    simp [checks, Workers.set, h.frame.2.2]
  have hkeep : (s.workers v).phase.unread = some l → ∀ r ∈ (s'.set w x).checks v, r ∉ l →
      r = .pendingEventCount ∨ (s'.set w x).test r = true := fun hl' r hr hrl => by
    have hlock := H.locked (Phase.unread_locked hl')
    refine or_iff_not_imp_left.mpr fun hne => h.test (by simp [hlock]) (fun hp => ?_) hne
      ((H.reads v l hl' r (hc ▸ hr) hrl).resolve_left hne)
    have hw := H.locked (v := w) (by simp [Worker.phase, hp, Pc.phase, Phase.Locked])
    obtain rfl : v = w := Option.some.inj (hlock.symm.trans hw)
    simp [Worker.phase, hp, Pc.phase, Phase.unread] at hl'
  by_cases hv : v = w
  · subst hv
    rw [set_self] at hl
    cases h with
    | quiet _ _ _ q | push _ _ q | take _ _ q => exact hkeep (q.phase ▸ hl)
    | arm | disarm | clear | trigger | count => exact hkeep hl
    | lock =>
      cases hl
      exact fun r hr hrl => absurd hr hrl
    | read r l' _ hp ht =>
      cases hl
      intro r' hr' hrl
      by_cases he : r' = r
      · exact .inr (he ▸ ht)
      · exact H.reads v (r :: l) (by simp [Worker.phase, hp, Pc.phase, Phase.unread]) r' hr'
          (by simp [he, hrl])
    | closing _ hp | closingCaller _ hp =>
      cases hl
      exact hkeep (by simp [Worker.phase, hp, Pc.phase, Phase.unread])
    | fail | unlock | enterIdle | woken | leave | exit => cases hl
  · rw [h.set_ne hv] at hl
    exact hkeep hl

theorem Moves.last (H : s.Inv) (h : Moves s w s' x) (v : ThreadId) (l : List Read)
    (hl : ((s'.set w x).workers v).pc = .check l) :
    l = [] ∨ l.getLast? = some .pendingEventCount := by
  have hphase : ∀ u : Worker, u.pc = .check l ↔ u.phase = .checking l := fun u => by
    rw [Worker.phase]
    unfold Pc.phase
    split <;> simp_all
  by_cases hv : v = w
  · subst hv
    rw [set_self] at hl
    cases h with
    | quiet _ _ _ q | push _ _ q | take _ _ q =>
      rw [hphase, q.phase, ← hphase] at hl
      exact H.last v l hl
    | arm | disarm | clear | trigger | count => exact H.last v l hl
    | lock =>
      cases hl
      unfold checks
      split <;> exact .inr rfl
    | read r l' _ hp ht =>
      cases hl
      rcases H.last v (r :: l) hp with h | h
      · cases h
      · cases l with
        | nil => exact .inl rfl
        | cons r' l => exact .inr (by simpa using h)
    | fail | closing | closingCaller | unlock | enterIdle | woken | leave | exit => cases hl
  · rw [h.set_ne hv] at hl
    exact H.last v l hl

/-! ### Idle workers -/

theorem Worker.Stays.of_loop (h : x.idleDone = false)
    (hp : ∀ i, x.pc ≠ .idle false i) : x.Stays :=
  ⟨h, fun i h => absurd h (hp i)⟩

theorem Moves.stays (H : s.Inv) (h : Moves s w s' x) (v : ThreadId) (hc : v ≠ s.callerThreadId) :
    ((s'.set w x).workers v).Stays := by
  by_cases hv : v = w
  · subst hv
    rw [set_self]
    have hs := H.stays v hc
    cases h with
    | quiet _ _ _ q | push _ _ q | take _ _ q => exact q.stays hc
    | arm | disarm | clear | trigger | count => exact hs
    | enterIdle =>
      refine ⟨hs.1, fun i h => ?_⟩
      cases h
      exact List.mem_of_getElem? (i := 3) rfl
    | lock | read | fail | closing | closingCaller | unlock | woken | leave | exit =>
      exact .of_loop hs.1 fun i => by simp
  · rw [h.set_ne hv]
    exact H.stays v hc

theorem Moves.took (H : s.Inv) (h : Moves s w s' x) (v : ThreadId) :
    ((s'.set w x).workers v).Took v := by
  by_cases hv : v = w
  · subst hv
    rw [set_self]
    cases h with
    | quiet _ _ _ q | push _ _ q | take _ _ q => exact q.took
    | arm | disarm | clear | trigger | count => exact H.took v
    | lock | read | fail | closing | closingCaller | unlock | enterIdle | woken | leave | exit =>
      exact fun e he => by cases he
  · rw [h.set_ne hv]
    exact H.took v

theorem Moves.calls (H : s.Inv) (h : Moves s w s' x) (v : ThreadId)
    (hs : ((s'.set w x).workers v).trigger.isSome) : ((s'.set w x).workers v).pc.Calls := by
  by_cases hv : v = w
  · subst hv
    rw [set_self] at hs ⊢
    cases h with
    | quiet _ _ _ q | push _ _ q | take _ _ q => exact q.calls hs
    | arm | disarm => exact H.calls v hs
    | clear _ _ _ _ _ h | count _ _ _ h => exact H.calls v h
    | trigger r _ _ h =>
      obtain ⟨tr, h, -⟩ := h
      exact H.calls v (by simp [h])
    | lock _ h | read _ _ h | fail _ h | closing h | closingCaller h | unlock h | enterIdle h
    | woken h | leave h | exit h => simp [h] at hs
  · rw [h.set_ne hv] at hs ⊢
    exact H.calls v hs

/-! ### Closed threads -/

theorem Gone.setPc (hg : s.Gone v) (w : ThreadId) (pc : Pc) : (s.setPc w pc).Gone v where
  armed := hg.armed
  carried u r hc := by
    unfold Workers.setPc at hc
    by_cases hu : u = w
    · subst hu
      rw [set_self] at hc
      exact hg.carried u r hc
    · rw [set_ne s _ hu] at hc
      exact hg.carried u r hc
  pool := hg.pool

theorem Gone.moves (hg : s.Gone v) (h0 : v ≠ 0) (h : Moves s w s' x)
    (hv : v ≠ w ∨ (s.workers w).phase.Closed) : (s'.set w x).Gone v where
  armed r hr := by
    cases h with
    | arm c l co hp hl =>
      rcases hl r hr with hr | rfl
      · exact hg.armed r hr
      · refine (hv.resolve_right fun hc => ?_).symm
        cases co <;> simp [Worker.phase, hp, Pc.phase, Phase.Closed] at hc
    | disarm | clear => exact hg.armed r (List.mem_of_mem_erase hr)
    | _ => exact hg.armed r hr
  carried u r hc := by
    by_cases hu : u = w
    · subst hu
      rw [set_self] at hc
      cases h with
      | quiet _ _ _ q | push _ _ q | take _ _ q => exact hg.carried u r (q.carries r hc)
      | clear r' tr hr' _ htr =>
        obtain ⟨tr', h, hr⟩ := hc
        cases h
        cases htr.symm.trans hr
        exact hg.armed r hr'
      | trigger _ tr _ _ htr | count tr _ htr =>
        obtain ⟨tr', h, hr⟩ := hc
        cases h
        cases htr.symm.trans hr
      | _ => exact hg.carried u r hc
    · rw [h.set_ne hu] at hc
      exact hg.carried u r hc
  pool e he hes := by
    cases h with
    | push es _ _ _ hnc hes' =>
      rcases List.mem_append.mp he with he | he
      · exact hg.pool e he hes
      · rcases hes' e he with h | h | h
        · rw [h] at hes
          cases hes
        · exact h ▸ h0.symm
        · exact h ▸ (hv.resolve_right hnc).symm
    | take l _ _ hl => exact hg.pool e (hl e he) hes
    | trigger r _ _ hc =>
      rcases List.mem_append.mp he with he | he
      · exact hg.pool e he hes
      · unfold Registration.entries at he
        split at he
        · cases List.mem_singleton.mp he
          exact absurd (Option.some.inj hes) (hg.carried w r hc)
        · cases he
    | _ => exact hg.pool e he hes

/-- An empty pool and a count of 0 leave nothing behind. -/
theorem Inv.gone_of_pending (H : s.Inv) (hp : s.pendingEventCount = 0) (hpool : s.taskPools = [])
    (v : ThreadId) : s.Gone v where
  armed r hr := by
    have := List.length_pos_of_mem hr
    have := H.pending
    omega
  carried u r hc := by
    have hu : u ∈ s.threads := by
      by_contra hu
      rw [H.others u hu] at hc
      obtain ⟨_, h, _⟩ := hc
      cases h
    have := le_sum (s := s) Worker.inFlight hu
    rw [hc.inFlight] at this
    have := H.pending
    omega
  pool e he := by simp [hpool] at he

theorem Inv.pool_eq_nil (H : s.Inv) {l : List Read} (h : (s.workers v).phase.unread = some l)
    (hl : .taskPools ∉ l) : s.taskPools = [] := by
  have : Read.taskPools ∈ s.checks v := by
    unfold checks
    split <;> decide
  rcases H.reads v l h _ this hl with h | h
  · cases h
  · simpa [test] using h

theorem Moves.gone (H : s.Inv) (h : Moves s w s' x) (v : ThreadId) (hc : v ≠ s.callerThreadId)
    (hv : ((s'.set w x).workers v).phase.Closed) : (s'.set w x).Gone v := by
  have hkeep : (s.workers v).phase.Closed → (s'.set w x).Gone v := fun hv' => by
    have h0 : v ≠ 0 := by
      rintro rfl
      exact H.zero (H.mem hv'.ne_external)
    refine (H.gone v hc hv').moves h0 h ?_
    by_cases hvw : v = w
    · exact .inr (hvw ▸ hv')
    · exact .inl hvw
  by_cases hvw : v = w
  · subst hvw
    rw [set_self] at hv
    cases h with
    | quiet _ _ _ q | push _ _ q | take _ _ q => exact hkeep (q.phase ▸ hv)
    | arm | disarm | clear | trigger | count => exact hkeep hv
    | lock =>
      refine absurd hv ?_
      unfold checks
      split <;> exact id
    | read r l ht hp hr =>
      cases l with
      | cons => exact hv.elim
      | nil =>
        obtain rfl : r = .pendingEventCount := by simpa using H.last v _ hp
        refine (H.gone_of_pending (beq_iff_eq.mp hr) ?_ v).setPc v _
        exact H.pool_eq_nil (v := v) (by simp [Worker.phase, hp, Pc.phase, Phase.unread]; rfl)
          (by decide)
    | closing _ hp | closingCaller _ hp =>
      exact hkeep (by simp [Worker.phase, hp, Pc.phase, Phase.Closed])
    | leave _ hp => exact hkeep (by simp [Worker.phase, hp, Pc.phase, Phase.Closed])
    | exit _ _ hd =>
      have := (H.stays v hc).1
      rw [hd] at this
      cases this
    | fail | unlock | enterIdle | woken => exact hv.elim
  · rw [h.set_ne hvw] at hv
    exact hkeep hv

/-! ## Steps are moves -/

theorem Inv.moves (H : s.Inv) (hw : w ∈ s.threads) (h : Moves s w s' x) : (s'.set w x).Inv := by
  obtain ⟨-, hthreads, hcaller⟩ := h.frame
  have hthreads : (s'.set w x).threads = s.threads := hthreads
  have hcaller : (s'.set w x).callerThreadId = s.callerThreadId := hcaller
  exact
    { zero := hthreads ▸ H.zero
      others := fun v hv => by
        rw [hthreads] at hv
        rw [h.set_ne (ne_of_mem_of_not_mem hw hv).symm]
        exact H.others v hv
      pending := by
        have h1 := sum_set Worker.inFlight hw h
        have h2 := le_sum (s := s) Worker.inFlight hw
        have h3 := H.pending
        have h4 := h.pending (by omega)
        rw [hthreads]
        change s'.armed.length + _ ≤ s'.pendingEventCount
        omega
      idle := by
        have h1 := sum_set (fun u => u.phase.idleCnt) hw h
        have h2 := H.idle
        have h3 := h.idle
        rw [hthreads]
        change _ ≤ s'.idleThreadCnt
        omega
      active := by
        rw [hthreads, hcaller]
        change _ ≤ s'.activeThreadCnt
        have h2 := H.active
        by_cases hc : w = s.callerThreadId
        · rw [h.active_caller hc]
          rw [sum_congr rfl fun v hv => by rw [h.set_ne (hc ▸ ne_of_mem_erase hv)]]
          exact h2
        · have h1 := sum_set (fun u => u.phase.activeCnt) (mem_erase.mpr ⟨hc, hw⟩) h
          have h3 := h.active hc
          omega
      mutex := h.mutex H
      reads := h.reads H
      last := h.last H
      stays := fun v hv => h.stays H v (hcaller ▸ hv)
      took := h.took H
      calls := h.calls H
      gone := fun v hv => h.gone H v (hcaller ▸ hv) }

theorem Inv.quiet_pc (H : s.Inv) (ht : (s.workers w).trigger = none) {q : Pc}
    (hq : q.phase = (s.workers w).phase) (hi : ∀ i, q ≠ .idle false i)
    (he : ∀ e, q.entry? = some e → e.source = none ∨ Takes w e.task) :
    Quiet s w { s.workers w with pc := q } where
  phase := hq
  inFlight := rfl
  carries _ h := h
  calls h := by simp [ht] at h
  stays hc := .of_loop (H.stays w hc).1 hi
  took := he

/-- An idle worker finds itself active. -/
theorem Inv.active_pos (H : s.Inv) (hc : w ≠ s.callerThreadId)
    (hp : (s.workers w).phase = .counted) : s.activeThreadCnt ≠ 0 := by
  have hw : w ∈ s.threads := H.mem (by simp [hp])
  have h1 := le_sum (s := s) (fun u => u.phase.activeCnt) (mem_erase.mpr ⟨hc, hw⟩)
  have h2 := H.active
  have h3 : (s.workers w).phase.activeCnt = 1 := by rw [hp]; rfl
  omega

/-- An idle thread finds itself counted. -/
theorem Inv.idle_pos (H : s.Inv) (hp : (s.workers w).phase = .counted) : s.idleThreadCnt ≠ 0 := by
  have hw : w ∈ s.threads := H.mem (by simp [hp])
  have h1 := le_sum (s := s) (fun u => u.phase.idleCnt) hw
  have h2 := H.idle
  have h3 : (s.workers w).phase.idleCnt = 1 := by rw [hp]; rfl
  omega

theorem idle_phase {last : Bool} {i i' : Idle} :
    (Pc.idle last i).phase = (Pc.idle last i').phase := by
  cases last <;> rfl

theorem Inv.quiet_idle (H : s.Inv) (ht : (s.workers w).trigger = none) {last : Bool} {i i' : Idle}
    (hp : (s.workers w).pc = .idle last i)
    (hs : w ≠ s.callerThreadId → last = false → i'.Stays) :
    Quiet s w { s.workers w with pc := .idle last i' } where
  phase := by
    rw [Worker.phase, Worker.phase, hp]
    exact idle_phase
  inFlight := rfl
  carries _ h := h
  calls h := by simp [ht] at h
  stays hc := by
    refine ⟨(H.stays w hc).1, fun j h => ?_⟩
    cases h
    exact hs hc rfl
  took e he := by cases he

theorem Quiet.movesTo (q : Quiet s w x) : MovesTo s w (s.set w x) :=
  ⟨s, x, .quiet s.fdMutex s.contextThreadId x q, rfl⟩

theorem idleReturn_movesTo (H : s.Inv) (ht : (s.workers w).trigger = none) {last : Bool} {i : Idle}
    (hp : (s.workers w).pc = .idle last i) (hi : w ≠ s.callerThreadId → last ≠ false) :
    MovesTo s w (s.idleReturn w last) := by
  unfold idleReturn
  cases last with
  | true =>
    exact (H.quiet_pc ht (by rw [Worker.phase, hp]; rfl) (by simp) (by simp [Pc.entry?])).movesTo
  | false =>
    exact Quiet.movesTo
      { phase := by rw [Worker.phase, Worker.phase, hp]; rfl
        inFlight := rfl
        carries := fun _ h => h
        calls := fun h => by simp [ht] at h
        stays := fun hc => absurd rfl (hi hc)
        took := fun e he => by cases he }

/-- A read that passes is not the one that fails for an idle worker. -/
theorem stays_of_mem {l : List Read} {r r' : Read} (h : r' ∈ r :: l) (hr' : s.test r' = false)
    (hr : s.test r = true) : r' ∈ l := by
  rcases List.mem_cons.mp h with rfl | h
  · rw [hr] at hr'
    cases hr'
  · exact h

theorem idle_movesTo (H : s.Inv) (ht : (s.workers w).trigger = none) {last : Bool} {i : Idle}
    (hp : (s.workers w).pc = .idle last i) (h : s.idle w last i = some t) : MovesTo s w t := by
  have hstay : w ≠ s.callerThreadId → last = false →
      i.Stays ∧ s.test .activeThreadCnt = false ∧ s.test .idleThreadCnt = false := by
    rintro hc rfl
    have hphase : (s.workers w).phase = .counted := by rw [Worker.phase, hp]; rfl
    exact ⟨(H.stays w hc).2 i hp, beq_false_of_ne (H.active_pos hc hphase),
      beq_false_of_ne (H.idle_pos hphase)⟩
  cases i with
  | stopping l =>
    cases l with
    | nil =>
      cases h
      exact idleReturn_movesTo H ht hp fun hc hl => List.not_mem_nil (hstay hc hl).1
    | cons r l =>
      cases h
      refine (H.quiet_idle ht hp fun hc hl => ?_).movesTo
      obtain ⟨h1, h2, -⟩ := hstay hc hl
      split
      · exact stays_of_mem h1 h2 ‹_›
      · split
        · trivial
        · exact List.mem_of_getElem? (i := 2) rfl
  | canEarlyClosure l =>
    cases l with
    | nil =>
      cases h
      exact idleReturn_movesTo H ht hp fun hc hl => List.not_mem_nil (hstay hc hl).1
    | cons r l =>
      cases h
      refine (H.quiet_idle ht hp fun hc hl => ?_).movesTo
      obtain ⟨h1, -, h2⟩ := hstay hc hl
      split
      · exact stays_of_mem h1 h2 ‹_›
      · trivial
  | reports l =>
    cases l with
    | nil =>
      cases h
      refine (H.quiet_pc ht ?_ ?_ ?_).movesTo
      · rw [Worker.phase, hp]
        cases last <;> rfl
      · cases last <;> simp
      · cases last <;> simp [Pc.entry?]
    | cons => cases h
  | epollWait | scheduleIterator => cases h

theorem registration?_mem {fd : Nat} {event : Event} (h : s.registration? fd event = some r) :
    r ∈ s.armed :=
  List.mem_of_find?_eq_some h

theorem triggerEvent_movesTo (H : s.Inv) {tr : Trigger} (ht : (s.workers w).trigger = some tr)
    (h : s.triggerEvent w tr = some t) : MovesTo s w t := by
  have hsome : (s.workers w).trigger.isSome := by simp [ht]
  obtain ⟨fd, events, stage⟩ := tr
  cases stage with
  | clear =>
    have h0 : (s.workers w).inFlight = 0 := by simp [Worker.inFlight, ht]
    cases events with
    | nil =>
      cases h
      refine ⟨_, _, .quiet (Function.update s.fdMutex fd none) s.contextThreadId
        { s.workers w with trigger := none } ?_, rfl⟩
      exact
        { phase := rfl
          inFlight := h0.symm
          carries := fun _ ⟨_, h, _⟩ => by cases h
          calls := fun h => by cases h
          stays := H.stays w
          took := H.took w }
    | cons event events =>
      obtain ⟨r, hr, rfl⟩ := Option.map_eq_some_iff.mp h
      exact ⟨_, _, .clear r _ (registration?_mem hr) h0 rfl hsome, rfl⟩
  | schedule r =>
    simp only [triggerEvent] at h
    split at h
    · cases h
      exact ⟨_, _, .trigger r _ ‹_› ⟨_, ht, rfl⟩ rfl, rfl⟩
    · cases h
  | count =>
    cases h
    exact ⟨_, _, .count _ (by simp [Worker.inFlight, ht]) rfl hsome, rfl⟩

theorem startTrigger_movesTo (H : s.Inv) (ht : (s.workers w).trigger = none) {q : Pc}
    (hq : q.phase = (s.workers w).phase) (hi : ∀ i, q = .idle false i → i.Stays) (hc : q.Calls)
    (fd : Nat) (events : List Event) : MovesTo s w ((s.setPc w q).startTrigger w fd events) := by
  refine ⟨_, { s.workers w with pc := q, trigger := some { fd, events } },
    .quiet (Function.update s.fdMutex fd (some w)) s.contextThreadId _ ?_, ?_⟩
  · exact
      { phase := hq
        inFlight := by simp [Worker.inFlight, ht]
        carries := fun _ ⟨_, h, hr⟩ => by
          cases h
          cases hr
        calls := fun _ => hc
        stays := fun hw => ⟨(H.stays w hw).1, hi⟩
        took := fun e he => by
          cases q <;> first | exact hc.elim | cases he }
  · simp [startTrigger, setPc, setTrigger, set]

theorem setPc_self (s : Workers) (w : ThreadId) : s.setPc w (s.workers w).pc = s :=
  congrArg (fun f => { s with workers := f }) (Function.update_eq_self w s.workers)

theorem Inv.movesTo_self (H : s.Inv) {q : Pc}
    (hq : q.phase = (s.workers w).phase) (hi : ∀ i, q = .idle false i → i.Stays) (hc : q.Calls) :
    MovesTo s w (s.setPc w q) :=
  Quiet.movesTo
    { phase := hq
      inFlight := rfl
      carries := fun _ h => h
      calls := fun _ => hc
      stays := fun hw => ⟨(H.stays w hw).1, hi⟩
      took := fun e he => by cases q <;> first | exact hc.elim | cases he }

theorem scan_movesTo (H : s.Inv) (ht : (s.workers w).trigger = none)
    (hp : (s.workers w).pc = .scan) : MovesTo s w (s.scan w) := by
  refine ⟨_, _, .take (s.taskPools.eraseP fun e => Takes w e.task)
    { s.workers w with pc := .dispatch (s.taskPools.find? fun e => Takes w e.task) } ?_
    fun e he => List.mem_of_mem_eraseP he, rfl⟩
  refine H.quiet_pc ht (by rw [Worker.phase, hp]; rfl) (by simp) fun e he => .inr ?_
  have := List.find?_some (he : s.taskPools.find? _ = some e)
  simpa using this

theorem closing_movesTo (ht : (s.workers w).trigger = none) (hp : (s.workers w).pc = .check []) :
    MovesTo s w (s.closing w) := by
  unfold closing
  split
  · exact ⟨_, _, .closingCaller ht hp ‹_›, rfl⟩
  · exact ⟨_, _, .closing ht hp ‹_›, rfl⟩

theorem notClosing_movesTo (ht : (s.workers w).trigger = none)
    (hp : (s.workers w).pc = .checkFailed) : MovesTo s w (s.notClosing w) := by
  unfold notClosing
  dsimp only
  split
  · exact ⟨_, _, .unlock ht hp, rfl⟩
  · exact ⟨_, _, .enterIdle ht hp, rfl⟩

theorem run_movesTo (H : s.Inv) (h : s.run w = some t) : MovesTo s w t := by
  unfold run at h
  cases ht : (s.workers w).trigger with
  | some tr =>
    rw [ht] at h
    exact triggerEvent_movesTo H ht h
  | none =>
    rw [ht] at h
    cases hp : (s.workers w).pc with
    | scan =>
      simp only [hp] at h
      split at h
      · cases h
        exact scan_movesTo H ht hp
      · cases h
    | dispatch e =>
      cases e with
      | some => simp [hp] at h
      | none =>
        simp only [hp] at h
        cases h
        split
        · exact ⟨_, _, .exit ht (by rw [Worker.phase, hp]; rfl) ‹_›, rfl⟩
        · exact (H.quiet_pc ht (by rw [Worker.phase, hp]; rfl) (by simp)
            (by simp [Pc.entry?])).movesTo
    | reschedule e =>
      simp only [hp] at h
      split at h
      · cases h
        refine ⟨_, _, .push [e] { s.workers w with pc := .scan } ?_ ‹_› ?_ ?_, rfl⟩
        · exact H.quiet_pc ht (by rw [Worker.phase, hp]; rfl) (by simp) (by simp [Pc.entry?])
        · simp [Worker.phase, hp, Pc.phase, Phase.Closed]
        · intro e' he'
          cases List.mem_singleton.mp he'
          exact H.took w e (by rw [hp]; rfl)
      · cases h
    | close =>
      simp only [hp] at h
      split at h
      · cases h
        exact ⟨_, _, .lock ‹_› ht (by rw [Worker.phase, hp]; rfl), rfl⟩
      · cases h
    | check l =>
      cases l with
      | nil =>
        simp only [hp] at h
        cases h
        exact closing_movesTo ht hp
      | cons r l =>
        simp only [hp] at h
        cases h
        split
        · exact ⟨_, _, .read r l ht hp ‹_›, rfl⟩
        · exact ⟨_, _, .fail _ ht hp, rfl⟩
    | checkFailed =>
      simp only [hp] at h
      cases h
      exact notClosing_movesTo ht hp
    | idle last i =>
      simp only [hp] at h
      exact idle_movesTo H ht hp h
    | woken =>
      simp only [hp] at h
      cases h
      exact ⟨_, _, .woken ht hp, rfl⟩
    | leave =>
      simp only [hp] at h
      cases h
      exact ⟨_, _, .leave ht hp, rfl⟩
    | user | exited => simp [hp] at h

theorem schedule_eq (s : Workers) (task : Task) (force : Bool) :
    ∃ es, s.schedule task force = { s with taskPools := s.taskPools ++ es } ∧
      (∀ e ∈ es, e.source = none) := by
  unfold schedule
  split
  · exact ⟨[], by simp, by simp⟩
  · split
    · exact ⟨[{ task }], rfl, by simp⟩
    · exact ⟨[], by simp, by simp⟩

theorem foldl_schedule_eq (s : Workers) (cbs : List CbId) :
    ∃ es, cbs.foldl (fun s cb => s.schedule { cb := some cb } false) s =
      { s with taskPools := s.taskPools ++ es } ∧ (∀ e ∈ es, e.source = none) := by
  induction cbs generalizing s with
  | nil => exact ⟨[], by simp, by simp⟩
  | cons cb cbs ih =>
    obtain ⟨es, h, hes⟩ := s.schedule_eq { cb := some cb } false
    obtain ⟨es', h', hes'⟩ := ih (s.schedule { cb := some cb } false)
    refine ⟨es ++ es', ?_, fun e he => (List.mem_append.mp he).elim (hes e) (hes' e)⟩
    rw [List.foldl_cons, h', h, List.append_assoc]

theorem user_phase (co : Option CoId) : ¬(Pc.user co).phase.Closed := by
  cases co <;> exact id

theorem arm_movesTo {co : Option CoId} (hp : (s.workers w).pc = .user co) (fd : Nat)
    (event : Event) (co' : CoId) (cb : Option CbId) (here : Bool) :
    MovesTo s w (s.arm w fd event co' cb here) := by
  refine ⟨_, _, .arm _ (s.arm w fd event co' cb here).armed co hp (fun r hr => ?_) ?_,
    (setPc_self (s.arm w fd event co' cb here) w).symm⟩
  · unfold arm at hr
    dsimp only at hr
    split at hr
    · exact .inl hr
    · rcases List.mem_cons.mp hr with rfl | hr
      · exact .inr rfl
      · exact .inl hr
  · unfold arm
    dsimp only
    split <;> simp

theorem call_movesTo (H : s.Inv) (ht : (s.workers w).trigger = none) {co : Option CoId} {op : Op}
    (hp : (s.workers w).pc = .user co) (h : s.call w co op = some t) : MovesTo s w t := by
  have hself : MovesTo s w s := by
    have := H.movesTo_self (q := (s.workers w).pc) rfl (by simp [hp]) (by rw [hp]; trivial)
    rwa [setPc_self] at this
  have htrigger : ∀ fd events, MovesTo s w (s.startTrigger w fd events) := fun fd events => by
    have := startTrigger_movesTo H ht (q := (s.workers w).pc) rfl (by simp [hp])
      (by rw [hp]; trivial) fd events
    rwa [setPc_self] at this
  cases op with
  | back ready =>
    obtain ⟨co, rfl, rfl⟩ := Option.map_eq_some_iff.mp h
    refine (H.quiet_pc ht ?_ ?_ ?_).movesTo
    · rw [Worker.phase, hp]
      cases ready <;> rfl
    · cases ready <;> simp
    · cases ready <;> simp [Pc.entry?]
  | schedule task force =>
    simp only [call] at h
    split at h
    · cases h
      obtain ⟨es, h, hes⟩ := s.schedule_eq task force
      refine ⟨_, _, .push es (s.workers w) ?_ ‹_› ?_ fun e he => .inl (hes e he), ?_⟩
      · exact ⟨rfl, rfl, fun _ h => h, H.calls w, H.stays w, H.took w⟩
      · rw [Worker.phase, hp]
        exact user_phase co
      · rw [h]
        exact (setPc_self _ w).symm
    · cases h
  | addEvent fd event co' cb here =>
    simp only [call, addEvent] at h
    split at h
    · cases h
      split
      · exact hself
      · exact arm_movesTo hp fd event co' cb here
    · cases h
  | delEvent fd event =>
    simp only [call, delEvent] at h
    split at h
    · cases h
      split
      · exact hself
      · exact ⟨_, _, .disarm _ _ (registration?_mem ‹_›), (setPc_self _ w).symm⟩
    · cases h
  | cancelEvent fd event =>
    simp only [call, cancelEvent] at h
    split at h
    · cases h
      split
      · exact htrigger fd _
      · exact hself
    · cases h
  | cancelAllEvent fd =>
    simp only [call, cancelAllEvent] at h
    split at h
    · cases h
      split
      · exact hself
      · exact htrigger fd _
    · cases h
  | run | dispatch | epollWait | scheduleIterator | report => cases h

theorem idleBody_movesTo (H : s.Inv) (ht : (s.workers w).trigger = none) {last : Bool} {i : Idle}
    {op : Op} (hp : (s.workers w).pc = .idle last i) (h : s.idleBody w last i op = some t) :
    MovesTo s w t := by
  unfold idleBody at h
  split at h
  · cases h
    exact (H.quiet_idle ht hp fun _ _ => by trivial).movesTo
  · split at h
    · cases h
      rename_i reports cbs hm
      obtain ⟨es, h, hes⟩ := s.foldl_schedule_eq cbs
      refine ⟨_, _, .push es { s.workers w with pc := .idle last (.reports reports) }
        (H.quiet_idle ht hp fun _ _ => trivial) hm ?_
        (fun e he => .inl (hes e he)), ?_⟩
      · rw [Worker.phase, hp]
        intro hc
        cases last with
        | false => exact hc
        | true =>
          have := H.locked (v := w) (by rw [Worker.phase, hp]; trivial)
          simp_all
      · rw [h]
        rfl
    · cases h
  · split at h
    · cases h
      have hphase : (Pc.idle last (.reports ‹_›)).phase = (s.workers w).phase := by
        rw [Worker.phase, hp]
        exact idle_phase
      unfold report
      dsimp only
      split
      · exact startTrigger_movesTo H ht hphase (fun i h => by cases h; trivial) trivial _ _
      · exact H.movesTo_self hphase (fun i h => by cases h; trivial) trivial
    · cases h
  · cases h

theorem dispatch_movesTo (H : s.Inv) (ht : (s.workers w).trigger = none) {e : Entry}
    (hp : (s.workers w).pc = .dispatch (some e)) (finished : Bool) (co : CoId) :
    MovesTo s w (s.setPc w (dispatch e finished co)) := by
  have hphase : (s.workers w).phase = .loop := by rw [Worker.phase, hp]; rfl
  refine (H.quiet_pc ht ?_ ?_ ?_).movesTo
  · rw [hphase]
    unfold dispatch
    split
    · rfl
    · split <;> rfl
  · unfold dispatch
    split
    · simp
    · split <;> simp
  · unfold dispatch
    split
    · simp [Pc.entry?]
    · split
      · rintro e' ⟨⟩
        exact H.took w e (by rw [hp]; rfl)
      · simp [Pc.entry?]

theorem act_movesTo (H : s.Inv) {op : Op} (h : s.act w op = some t) : MovesTo s w t := by
  unfold act at h
  split at h
  · exact run_movesTo H h
  · cases h
    exact dispatch_movesTo H ‹_› ‹_› _ _
  · exact call_movesTo H ‹_› ‹_› h
  · exact idleBody_movesTo H ‹_› ‹_› h
  · cases h

/-- What `stop` sets turns no read from true to false. -/
theorem Inv.of_flags (H : s.Inv) {a m : Bool} (ha : s.autoStop = true → a = true)
    (hm : s.mStopping = true → m = true) : { s with autoStop := a, mStopping := m }.Inv :=
  { H with
    reads := fun v l hl r hr hrl => (H.reads v l hl r hr hrl).imp_right fun h => by
      cases r with
      | autoStop => exact ha h
      | mStopping => exact hm h
      | _ => exact h
    gone := fun v hv hc => { H.gone v hv hc with } }

theorem Inv.step (H : s.Inv) {a : Step} (h : s.step a = some t) : t.Inv := by
  cases a with
  | act w op =>
    simp only [Workers.step] at h
    split at h
    · obtain ⟨s', x, hm, rfl⟩ := act_movesTo H h
      exact H.moves ‹_› hm
    · cases h
  | setAutoStop =>
    cases h
    exact H.of_flags (fun _ => rfl) id
  | setStopping =>
    simp only [Workers.step] at h
    split at h
    · cases h
      exact H.of_flags id fun _ => rfl
    · cases h

theorem init_phase (useCaller : Bool) (n m : Nat) (v : ThreadId) :
    ((init useCaller n m).workers v).phase = if 1 ≤ v ∧ v ≤ n then .loop else .external := by
  simp only [init, Worker.phase]
  split <;> rfl

theorem init_active (useCaller : Bool) (n m : Nat) :
    ∑ v ∈ (init useCaller n m).threads.erase (init useCaller n m).callerThreadId,
      ((init useCaller n m).workers v).phase.activeCnt ≤ (init useCaller n m).activeThreadCnt := by
  have hcnt (v : ThreadId) : ((init useCaller n m).workers v).phase.activeCnt =
      if 1 ≤ v ∧ v ≤ n then 1 else 0 := by
    rw [init_phase]
    split <;> rfl
  have hsub : (((init useCaller n m).threads.erase (init useCaller n m).callerThreadId).filter
      fun v => 1 ≤ v ∧ v ≤ n) ⊆ (Icc 1 n).erase (init useCaller n m).callerThreadId := fun v hv => by
    obtain ⟨hv, hvn⟩ := mem_filter.mp hv
    exact mem_erase.mpr ⟨ne_of_mem_erase hv, mem_Icc.mpr hvn⟩
  simp only [hcnt, ← card_filter]
  refine (card_le_card hsub).trans ?_
  cases useCaller with
  | false => simp [init]
  | true =>
    by_cases hn : 1 ≤ n
    · simp [init]
    · simp [init, Icc_eq_empty hn]

theorem init_inv (useCaller : Bool) (n m : Nat) : (init useCaller n m).Inv where
  zero := by simp [init]
  others v hv := by
    have : ¬(1 ≤ v ∧ v ≤ n) := fun h => hv (mem_Icc.mpr ⟨h.1, h.2.trans (Nat.le_add_right n m)⟩)
    simp only [init, if_neg this]
  pending := by simp [init, Worker.inFlight]
  idle := by
    refine (sum_eq_zero fun v _ => ?_).le
    rw [init_phase]
    split <;> rfl
  active := init_active useCaller n m
  mutex v := by
    rw [init_phase]
    split <;> simp [Phase.Locked, init]
  reads v l h := by
    rw [init_phase] at h
    split at h <;> cases h
  last v l h := by
    simp only [init] at h
    split at h <;> cases h
  stays v hv := by
    refine .of_loop rfl fun i => ?_
    simp only [init]
    split <;> simp
  took v e h := by
    simp only [init] at h
    split at h <;> cases h
  calls v h := by cases h
  gone v hv h := by
    rw [init_phase] at h
    split at h <;> exact h.elim

/-! ## Leaving `run` -/

theorem Inv.reach (h : Reach Workers.step Always (init useCaller n m) s) : s.Inv :=
  h.inv (init_inv useCaller n m) fun H _ hs => H.step hs

/-- A step is a move of one thread, or sets a flag. -/
theorem Inv.step_cases (H : s.Inv) {a : Step} (h : s.step a = some t) :
    (∃ w op, a = .act w op ∧ w ∈ s.threads ∧ s.act w op = some t ∧ MovesTo s w t) ∨
      (t.workers = s.workers ∧ t.callerThreadId = s.callerThreadId ∧ t.mutex = s.mutex) := by
  cases a with
  | act w op =>
    simp only [Workers.step] at h
    split at h
    · exact .inl ⟨w, op, rfl, ‹_›, h, act_movesTo H h⟩
    · cases h
  | setAutoStop =>
    cases h
    exact .inr ⟨rfl, rfl, rfl⟩
  | setStopping =>
    simp only [Workers.step] at h
    split at h
    · cases h
      exact .inr ⟨rfl, rfl, rfl⟩
    · cases h

theorem Inv.step_callerThreadId (H : s.Inv) {a : Step} (h : s.step a = some t) :
    t.callerThreadId = s.callerThreadId := by
  rcases H.step_cases h with ⟨w, _, _, _, _, s', x, hm, rfl⟩ | ⟨-, h, -⟩
  · exact hm.frame.2.2
  · exact h

theorem phase_eq_exited : x.phase = .exited ↔ x.pc = .exited := by
  rw [Worker.phase]
  unfold Pc.phase
  split <;> simp_all

/-- A worker leaves `run` from the branch of `canEarlyClosure` only. -/
theorem Moves.leave_of_exited (H : s.Inv) (h : Moves s w s' x) (hc : w ≠ s.callerThreadId)
    (hp : (s.workers w).pc ≠ .exited) (hx : x.pc = .exited) :
    (s.workers w).pc = .leave ∧ s'.taskPools = s.taskPools := by
  rw [Ne, ← phase_eq_exited] at hp
  cases h with
  | quiet _ _ _ q | push _ _ q | take _ _ q => exact absurd (q.phase ▸ phase_eq_exited.mpr hx) hp
  | arm | disarm | clear | trigger | count => exact absurd (phase_eq_exited.mpr hx) hp
  | leave _ h => exact ⟨h, rfl⟩
  | exit _ _ h =>
    have := (H.stays w hc).1
    rw [h] at this
    cases this
  | lock | read | fail | closing | closingCaller | unlock | enterIdle | woken => cases hx

theorem Inv.act_of_exited (H : s.Inv) (h : (s.workers w).pc = .exited) (op : Op) :
    s.act w op = none := by
  have ht : (s.workers w).trigger = none := by
    by_contra ht
    have := H.calls w (Option.isSome_iff_ne_none.mpr ht)
    rw [h] at this
    exact this
  cases op <;> simp [act, run, h, ht]

theorem Inv.exited_step (H : s.Inv) (hw : (s.workers w).pc = .exited) {a : Step}
    (h : s.step a = some t) : (t.workers w).pc = .exited := by
  rcases H.step_cases h with ⟨v, op, -, -, hact, s', x, hm, rfl⟩ | ⟨h, -⟩
  · have hv : w ≠ v := by
      rintro rfl
      rw [H.act_of_exited hw] at hact
      cases hact
    rw [hm.set_ne hv]
    exact hw
  · rw [h]
    exact hw

/-- **Safe exit of a worker**: when a worker leaves `run`, the pool is empty and no event that its
coroutines registered is armed, and no such event leads to a task pinned to it later. -/
theorem early_closure (h : Reach Workers.step Always (init useCaller n m) s) {a : Step}
    (hs : s.step a = some t) (hc : w ≠ s.callerThreadId) (hp : (s.workers w).pc ≠ .exited)
    (ht : (t.workers w).pc = .exited) :
    t.taskPools = [] ∧ (∀ r ∈ t.armed, r.owner ≠ w) ∧
      ∀ u, Reach Workers.step Always t u → u.Gone w := by
  have H := Inv.reach h
  have hgone : ∀ u, Reach Workers.step Always t u → u.Gone w := fun u hu => by
    have hu := hu.inv (I := fun u => u.Inv ∧ w ≠ u.callerThreadId ∧ (u.workers w).pc = .exited)
      ⟨H.step hs, H.step_callerThreadId hs ▸ hc, ht⟩ fun ⟨H, hc, hp⟩ _ hs =>
        ⟨H.step hs, H.step_callerThreadId hs ▸ hc, H.exited_step hp hs⟩
    refine hu.1.gone w hu.2.1 ?_
    rw [phase_eq_exited.mpr hu.2.2]
    trivial
  refine ⟨?_, (hgone t .refl).armed, hgone⟩
  rcases H.step_cases hs with ⟨v, op, -, -, -, s', x, hm, rfl⟩ | ⟨h, -⟩
  · have hv : w = v := by
      by_contra hv
      rw [hm.set_ne hv] at ht
      exact hp ht
    subst hv
    rw [set_self] at ht
    obtain ⟨hl, hpool⟩ := hm.leave_of_exited H hc hp ht
    refine hpool.trans (H.pool_eq_nil (v := w) (l := []) ?_ List.not_mem_nil)
    rw [Worker.phase, hl]
    rfl
  · rw [h] at ht
    exact absurd ht hp

/-- A coroutine of the only worker waits for an event, which is reported after `stop`. -/
theorem early_closure_reported : ∃ s t, (Reach Workers.step Always (init false 1 1) s ∧
      s.step (.act 1 .run) = some t ∧ (t.workers 1).pc = .exited) ∧
    t.taskPools = [] ∧ (∀ r ∈ t.armed, r.owner ≠ 1) ∧
      ∀ u, Reach Workers.step Always t u → u.Gone 1 := by
  obtain ⟨s, h, hp⟩ := Reach.of_any Workers.step Always (init false 1 1)
    ([.act 2 (.schedule { co := some 7 } false), .act 1 .run, .act 1 (.dispatch false 0),
      .act 1 (.addEvent 5 .READ 7 none true), .act 1 (.back none)] ++
      List.replicate 7 (.act 1 .run) ++
      [.act 1 (.epollWait [(5, EPOLLIN)]), .setAutoStop, .act 1 (.scheduleIterator []),
        .act 1 (.report true)] ++ List.replicate 7 (.act 1 .run) ++
      [.act 1 (.dispatch false 0), .act 1 (.back none)] ++ List.replicate 15 (.act 1 .run))
    (fun s => (s.workers 1).pc = .leave ∧ s.callerThreadId = 2 ∧
      ((s.step (.act 1 .run)).any fun t => (t.workers 1).pc = .exited)) (by decide)
  obtain ⟨hl, hc, hstep⟩ : (s.workers 1).pc = .leave ∧ s.callerThreadId = 2 ∧
    ((s.step (.act 1 .run)).any fun t => (t.workers 1).pc = .exited) := by simpa using hp
  obtain ⟨t, ht, hp⟩ := (Option.any_eq_true _ _).mp hstep
  have hp : (t.workers 1).pc = .exited := by simpa using hp
  exact ⟨s, t, ⟨h, ht, hp⟩, early_closure h ht (by simp [hc]) (by simp [hl]) hp⟩

end Tigerkin.Workers
