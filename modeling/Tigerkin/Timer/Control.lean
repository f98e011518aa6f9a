import Tigerkin.Timer.Delivery

/-! # What a control call tells

`Timer::cancel`, `Timer::refresh` and `Timer::reset` answer whether the timer was armed, that is, in
`m_timers`. All three look at the callback before they look at the set, so the answer is right for
timers that have theirs (`tells_iff`). `reset` answers `true` before all that when the period stays
the same: whether the timer is armed, and without a new deadline (`tells_reset_same`). -/

namespace Tigerkin.TimerManager

variable {κ : Type} {m : TimerManager κ} {a : Addr} {r : Bool × TimerManager κ}
  {done : TimerManager κ → Prop}

/-- The timer is in the set, with this period, and due one period after `now`. -/
def ArmedFor (m : TimerManager κ) (a : Addr) (ms now : UInt64) : Prop :=
  a ∈ m.timers ∧ (m.heap a).ms = ms ∧ (m.heap a).next = now + ms

/-- The answer `r` of a call on `a`, made in the state `m`: it is `true` if and only if the timer
was armed, after `true` the call is `done`, and after `false` the same timers are armed. -/
def Tells (m : TimerManager κ) (a : Addr) (r : Bool × TimerManager κ)
    (done : TimerManager κ → Prop) : Prop :=
  (r.1 = true ↔ a ∈ m.timers) ∧ (r.1 = true → done r.2) ∧
    (r.1 = false → ∀ b, b ∈ r.2.timers ↔ b ∈ m.timers)

/-- The answer of a control call is truthful; the other calls have none. -/
def Truthful (m : TimerManager κ) : Op κ → Prop
  | .cancel a => m.Tells a (m.cancel a) fun m' => a ∉ m'.timers
  | .refresh a now => m.Tells a (m.refresh a now) fun m' => m'.ArmedFor a (m.heap a).ms now
  | .reset a ms now => m.Tells a (m.reset a ms now) fun m' => m'.ArmedFor a ms now
  | _ => True

/-- An armed timer has its callback. -/
def KeepsCallback (m : TimerManager κ) (a : Addr) : Prop :=
  a ∈ m.timers → (m.heap a).cb.isSome = true

/-- The calls whose answer is truthful. -/
def Answerable (m : TimerManager κ) : Op κ → Prop
  | .cancel a => m.KeepsCallback a
  | .refresh a _ => m.KeepsCallback a
  | .reset a ms now => if ms = (m.heap a).ms then m.ArmedFor a ms now else m.KeepsCallback a
  | _ => True

/-! ## The three answers -/

theorem tells_of_false (hr : r.1 = false) (hset : r.2.timers = m.timers) :
    m.Tells a r done ↔ a ∉ m.timers := by
  simp [Tells, hr, hset]

theorem tells_of_true (hr : r.1 = true) : m.Tells a r done ↔ a ∈ m.timers ∧ done r.2 := by
  simp [Tells, hr]

/-- A call that refuses timers without a callback, refuses timers outside the set, and serves the
others. -/
theorem tells_iff (hnone : (m.heap a).cb = none → r.1 = false ∧ r.2.timers = m.timers)
    (hout : a ∉ m.timers → r.1 = false ∧ r.2.timers = m.timers)
    (hin : (m.heap a).cb.isSome = true → a ∈ m.timers → r.1 = true ∧ done r.2) :
    m.Tells a r done ↔ m.KeepsCallback a := by
  by_cases hmem : a ∈ m.timers
  · cases hcb : (m.heap a).cb with
    | none =>
      obtain ⟨hr, hset⟩ := hnone hcb
      simp [tells_of_false hr hset, KeepsCallback, hmem, hcb]
    | some cb =>
      obtain ⟨hr, hdone⟩ := hin (by rw [hcb]; rfl) hmem
      simp [tells_of_true hr, KeepsCallback, hmem, hcb, hdone]
  · obtain ⟨hr, hset⟩ := hout hmem
    simp [tells_of_false hr hset, KeepsCallback, hmem]

theorem cancel_none (h : (m.heap a).cb = none) : m.cancel a = (false, m) := by
  rw [cancel, h]
  rfl

theorem Inv.cancel_out (H : m.Inv) (h : a ∉ m.timers) :
    (m.cancel a).1 = false ∧ (m.cancel a).2.timers = m.timers := by
  have hset := H.setTimer_of_next (a := a) (t := { m.heap a with cb := none }) rfl
  unfold TimerManager.cancel
  dsimp only
  rw [hset.contains_eq, setTimer_timers, decide_eq_false h]
  split <;> exact ⟨rfl, rfl⟩

theorem Inv.cancel_in (H : m.Inv) (hcb : (m.heap a).cb.isSome = true) (h : a ∈ m.timers) :
    (m.cancel a).1 = true ∧ a ∉ (m.cancel a).2.timers := by
  have hset := H.setTimer_of_next (a := a) (t := { m.heap a with cb := none }) rfl
  unfold TimerManager.cancel
  dsimp only
  rw [hset.contains_eq, setTimer_timers, decide_eq_true h, if_pos hcb]
  exact ⟨rfl, fun hmem => ((hset.mem_eraseTimer h).mp hmem).2 rfl⟩

/-- Erase, change period and deadline, reinsert: what `refresh` and `reset` do to an armed timer. -/
theorem Inv.armedFor_rearm (H : m.Inv) (h : a ∈ m.timers) {t : Timer κ} {now : UInt64}
    (ht : t.next = now + t.ms) :
    (((m.eraseTimer a).setTimer a t).insertAndNotify a).ArmedFor a t.ms now := by
  have hnot : a ∉ (m.eraseTimer a).timers := fun ha => ((H.mem_eraseTimer h).mp ha).2 rfl
  rw [ArmedFor, mem_insertAndNotify (H.eraseTimer.setTimer_of_notMem hnot), insertAndNotify_heap,
    setTimer_heap_self]
  exact ⟨.inl rfl, rfl, ht⟩

theorem refresh_none (now : UInt64) (h : (m.heap a).cb = none) :
    m.refresh a now = (false, m) := by
  rw [refresh, h]
  rfl

theorem Inv.refresh_out (H : m.Inv) (now : UInt64) (h : a ∉ m.timers) :
    (m.refresh a now).1 = false ∧ (m.refresh a now).2.timers = m.timers := by
  unfold TimerManager.refresh
  rw [H.contains_eq, decide_eq_false h]
  split <;> exact ⟨rfl, rfl⟩

theorem Inv.refresh_in (H : m.Inv) (now : UInt64) (hcb : (m.heap a).cb.isSome = true)
    (h : a ∈ m.timers) :
    (m.refresh a now).1 = true ∧ (m.refresh a now).2.ArmedFor a (m.heap a).ms now := by
  have hcb' : ¬(m.heap a).cb.isNone = true := by
    rwa [Option.isNone_iff_eq_none, ← ne_eq, ← Option.isSome_iff_ne_none]
  unfold TimerManager.refresh
  rw [H.contains_eq, decide_eq_true h, if_neg hcb']
  exact ⟨rfl, H.armedFor_rearm h rfl⟩

theorem reset_same (now : UInt64) : m.reset a (m.heap a).ms now = (true, m) := if_pos rfl

theorem reset_none {ms : UInt64} (now : UInt64) (hms : ms ≠ (m.heap a).ms)
    (h : (m.heap a).cb = none) : m.reset a ms now = (false, m) := by
  rw [reset, if_neg hms, h]
  rfl

theorem Inv.reset_out (H : m.Inv) {ms : UInt64} (now : UInt64) (hms : ms ≠ (m.heap a).ms)
    (h : a ∉ m.timers) :
    (m.reset a ms now).1 = false ∧ (m.reset a ms now).2.timers = m.timers := by
  unfold TimerManager.reset
  rw [H.contains_eq, decide_eq_false h, if_neg hms]
  split <;> exact ⟨rfl, rfl⟩

theorem Inv.reset_in (H : m.Inv) {ms : UInt64} (now : UInt64) (hms : ms ≠ (m.heap a).ms)
    (hcb : (m.heap a).cb.isSome = true) (h : a ∈ m.timers) :
    (m.reset a ms now).1 = true ∧ (m.reset a ms now).2.ArmedFor a ms now := by
  have hcb' : ¬(m.heap a).cb.isNone = true := by
    rwa [Option.isNone_iff_eq_none, ← ne_eq, ← Option.isSome_iff_ne_none]
  unfold TimerManager.reset
  rw [H.contains_eq, decide_eq_true h, if_neg hms, if_neg hcb']
  exact ⟨rfl, H.armedFor_rearm h (UInt64.add_comm ms now)⟩

/-- With the period it has, `reset` does not look at the timer. -/
theorem tells_reset_same (now : UInt64) :
    m.Tells a (m.reset a (m.heap a).ms now) (fun m' => m'.ArmedFor a (m.heap a).ms now) ↔
      m.ArmedFor a (m.heap a).ms now := by
  rw [reset_same, tells_of_true rfl]
  exact ⟨fun h => h.2, fun h => ⟨h.1, h⟩⟩

theorem Inv.truthful_op (H : m.Inv) (op : Op κ) : m.Truthful op ↔ m.Answerable op := by
  cases op with
  | cancel a =>
    change m.Tells a (m.cancel a) (fun m' => a ∉ m'.timers) ↔ m.KeepsCallback a
    refine tells_iff (fun hcb => ?_) H.cancel_out H.cancel_in
    rw [cancel_none hcb]
    exact ⟨rfl, rfl⟩
  | refresh a now =>
    change m.Tells a (m.refresh a now) (fun m' => m'.ArmedFor a (m.heap a).ms now) ↔
      m.KeepsCallback a
    refine tells_iff (fun hcb => ?_) (H.refresh_out now) (H.refresh_in now)
    rw [refresh_none now hcb]
    exact ⟨rfl, rfl⟩
  | reset a ms now =>
    rw [Truthful, Answerable]
    by_cases hms : ms = (m.heap a).ms
    · rw [if_pos hms, hms]
      exact tells_reset_same now
    · rw [if_neg hms]
      refine tells_iff (fun hcb => ?_) (H.reset_out now hms) (H.reset_in now hms)
      rw [reset_none now hms hcb]
      exact ⟨rfl, rfl⟩
  | _ => exact Iff.rfl

/-- Where every timer was added with a callback, only a `reset` to the same period can be wrong. -/
theorem Armed.answerable (H : m.Armed) {op : Op κ}
    (hop : ∀ a ms now, op = .reset a ms now → ms ≠ (m.heap a).ms) : m.Answerable op := by
  have hkeeps (a : Addr) : m.KeepsCallback a := fun ha => (H.mem_iff a (H.inv.live a ha)).mp ha
  cases op with
  | cancel a => exact hkeeps a
  | refresh a now => exact hkeeps a
  | reset a ms now =>
    rw [Answerable, if_neg (hop a ms now rfl)]
    exact hkeeps a
  | _ => exact trivial

/-- **Which control calls are truthful.** In every state that a manager reaches, by any run, the
answer of `cancel`, `refresh` or `reset` is right and its promise kept if and only if the call is
not a `reset` to the period that the timer has (unless the timer is armed with just this deadline),
and the timer is not armed with an empty callback. -/
theorem truthful_iff (h : m.Reachable) (op : Op κ) : m.Truthful op ↔ m.Answerable op :=
  h.inv.truthful_op op

/-- A timer of period 10, reset to 20. -/
theorem truthful_iff_armed :
    ∃ m : TimerManager Nat, m.Reachable ∧ m.timers = [1] ∧ m.Truthful (.reset 1 20 30) := by
  let ops : List (Op Nat) := [.addTimer 1 10 (some 7) false 5]
  obtain ⟨m, hm, hend⟩ := Reach.of_any step Always {} ops
    (fun m => m.timers == [1] && ((m.heap 1).ms == 10 && (m.heap 1).cb.isSome)) (by decide)
  simp only [Bool.and_eq_true, beq_iff_eq] at hend
  obtain ⟨htimers, hms, hcb⟩ := hend
  refine ⟨m, hm, htimers, (truthful_iff hm _).mpr ?_⟩
  rw [Answerable, if_neg (by rw [hms]; decide)]
  exact fun _ => hcb

/-- A timer of period 10 is cancelled; `reset(10)` still answers `true`. -/
theorem truthful_cancelled : ¬∀ (m : TimerManager Nat) (op : Op Nat) (m' : TimerManager Nat),
    m.Reachable → m.step op = some m' → m.Truthful op := by
  intro hall
  let ops : List (Op Nat) := [.addTimer 1 10 (some 7) false 5, .cancel 1]
  obtain ⟨m, hm, hend⟩ := Reach.of_any step Always {} ops
    (fun m => m.timers.isEmpty && m.live 1 && (m.heap 1).ms == 10) (by decide)
  simp only [Bool.and_eq_true, List.isEmpty_iff, beq_iff_eq] at hend
  obtain ⟨⟨hempty, hlive⟩, hms⟩ := hend
  obtain ⟨hiff, -, -⟩ := hall m (.reset 1 10 30) _ hm (if_pos hlive)
  have htrue : (m.reset 1 10 30).1 = true := by rw [reset, if_pos hms.symm]
  have hmem := hiff.mp htrue
  rw [hempty] at hmem
  cases hmem

end Tigerkin.TimerManager
