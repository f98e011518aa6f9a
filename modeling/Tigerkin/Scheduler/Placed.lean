import Tigerkin.Coroutine.Turn
import Tigerkin.Scheduler.Basic

/-! # Where the coroutines are

Each thread of a scheduler is in its loop or in one coroutine that the loop has resumed, and every
coroutine that has been resumed and has not ended is alone on a stack of the thread that it has
recorded (`Placed`). A thread that holds a live coroutine of its own, or a new one, switches to it. -/

namespace Tigerkin.Scheduler

variable {s s' : Scheduler} {w v : ThreadId} {c : CoId}

/-- The coroutine that the loop has resumed. -/
def Pc.runs : Pc → Option CoId
  | .running co => some co
  | .tickle next | .signal _ next => next.runs
  | _ => none

/-- The coroutine that came back to the loop. -/
def Pc.cameBack : Pc → Option CoId
  | .resumed co => some co
  | .tickle next | .signal _ next => next.cameBack
  | _ => none

/-- A thread's main coroutine, or the caller coroutine. -/
def IsSystem (s : Scheduler) (c : CoId) : Prop :=
  ∃ w ∈ s.threads, c = (s.workers w).tls.main ∨ (s.workers w).tls.caller = some c

/-- A coroutine that has been resumed: unless it has ended it is alone on its stack, in the thread
that it has recorded. -/
structure Started (s : Scheduler) (c : CoId) : Prop where
  thread : (s.cos c).threadId ∈ s.threads
  stackId : 0 < (s.cos c).stackId
  live : (s.cos c).state = .TERMINAL ∨ (s.cos c).state = .EXCEPT ∨
    ((s.cos c).state = .YIELD ∨
        (s.cos c).state = .EXECING ∧ (s.workers (s.cos c).threadId).pc.runs = some c) ∧
      (s.workers (s.cos c).threadId).tls.coStacks (s.cos c).stackId = some [c] ∧
      (s.cos c).link = some (s.workers (s.cos c).threadId).tls.main

/-- A thread is in its loop, or in the coroutine that the loop has resumed. -/
def Mode (s : Scheduler) (w : ThreadId) : Option CoId → Prop
  | none => (s.workers w).tls.running = s.loopCo w ∧ (s.cos (s.loopCo w)).state = .EXECING
  | some c => (s.workers w).tls.running = c ∧ (s.cos (s.loopCo w)).state = .YIELD ∧
    ¬s.IsSystem c ∧ (s.cos c).state = .EXECING ∧ (s.cos c).threadId = w

structure Placed (s : Scheduler) : Prop where
  zero : 0 ∉ s.threads
  apart : ∀ v ∈ s.threads, ∀ w ∈ s.threads, v ≠ w →
    s.loopCo v ≠ s.loopCo w ∧ s.loopCo v ≠ (s.workers w).tls.main
  main : ∀ w ∈ s.threads, s.loopCo w ≠ (s.workers w).tls.main →
    (s.cos (s.workers w).tls.main).state = .YIELD
  loop : ∀ w ∈ s.threads, (s.cos (s.loopCo w)).ctx = s.loopCo w
  cur : ∀ w ∈ s.threads, (s.workers w).tls.cur = (s.workers w).tls.running
  mode : ∀ w ∈ s.threads, s.Mode w (s.workers w).pc.runs
  ctx : ∀ c, ¬s.IsSystem c → (s.cos c).ctx = c
  co : ∀ c, ¬s.IsSystem c →
    ((s.cos c).stackId = 0 ∧ (s.cos c).threadId = 0 ∧ (s.cos c).state = .INIT) ∨ s.Started c
  ids : ∀ c, (s.cos c).stackId ≤ s.lastStackId
  inj : ∀ c d, ¬s.IsSystem c → ¬s.IsSystem d → 0 < (s.cos c).stackId →
    (s.cos c).stackId = (s.cos d).stackId → c = d
  fresh : ∀ c, s.coCnt ≤ c → ¬s.IsSystem c ∧ (s.cos c).stackId = 0
  cameBack : ∀ w ∈ s.threads, ∀ c, (s.workers w).pc.cameBack = some c → ¬s.IsSystem c

/-- A step that does not touch the coroutines. -/
structure Stays (s s' : Scheduler) : Prop where
  threads : s'.threads = s.threads
  cos : s'.cos = s.cos
  lastStackId : s'.lastStackId = s.lastStackId
  coCnt : s.coCnt ≤ s'.coCnt
  tls : ∀ w, (s'.workers w).tls = (s.workers w).tls
  runs : ∀ w, (s'.workers w).pc.runs = (s.workers w).pc.runs
  cameBack : ∀ w c, (s'.workers w).pc.cameBack = some c → (s.workers w).pc.cameBack = some c

theorem Stays.isSystem (h : Stays s s') (c : CoId) : s'.IsSystem c ↔ s.IsSystem c := by
  unfold IsSystem
  rw [h.threads]
  simp only [h.tls]

theorem Stays.loopCo (h : Stays s s') (w : ThreadId) : s'.loopCo w = s.loopCo w := by
  unfold Scheduler.loopCo
  rw [h.tls]

theorem Stays.mode (h : Stays s s') (w : ThreadId) (o : Option CoId) :
    s'.Mode w o ↔ s.Mode w o := by
  cases o <;> simp only [Mode, h.tls, h.loopCo, h.cos, h.isSystem]

theorem Stays.started (h : Stays s s') (c : CoId) : s'.Started c ↔ s.Started c := by
  constructor
  · rintro ⟨h1, h2, h3⟩
    rw [h.cos] at h1 h2 h3
    rw [h.threads] at h1
    rw [h.tls, h.runs] at h3
    exact ⟨h1, h2, h3⟩
  · rintro ⟨h1, h2, h3⟩
    refine ⟨?_, ?_, ?_⟩ <;> rw [h.cos]
    · rw [h.threads]
      exact h1
    · exact h2
    · rw [h.tls, h.runs]
      exact h3

theorem Placed.stays (H : s.Placed) (h : Stays s s') : s'.Placed where
  zero := h.threads ▸ H.zero
  apart v hv w hw hne := by
    rw [h.threads] at hv hw
    simp only [h.loopCo, h.tls]
    exact H.apart v hv w hw hne
  main w hw := by
    rw [h.threads] at hw
    simp only [h.loopCo, h.tls, h.cos]
    exact H.main w hw
  loop w hw := by
    rw [h.threads] at hw
    simp only [h.loopCo, h.cos]
    exact H.loop w hw
  cur w hw := by
    rw [h.threads] at hw
    rw [h.tls]
    exact H.cur w hw
  mode w hw := by
    rw [h.threads] at hw
    rw [h.runs, h.mode]
    exact H.mode w hw
  ctx c hc := by
    rw [h.isSystem] at hc
    rw [h.cos]
    exact H.ctx c hc
  co c hc := by
    rw [h.isSystem] at hc
    rw [h.cos, h.started]
    exact H.co c hc
  ids c := by
    rw [h.cos, h.lastStackId]
    exact H.ids c
  inj c d hc hd := by
    rw [h.isSystem] at hc hd
    rw [h.cos]
    exact H.inj c d hc hd
  fresh c hc := by
    rw [h.isSystem, h.cos]
    exact H.fresh c (h.coCnt.trans hc)
  cameBack w hw c hc := by
    rw [h.threads] at hw
    rw [h.isSystem]
    exact H.cameBack w hw c (h.cameBack w c hc)

/-! ## Switching -/

theorem isSystem_main (hw : w ∈ s.threads) : s.IsSystem (s.workers w).tls.main :=
  ⟨w, hw, .inl rfl⟩

theorem isSystem_loopCo (hw : w ∈ s.threads) : s.IsSystem (s.loopCo w) := by
  unfold loopCo
  cases h : (s.workers w).tls.caller with
  | none => exact isSystem_main hw
  | some a => exact ⟨w, hw, .inr h⟩

theorem ne_of_isSystem {x y : CoId} (hx : s.IsSystem x) (hy : ¬s.IsSystem y) : x ≠ y := by
  rintro rfl
  exact hy hx

theorem switched_workers (s : Scheduler) (w v : ThreadId) (co : CoId) (t : CoThread) :
    (s.switched w co t).workers v =
      if v = w then { s.workers w with
        tls := t.toTls, pc := if t.running = s.loopCo w then .resumed co else .running co }
      else s.workers v := by
  simp only [switched, setThread, setPc, Function.update_apply]
  split <;> simp_all

section Switched

variable {co : CoId} {t : CoThread} (hm : t.main = (s.workers w).tls.main)
  (hcaller : t.caller = (s.workers w).tls.caller)
include hm hcaller

theorem switched_tls (v : ThreadId) :
    ((s.switched w co t).workers v).tls.main = (s.workers v).tls.main ∧
      ((s.switched w co t).workers v).tls.caller = (s.workers v).tls.caller := by
  rw [switched_workers]
  split
  · rename_i h
    subst h
    exact ⟨hm, hcaller⟩
  · exact ⟨rfl, rfl⟩

theorem switched_isSystem (c : CoId) : (s.switched w co t).IsSystem c ↔ s.IsSystem c := by
  unfold IsSystem
  simp only [(switched_tls hm hcaller _).1, (switched_tls hm hcaller _).2]
  rfl

theorem switched_loopCo (v : ThreadId) : (s.switched w co t).loopCo v = s.loopCo v := by
  unfold loopCo
  rw [(switched_tls hm hcaller v).1, (switched_tls hm hcaller v).2]

end Switched

/-- A switch of `w` from `r` to `d`, its loop and the coroutine `c` one way or the other, which
touches no other coroutine and no other stack than `id`. -/
structure Switches (s : Scheduler) (w : ThreadId) (c r d : CoId) (st : Coroutine.State) (id : Nat)
    (t : CoThread) : Prop where
  turn : (s.thread w).Turn r d st t
  leaves : r = c ∨ r = s.loopCo w
  enters : d = c ∨ d = s.loopCo w
  loop : r = s.loopCo w ∨ d = s.loopCo w
  coStacks : ∀ i, i ≠ id → t.coStacks i = (s.workers w).tls.coStacks i
  place : ∀ x, x ≠ c → (t.cos x).place = (s.cos x).place
  stackId : (t.cos c).stackId = id ∧ 0 < id ∧ id ≤ t.lastStackId
  lastStackId : s.lastStackId ≤ t.lastStackId
  alone : ∀ x, ¬s.IsSystem x → x ≠ c → (s.cos x).stackId ≠ id
  thread : (s.cos c).threadId = 0 ∨ (s.cos c).threadId = w
  coCnt : c < s.coCnt
  runs : ∀ x, (s.workers w).pc.runs = some x → x = c

namespace Switches

variable {t : CoThread} {r d x : CoId} {st : Coroutine.State} {id : Nat}

theorem isSystem (S : Switches s w c r d st id t) (x : CoId) :
    (s.switched w c t).IsSystem x ↔ s.IsSystem x :=
  switched_isSystem S.turn.main S.turn.caller x

theorem loopCo (S : Switches s w c r d st id t) (v : ThreadId) :
    (s.switched w c t).loopCo v = s.loopCo v :=
  switched_loopCo S.turn.main S.turn.caller v

theorem tls_main (S : Switches s w c r d st id t) (v : ThreadId) :
    ((s.switched w c t).workers v).tls.main = (s.workers v).tls.main :=
  (switched_tls S.turn.main S.turn.caller v).1

theorem other (S : Switches s w c r d st id t) (hx : x ≠ c) :
    ((s.switched w c t).cos x).stackId = (s.cos x).stackId ∧
      ((s.switched w c t).cos x).threadId = (s.cos x).threadId ∧
      ((s.switched w c t).cos x).link = (s.cos x).link := by
  have := S.place x hx
  simp only [Coroutine.place, Prod.mk.injEq] at this
  exact this

/-- Only the coroutine and the loop of `w` change their states. -/
theorem state (S : Switches s w c r d st id t) (hx : x ≠ c) (hl : x ≠ s.loopCo w) :
    ((s.switched w c t).cos x).state = (s.cos x).state := by
  refine (S.turn.state x).trans ?_
  rw [if_neg, if_neg]
  · rfl
  · rintro rfl
    exact S.leaves.elim hx hl
  · rintro rfl
    exact S.enters.elim hx hl

theorem ctx_loop (S : Switches s w c r d st id t) (H : s.Placed) (hw : w ∈ s.threads)
    (hv : v ∈ s.threads) : (t.cos (s.loopCo v)).ctx = s.loopCo v := by
  by_cases hvw : v = w
  · subst hvw
    refine S.turn.ctx _ ?_ (H.loop v hv)
    change _ ≠ (s.workers v).tls.main ∨ r = (s.workers v).tls.main ∨ d = (s.workers v).tls.main
    have := S.loop
    grind
  · exact S.turn.ctx _ (.inl (H.apart v hv w hw hvw).2) (H.loop v hv)

/-- The other threads are where they were. -/
theorem mode (S : Switches s w c r d st id t) (H : s.Placed) (hw : w ∈ s.threads)
    (hc : ¬s.IsSystem c) (hv : v ∈ s.threads) (hvw : v ≠ w) :
    (s.switched w c t).Mode v ((s.switched w c t).workers v).pc.runs := by
  have hm := H.mode v hv
  have hwv : (s.switched w c t).workers v = s.workers v := by rw [switched_workers, if_neg hvw]
  have hlv := S.state (ne_of_isSystem (isSystem_loopCo hv) hc) (H.apart v hv w hw hvw).1
  rw [hwv]
  cases hrv : (s.workers v).pc.runs with
  | none =>
    rw [hrv] at hm
    refine ⟨?_, ?_⟩ <;> rw [S.loopCo]
    · rw [hwv]
      exact hm.1
    · exact hlv.trans hm.2
  | some d =>
    rw [hrv] at hm
    obtain ⟨h1, h2, h3, h4, h5⟩ := hm
    have hdc : d ≠ c := by
      rintro rfl
      rcases S.thread with h | h
      · rw [h5] at h
        subst h
        exact H.zero hv
      · exact hvw (h5.symm.trans h)
    refine ⟨?_, ?_, fun h => h3 ((S.isSystem d).mp h), ?_, ?_⟩
    · rw [hwv]
      exact h1
    · rw [S.loopCo]
      exact hlv.trans h2
    · exact (S.state hdc (ne_of_isSystem (isSystem_loopCo hw) h3).symm).trans h4
    · exact (S.other hdc).2.1.trans h5

/-- The other coroutines are where they were. -/
theorem co (S : Switches s w c r d st id t) (H : s.Placed) (hw : w ∈ s.threads)
    (hx : ¬s.IsSystem x) (hxc : x ≠ c) :
    (((s.switched w c t).cos x).stackId = 0 ∧ ((s.switched w c t).cos x).threadId = 0 ∧
      ((s.switched w c t).cos x).state = .INIT) ∨ (s.switched w c t).Started x := by
  obtain ⟨h1, h2, h4⟩ := S.other hxc
  have h3 := S.state hxc (ne_of_isSystem (isSystem_loopCo hw) hx).symm
  rw [h1, h2, h3]
  refine (H.co x hx).imp_right fun L => ⟨h2 ▸ L.thread, h1 ▸ L.stackId, ?_⟩
  rw [h1, h2, h3, h4, S.tls_main]
  refine L.live.imp_right (·.imp_right fun ⟨hs, hst, hl⟩ => ?_)
  by_cases hu : (s.cos x).threadId = w
  · refine ⟨hs.imp_right fun h => ?_, ?_, hl⟩
    · rw [hu] at h
      exact absurd (S.runs x h.2) hxc
    · rw [hu] at hst
      rw [hu, switched_workers, if_pos rfl]
      exact (S.coStacks _ (S.alone x hx hxc)).trans hst
  · rw [switched_workers, if_neg hu]
    exact ⟨hs, hst, hl⟩

end Switches

theorem Placed.switch (H : s.Placed) (hw : w ∈ s.threads) (hc : ¬s.IsSystem c) {t : CoThread}
    {r d : CoId} {st : Coroutine.State} {id : Nat} (S : Switches s w c r d st id t)
    (hmode : (s.switched w c t).Mode w ((s.switched w c t).workers w).pc.runs)
    (hco : (s.switched w c t).Started c) : (s.switched w c t).Placed where
  zero := H.zero
  apart v hv u hu hne := by
    rw [S.loopCo, S.loopCo, S.tls_main]
    exact H.apart v hv u hu hne
  main v hv hvm := by
    rw [S.loopCo, S.tls_main] at hvm
    rw [S.tls_main, S.state (ne_of_isSystem (s := s) (isSystem_main hv) hc)]
    · exact H.main v hv hvm
    · by_cases hvw : v = w
      · subst hvw
        exact hvm.symm
      · exact ((H.apart w hw v hv (Ne.symm hvw)).2).symm
  loop v hv := by
    rw [S.loopCo]
    exact S.ctx_loop H hw hv
  cur v hv := by
    rw [switched_workers]
    split
    · exact S.turn.cur.trans S.turn.running.symm
    · exact H.cur v hv
  mode v hv := by
    by_cases hvw : v = w
    · subst hvw
      exact hmode
    · exact S.mode H hw hc hv hvw
  ctx x hx := by
    rw [S.isSystem] at hx
    exact S.turn.ctx x (.inl (ne_of_isSystem (isSystem_main hw) hx).symm) (H.ctx x hx)
  co x hx := by
    rw [S.isSystem] at hx
    by_cases hxc : x = c
    · subst hxc
      exact .inr hco
    · exact S.co H hw hx hxc
  ids x := by
    by_cases hxc : x = c
    · subst hxc
      exact S.stackId.1.le.trans S.stackId.2.2
    · rw [(S.other hxc).1]
      exact (H.ids x).trans S.lastStackId
  inj x y hx hy := by
    rw [S.isSystem] at hx hy
    have h1 := H.inj x y hx hy
    have h2 := S.alone x hx
    have h3 := S.alone y hy
    have h4 := fun h => (S.other (x := x) h).1
    have h5 := fun h => (S.other (x := y) h).1
    have h6 : ((s.switched w c t).cos c).stackId = id := S.stackId.1
    grind
  fresh x hx := by
    obtain ⟨h1, h2⟩ := H.fresh x hx
    have hcx : c < x := lt_of_lt_of_le S.coCnt hx
    exact ⟨fun h => h1 ((S.isSystem x).mp h), ((S.other hcx.ne').1).trans h2⟩
  cameBack v hv x hx := by
    rw [S.isSystem]
    rw [switched_workers] at hx
    split at hx
    · dsimp only at hx
      split at hx
      · cases hx
        exact hc
      · cases hx
    · exact H.cameBack v hv x hx

/-- The switch of the loop of `w` to a live coroutine that `w` may run. -/
structure Resumed (w : ThreadId) (c : CoId) (s s' : Scheduler) : Prop where
  placed : s'.Placed
  threads : s'.threads = s.threads
  pool : s'.taskPools = s.taskPools
  coCnt : s'.coCnt = s.coCnt
  isSystem : ∀ x, s'.IsSystem x ↔ s.IsSystem x
  pc : (s'.workers w).pc = .running c
  others : ∀ v, v ≠ w → s'.workers v = s.workers v
  running : (s'.workers w).tls.running = c
  state : (s'.cos c).state = .EXECING
  threadId : ∀ x, (s'.cos x).threadId = if x = c then w else (s.cos x).threadId

theorem Placed.resumed (H : s.Placed) (hw : w ∈ s.threads)
    (hruns : (s.workers w).pc.runs = none) (hc : ¬s.IsSystem c) (hcnt : c < s.coCnt)
    {t : CoThread} {id : Nat} (T : (s.thread w).Turn (s.loopCo w) c .YIELD t)
    (hstacks : t.coStacks = Function.update (s.workers w).tls.coStacks id (some [c]))
    (hplace : ∀ x, (t.cos x).place =
      if x = c then (id, w, some (s.workers w).tls.main) else (s.cos x).place)
    (hid : 0 < id ∧ id ≤ t.lastStackId) (hlast : s.lastStackId ≤ t.lastStackId)
    (huniq : ∀ x, ¬s.IsSystem x → x ≠ c → (s.cos x).stackId ≠ id)
    (hthread : (s.cos c).threadId = 0 ∨ (s.cos c).threadId = w) :
    Resumed w c s (s.switched w c t) := by
  have hcl : c ≠ s.loopCo w := by
    rintro rfl
    exact hc (isSystem_loopCo hw)
  have hworkers := switched_workers s w
  have hpc : ((s.switched w c t).workers w).pc = .running c := by
    rw [hworkers, if_pos rfl, T.running, if_neg hcl]
  have hrun : ((s.switched w c t).workers w).tls.running = c := by
    rw [hworkers, if_pos rfl]
    exact T.running
  have hexec : ((s.switched w c t).cos c).state = .EXECING := (T.state c).trans (if_pos rfl)
  have hpc' := hplace c
  rw [if_pos rfl] at hpc'
  simp only [Coroutine.place, Prod.mk.injEq] at hpc'
  obtain ⟨hcid, hcth, hclink⟩ := hpc'
  have hcth : ((s.switched w c t).cos c).threadId = w := hcth
  have hcid : ((s.switched w c t).cos c).stackId = id := hcid
  refine ⟨H.switch hw hc ⟨T, .inr rfl, .inl rfl, .inl rfl, fun i hi => ?_, fun x hx => ?_,
      ⟨hcid, hid⟩, hlast, huniq, hthread, hcnt, fun x hx => ?_⟩ ?_ ?_, rfl, rfl, rfl,
    switched_isSystem T.main T.caller, hpc, fun v hv => ?_, hrun, hexec,
    fun x => ?_⟩
  · rw [hstacks, Function.update_of_ne hi]
  · rw [hplace, if_neg hx]
  · rw [hruns] at hx
    cases hx
  · rw [hpc]
    refine ⟨hrun, ?_, fun h => hc ((switched_isSystem T.main T.caller c).mp h), hexec, hcth⟩
    rw [switched_loopCo T.main T.caller]
    refine (T.state _).trans ?_
    rw [if_neg (Ne.symm hcl), if_pos rfl]
  · refine ⟨hcth ▸ hw, hcid ▸ hid.1, .inr (.inr ⟨.inr ⟨hexec, ?_⟩, ?_, ?_⟩)⟩
    · rw [hcth, hpc]
      rfl
    · rw [hcth, hcid, hworkers, if_pos rfl]
      change t.coStacks id = _
      rw [hstacks, Function.update_self]
    · rw [hcth, (switched_tls T.main T.caller w).1]
      exact hclink
  · rw [hworkers, if_neg hv]
  · change (t.cos x).threadId = _
    have := hplace x
    simp only [Coroutine.place] at this
    grind

/-- A thread that holds a live coroutine switches to it, unless another thread has resumed it. -/
theorem Placed.resumeCo (H : s.Placed) (hw : w ∈ s.threads)
    (hruns : (s.workers w).pc.runs = none) (hc : ¬s.IsSystem c) (hcnt : c < s.coCnt)
    (hown : (s.cos c).threadId ≠ 0 → w = (s.cos c).threadId)
    (hlive : (s.thread w).finished c = false) :
    ∃ s', s.resumeCo w c = some s' ∧ Resumed w c s s' := by
  have hcl : c ≠ s.loopCo w := by
    rintro rfl
    exact hc (isSystem_loopCo hw)
  have hcm : c ≠ (s.workers w).tls.main := by
    rintro rfl
    exact hc (isSystem_main hw)
  have hmode := H.mode w hw
  rw [hruns] at hmode
  obtain ⟨hrun, hexec⟩ := hmode
  have hrun' : (s.thread w).running = s.loopCo w := hrun
  have hcur : (s.thread w).cur = (s.thread w).running := H.cur w hw
  rcases H.co c hc with ⟨hid, hth, -⟩ | S
  · obtain ⟨T, hstacks, hlast, hplace⟩ := CoThread.resumeWithNewStack_turn (t := s.thread w) hid hcm
      hcur (H.ctx c hc) (hrun' ▸ hcl)
    rw [hrun'] at T
    refine ⟨s.switched w c _, ?_, H.resumed hw hruns hc hcnt T hstacks hplace ⟨Nat.succ_pos _, ?_⟩ ?_
      (fun x hx _ => ?_) (.inl hth)⟩
    · have : ¬0 < (s.cos c).stackId := by omega
      simp only [Scheduler.resumeCo, if_neg this]
      rfl
    · rw [hlast]
    · rw [hlast]
      exact Nat.le_succ _
    · have := H.ids x
      change _ ≠ s.lastStackId + 1
      omega
  · have hth : (s.cos c).threadId = w := by
      refine (hown ?_).symm
      intro h0
      exact H.zero (h0 ▸ S.thread)
    have hlive' := hlive
    simp only [CoThread.finished, Bool.or_eq_false_iff, decide_eq_false_iff_not] at hlive'
    obtain ⟨hs, hst, hl⟩ := (S.live.resolve_left hlive'.1).resolve_left hlive'.2
    rw [hth] at hs hst hl
    have hyield : (s.cos c).state = .YIELD := by
      refine hs.resolve_right fun h => ?_
      rw [hruns] at h
      cases h.2
    have hne : ((s.thread w).cos c).state ≠ .EXECING := by
      change (s.cos c).state ≠ _
      rw [hyield]
      decide
    obtain ⟨t, ht, T, hstacks, hkept⟩ := CoThread.resume_turn (t := s.thread w) (c := c) S.stackId
      hst ⟨hne, hlive⟩ hl (H.ctx c hc) hcur (hrun' ▸ hcl) hcm (by
        by_cases hlm : s.loopCo w = (s.workers w).tls.main
        · exact .inl ⟨hrun.trans hlm, hlm ▸ hexec⟩
        · right
          change (s.cos (s.workers w).tls.main).state ≠ _
          rw [H.main w hw hlm]
          decide)
    rw [hrun'] at T
    have hplace : (s.cos c).place = ((s.cos c).stackId, w, some (s.workers w).tls.main) := by
      simp only [Coroutine.place, hth, hl]
    refine ⟨s.switched w c t, ?_, H.resumed hw hruns hc hcnt T ?_
      (fun x => ?_) ⟨S.stackId, ?_⟩ ?_ (fun x hx hxc h => hxc ?_) (.inr hth)⟩
    · simp only [Scheduler.resumeCo, if_pos S.stackId, ht]
      rfl
    · rw [hstacks]
      exact (Function.update_eq_self_iff.mpr hst.symm).symm
    · refine (hkept.place x).trans ?_
      split
      · rename_i hx
        rw [hx]
        exact hplace
      · rfl
    · rw [hkept.lastStackId]
      exact H.ids c
    · rw [hkept.lastStackId]
      rfl
    · exact (H.inj c x hc hx S.stackId h.symm).symm

/-- The switch of a coroutine back to the loop of `w`. -/
structure Left (w : ThreadId) (c : CoId) (s s' : Scheduler) : Prop where
  placed : s'.Placed
  threads : s'.threads = s.threads
  pool : s'.taskPools = s.taskPools
  coCnt : s'.coCnt = s.coCnt
  isSystem : ∀ x, s'.IsSystem x ↔ s.IsSystem x
  pc : (s'.workers w).pc = .resumed c
  others : ∀ v, v ≠ w → s'.workers v = s.workers v
  threadId : ∀ x, (s'.cos x).threadId = (s.cos x).threadId

/-- A coroutine that runs is alone on its stack, and returns to the loop. -/
theorem Placed.running (H : s.Placed) (hw : w ∈ s.threads) (hpc : (s.workers w).pc = .running c) :
    ((s.thread w).running = c ∧ ¬s.IsSystem c ∧ (s.cos c).state = .EXECING ∧
      (s.cos c).threadId = w) ∧
      s.Started c ∧ (s.workers w).tls.coStacks (s.cos c).stackId = some [c] ∧
      (s.cos c).link = some (s.workers w).tls.main ∧ (s.thread w).base = s.loopCo w := by
  have hmode := H.mode w hw
  rw [hpc] at hmode
  obtain ⟨hrun, hyield, hc, hexec, hth⟩ := hmode
  have S : s.Started c := by
    refine (H.co c hc).resolve_left fun h => ?_
    rw [h.2.2] at hexec
    cases hexec
  have hlive := S.live
  rw [hexec, hth] at hlive
  obtain ⟨-, hst, hl⟩ := (hlive.resolve_left (by rintro ⟨⟩)).resolve_left (by rintro ⟨⟩)
  refine ⟨⟨hrun, hc, hexec, hth⟩, S, hst, hl, ?_⟩
  unfold CoThread.base loopCo
  unfold loopCo at hyield
  rw [show (s.thread w).caller = (s.workers w).tls.caller from rfl]
  cases ha : (s.workers w).tls.caller with
  | none => rfl
  | some a =>
    rw [ha] at hyield
    exact if_pos hyield

theorem Placed.left (H : s.Placed) (hw : w ∈ s.threads) (hpc : (s.workers w).pc = .running c)
    (hcnt : c < s.coCnt) {t : CoThread} {st : Coroutine.State}
    (T : (s.thread w).Turn c (s.loopCo w) st t) (K : (s.thread w).Kept t)
    (hst : (st = .YIELD ∧ t.coStacks = (s.workers w).tls.coStacks) ∨ (st = .TERMINAL ∨ st = .EXCEPT) ∧
      t.coStacks = Function.update (s.workers w).tls.coStacks (s.cos c).stackId none) :
    Left w c s (s.switched w c t) := by
  obtain ⟨⟨-, hc, -, hth⟩, S, hstack, hlink, -⟩ := H.running hw hpc
  have hcl : c ≠ s.loopCo w := by
    rintro rfl
    exact hc (isSystem_loopCo hw)
  have hworkers := switched_workers s w
  have hpc' : ((s.switched w c t).workers w).pc = .resumed c := by
    rw [hworkers, if_pos rfl, T.running, if_pos rfl]
  have hstate : ((s.switched w c t).cos c).state = st := by
    refine (T.state c).trans ?_
    rw [if_neg hcl, if_pos rfl]
  have hP : ∀ x, ((s.switched w c t).cos x).stackId = (s.cos x).stackId ∧
      ((s.switched w c t).cos x).threadId = (s.cos x).threadId ∧
      ((s.switched w c t).cos x).link = (s.cos x).link := by
    intro x
    have := K.place x
    simp only [Coroutine.place, Prod.mk.injEq] at this
    exact this
  refine ⟨H.switch hw hc ⟨T, .inl rfl, .inr rfl, .inr rfl, fun i hi => ?_, fun x _ => K.place x,
      ⟨(hP c).1, S.stackId, ?_⟩, ?_,
      fun x hx hxc h => hxc (H.inj c x hc hx S.stackId h.symm).symm, .inr hth, hcnt,
      fun x hx => ?_⟩ ?_ ?_, rfl, rfl, rfl, switched_isSystem T.main T.caller, hpc', fun v hv => ?_,
    fun x => (hP x).2.1⟩
  · rcases hst with ⟨-, h⟩ | ⟨-, h⟩ <;> rw [h]
    rw [Function.update_of_ne hi]
  · rw [K.lastStackId]
    exact H.ids c
  · rw [K.lastStackId]
    rfl
  · rw [hpc] at hx
    exact (Option.some.inj hx).symm
  · rw [hpc']
    refine ⟨?_, ?_⟩ <;> rw [switched_loopCo T.main T.caller]
    · rw [hworkers, if_pos rfl]
      exact T.running
    · exact (T.state _).trans (if_pos rfl)
  · obtain ⟨h1, h2, h3⟩ := hP c
    refine ⟨?_, ?_, ?_⟩
    · rw [h2]
      exact S.thread
    · rw [h1]
      exact S.stackId
    · rw [h1, h2, h3, hstate, hth, hworkers, if_pos rfl]
      rcases hst with ⟨rfl, h⟩ | ⟨rfl | rfl, -⟩
      · refine .inr (.inr ⟨.inl rfl, ?_, ?_⟩)
        · change t.coStacks _ = _
          rw [h]
          exact hstack
        · rw [hlink]
          exact congrArg some T.main.symm
      · exact .inl rfl
      · exact .inr (.inl rfl)
  · rw [hworkers, if_neg hv]

theorem Placed.yield (H : s.Placed) (hw : w ∈ s.threads) (hpc : (s.workers w).pc = .running c)
    (hcnt : c < s.coCnt) :
    Left w c s (s.switched w c ((s.thread w).yield (s.thread w).cur)) := by
  obtain ⟨⟨hrun, hc, hexec, -⟩, S, hstack, -, hbase⟩ := H.running hw hpc
  obtain ⟨T, hst, K⟩ := CoThread.yield_turn (t := s.thread w) (H.cur w hw)
    (by rw [hrun]; exact hstack) (by rw [hrun]; exact hexec) (by rw [hbase]; exact H.loop w hw)
    (by
      rw [hrun, hbase]
      rintro h
      exact hc (h ▸ isSystem_loopCo hw))
  rw [hrun, hbase] at T
  exact H.left hw hpc hcnt T K (.inl ⟨rfl, hst⟩)

theorem Placed.finish (H : s.Placed) (hw : w ∈ s.threads) (hpc : (s.workers w).pc = .running c)
    (hcnt : c < s.coCnt) (except : Bool) :
    ∃ t, (s.thread w).finish except = some t ∧ Left w c s (s.switched w c t) := by
  obtain ⟨⟨hrun, hc, hexec, -⟩, S, hstack, -, hbase⟩ := H.running hw hpc
  obtain ⟨t, ht, T, hst, K⟩ := CoThread.finish_turn (t := s.thread w) except
    (by
      rw [hrun]
      rintro rfl
      exact hc (isSystem_main hw))
    (by rw [hrun]; exact hstack) (by rw [hbase]; exact H.loop w hw)
    (by
      rw [hrun]
      exact fun h => hc ⟨w, hw, .inr h⟩)
  rw [hrun, hbase] at T
  rw [hrun] at hst
  refine ⟨t, ht, H.left hw hpc hcnt T K (.inr ⟨?_, hst⟩)⟩
  cases except
  · exact .inl rfl
  · exact .inr rfl

end Tigerkin.Scheduler
