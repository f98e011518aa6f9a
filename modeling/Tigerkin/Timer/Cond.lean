import Tigerkin.Timer.Delivery

/-! # Conditional timers

`addCondTimer` binds the callback to its condition and adds a timer with the default of `recurring`.
The manager does not look at callbacks (`map_step`), so that a conditional timer expires when a
timer without the condition and without `recurring` does. -/

namespace Tigerkin

/-- What a timer calls: a callback as it was given, or one that is bound to `condTimerCallback`. -/
inductive Callback (κ ω : Type) where
  | plain (cb : κ)
  | cond (cb : Option κ) (cond : ω)
  deriving DecidableEq

variable {κ ω : Type}

/-- `condTimerCallback`: the callback that runs, when the conditions that are `alive` can be locked.
It may be the empty function. -/
def condTimerCallback (alive : ω → Bool) (cb : Option κ) (cond : ω) : Option (Option κ) :=
  if alive cond then some cb else none

def Callback.call (alive : ω → Bool) : Callback κ ω → Option (Option κ)
  | .plain cb => some (some cb)
  | .cond cb c => condTimerCallback alive cb c

namespace TimerManager

/-- `TimerManager::addCondTimer`: the flag `recurring` is not handed on. -/
def addCondTimer (m : TimerManager (Callback κ ω)) (a : Addr) (ms : UInt64) (cb : Option κ)
    (cond : ω) (_recurring : Bool) (now : UInt64) : TimerManager (Callback κ ω) :=
  m.addTimer a ms (some (.cond cb cond)) false now

/-- The expiry of the timer `a` in one call, with the time and what is handed out for it. -/
def expiry (m : TimerManager κ) (a : Addr) : Op κ → List (UInt64 × Option κ)
  | .listExpiredCbs now probe =>
    (((m.delivered now probe).zip (m.listExpiredCbs [] now probe).2).filter (·.1 = a)).map
      fun x => (now, x.2)
  | _ => []

/-- The expiries of the timer `a` in the calls `ops`. -/
def expiries (a : Addr) : TimerManager κ → List (Op κ) → List (UInt64 × Option κ)
  | _, [] => []
  | m, op :: ops => m.expiry a op ++ match m.step op with
    | some m' => expiries a m' ops
    | none => []

end TimerManager

/-! ## Other callbacks -/

def Timer.map {κ' : Type} (f : κ → κ') (t : Timer κ) : Timer κ' :=
  { ms := t.ms, next := t.next, cb := t.cb.map f, recurring := t.recurring }

namespace TimerManager

variable {κ' : Type} {f : κ → κ'}

def map (f : κ → κ') (m : TimerManager κ) : TimerManager κ' where
  heap a := (m.heap a).map f
  live := m.live
  timers := m.timers
  refreshes := m.refreshes

def Op.map (f : κ → κ') : Op κ → Op κ'
  | .addTimer a ms cb recurring now => .addTimer a ms (cb.map f) recurring now
  | .cancel a => .cancel a
  | .refresh a now => .refresh a now
  | .reset a ms now => .reset a ms now
  | .cancelAllTimers => .cancelAllTimers
  | .listExpiredCbs now probe => .listExpiredCbs now probe
  | .release a => .release a

variable {m : TimerManager κ} {a : Addr}

theorem map_setTimer (t : Timer κ) : (m.setTimer a t).map f = (m.map f).setTimer a (t.map f) := by
  have hheap : (fun b => (Function.update m.heap a t b).map f) =
      Function.update (fun b => (m.heap b).map f) a (t.map f) := by
    funext b
    exact Function.apply_update (fun _ t => t.map f) m.heap a t b
  simp only [setTimer, map, hheap]

theorem setTimer_map (m : TimerManager κ) (a : Addr) {t : Timer κ} {t' : Timer κ'}
    (h : t' = t.map f) : (m.map f).setTimer a t' = (m.setTimer a t).map f := by
  rw [h, map_setTimer]

theorem map_insertTimer : (m.insertTimer a).map f = (m.map f).insertTimer a := rfl

theorem map_eraseTimer : (m.eraseTimer a).map f = (m.map f).eraseTimer a := rfl

theorem map_insertAndNotify : (m.insertAndNotify a).map f = (m.map f).insertAndNotify a := by
  simp only [insertAndNotify, apply_ite (map f)]
  rfl

theorem map_addTimer (ms : UInt64) (cb : Option κ) (recurring : Bool) (now : UInt64) :
    (m.addTimer a ms cb recurring now).map f =
      (m.map f).addTimer a ms (cb.map f) recurring now := by
  rw [addTimer, map_insertAndNotify, map_setTimer]
  rfl

theorem map_clear (m : TimerManager κ) (a : Addr) :
    (m.map f).setTimer a { (m.map f).heap a with cb := none } =
      (m.setTimer a { m.heap a with cb := none }).map f :=
  setTimer_map m a rfl

theorem map_isSome : ((m.map f).heap a).cb.isSome = (m.heap a).cb.isSome := Option.isSome_map

theorem map_cancel : ((m.map f).cancel a).2 = (m.cancel a).2.map f := by
  simp only [cancel, map_isSome, map_clear, apply_ite Prod.snd, apply_ite (map f)]
  rfl

theorem map_isNone : ((m.map f).heap a).cb.isNone = (m.heap a).cb.isNone := Option.isNone_map

theorem map_contains : (m.map f).contains a = m.contains a := rfl

theorem map_refresh (now : UInt64) : ((m.map f).refresh a now).2 = (m.refresh a now).2.map f := by
  have hnext : ((m.map f).eraseTimer a).setTimer a { ((m.map f).eraseTimer a).heap a with
      next := now + (((m.map f).eraseTimer a).heap a).ms } =
      ((m.eraseTimer a).setTimer a { (m.eraseTimer a).heap a with
        next := now + ((m.eraseTimer a).heap a).ms }).map f :=
    setTimer_map (m.eraseTimer a) a rfl
  simp only [refresh, map_isNone, map_contains, map_clear, hnext, apply_ite Prod.snd,
    apply_ite (map f), map_insertAndNotify]

theorem map_reset (ms now : UInt64) :
    ((m.map f).reset a ms now).2 = (m.reset a ms now).2.map f := by
  have hms : ((m.map f).heap a).ms = (m.heap a).ms := rfl
  have hnext : ((m.map f).eraseTimer a).setTimer a { ((m.map f).eraseTimer a).heap a with
      ms, next := ms + now } = ((m.eraseTimer a).setTimer a { (m.eraseTimer a).heap a with
        ms, next := ms + now }).map f :=
    setTimer_map (m.eraseTimer a) a rfl
  simp only [reset, hms, map_isNone, map_contains, hnext, apply_ite Prod.snd, apply_ite (map f),
    map_insertAndNotify]

theorem map_cancelAllTimers : (m.map f).cancelAllTimers = m.cancelAllTimers.map f := by
  refine List.foldl_hom (map f) fun m a => ?_
  rw [map_clear]
  rfl

theorem map_splitExpired (now : UInt64) (probe : Addr) :
    (m.map f).splitExpired now probe = m.splitExpired now probe := rfl

theorem map_expireOne (now : UInt64) (r : TimerManager κ × List (Option κ)) (a : Addr) :
    expireOne now (r.map (map f) (List.map (Option.map f))) a =
      (expireOne now r a).map (map f) (List.map (Option.map f)) := by
  obtain ⟨m, cbs⟩ := r
  have hexpired : expiredTimer now ((m.map f).heap a) = (expiredTimer now (m.heap a)).map f := by
    simp only [expiredTimer, apply_ite (Timer.map f)]
    rfl
  rw [Prod.map_apply, expireOne_eq, expireOne_eq, hexpired, ← map_setTimer, ← map_insertTimer,
    Prod.map_apply, List.map_append, apply_ite (map f)]
  rfl

theorem map_listExpiredCbs (cbs : List (Option κ)) (now : UInt64) (probe : Addr) :
    (m.map f).listExpiredCbs (cbs.map (Option.map f)) now probe =
      (m.listExpiredCbs cbs now probe).map (map f) (List.map (Option.map f)) := by
  have hempty : (m.map f).timers.isEmpty = m.timers.isEmpty := rfl
  unfold listExpiredCbs
  rw [hempty, map_splitExpired]
  split
  · rfl
  · generalize m.splitExpired now probe = x
    obtain ⟨expired, rest⟩ := x
    have hloop (r : TimerManager κ × List (Option κ)) :
        expired.foldl (expireOne now) (r.map (map f) (List.map (Option.map f))) =
          (expired.foldl (expireOne now) r).map (map f) (List.map (Option.map f)) :=
      List.foldl_hom _ (map_expireOne now)
    exact hloop ({ m with timers := rest }, cbs)

theorem map_step (m : TimerManager κ) (op : Op κ) :
    (m.map f).step (op.map f) = (m.step op).map (map f) := by
  cases op with
  | addTimer a ms cb recurring now =>
    simp only [Op.map, step, apply_ite (Option.map (map f)), Option.map_some, map_addTimer]
    rfl
  | cancel a =>
    simp only [Op.map, step, map_cancel, apply_ite (Option.map (map f)), Option.map_some]
    rfl
  | refresh a now =>
    simp only [Op.map, step, map_refresh, apply_ite (Option.map (map f)), Option.map_some]
    rfl
  | reset a ms now =>
    simp only [Op.map, step, map_reset, apply_ite (Option.map (map f)), Option.map_some]
    rfl
  | cancelAllTimers => exact congrArg some map_cancelAllTimers
  | listExpiredCbs now probe =>
    exact congrArg (fun r => some (Prod.fst r)) (map_listExpiredCbs [] now probe)
  | release a =>
    simp only [Op.map, step, apply_ite (Option.map (map f)), Option.map_some]
    rfl

theorem map_expiry (m : TimerManager κ) (a : Addr) (op : Op κ) :
    (m.map f).expiry a (op.map f) = (m.expiry a op).map fun x => (x.1, x.2.map f) := by
  cases op with
  | listExpiredCbs now probe =>
    have hcbs : ((m.map f).listExpiredCbs [] now probe).2 =
        (m.listExpiredCbs [] now probe).2.map (Option.map f) :=
      congrArg Prod.snd (map_listExpiredCbs [] now probe)
    have hdelivered : (m.map f).delivered now probe = m.delivered now probe := rfl
    simp only [Op.map, expiry]
    rw [hcbs, hdelivered, List.zip_map_right, List.filter_map, List.map_map, List.map_map]
    rfl
  | _ => rfl

/-- **Expiry does not depend on the callbacks.** -/
theorem map_expiries (m : TimerManager κ) (a : Addr) (ops : List (Op κ)) :
    expiries a (m.map f) (ops.map (Op.map f)) =
      (expiries a m ops).map fun x => (x.1, x.2.map f) := by
  induction ops generalizing m with
  | nil => rfl
  | cons op ops ih =>
    rw [List.map_cons, expiries, expiries, map_expiry, map_step, List.map_append]
    congr 1
    cases m.step op with
    | none => rfl
    | some m' => exact ih m'

/-! ## The callback of one timer -/

/-- The timer `a` exists, and `w` is its callback as long as it is in the set. -/
structure Holds (m : TimerManager κ) (a : Addr) (w : Option κ) : Prop where
  inv : m.Inv
  live : m.live a = true
  cb : a ∈ m.timers → (m.heap a).cb = w

variable {w : Option κ} {b : Addr} {op : Op κ} {m' : TimerManager κ}

theorem Holds.setTimer (h : m.Holds a w) {t : Timer κ} (ht : t.next = (m.heap b).next)
    (hcb : b = a → a ∈ m.timers → t.cb = w) : (m.setTimer b t).Holds a w := by
  refine ⟨h.inv.setTimer_of_next ht, h.live, fun hmem => ?_⟩
  by_cases hba : b = a
  · subst hba
    rw [setTimer_heap_self, hcb rfl hmem]
  · rw [setTimer_heap_of_ne t (Ne.symm hba), h.cb hmem]

theorem Holds.rearm (h : m.Holds a w) (hb : b ∈ m.timers) {t : Timer κ}
    (ht : t.cb = (m.heap b).cb) :
    (((m.eraseTimer b).setTimer b t).insertAndNotify b).Holds a w := by
  have hnot : b ∉ (m.eraseTimer b).timers := fun hb' => ((h.inv.mem_eraseTimer hb).mp hb').2 rfl
  refine ⟨h.inv.rearm hb t, ?_, fun hmem => ?_⟩
  · rw [insertAndNotify_live]
    exact h.live
  · rw [mem_insertAndNotify (h.inv.eraseTimer.setTimer_of_notMem hnot), setTimer_timers,
      h.inv.mem_eraseTimer hb] at hmem
    rw [insertAndNotify_heap]
    by_cases hba : a = b
    · subst hba
      rw [setTimer_heap_self, ht, h.cb hb]
    · rw [setTimer_heap_of_ne t hba, eraseTimer_heap]
      exact h.cb ((hmem.resolve_left hba).1)

theorem Holds.cancel (h : m.Holds a w) (b : Addr) : (m.cancel b).2.Holds a w := by
  have hset := h.inv.setTimer_of_next (a := b) (t := { m.heap b with cb := none }) rfl
  refine ⟨h.inv.cancel b, ?_, ?_⟩
  · unfold TimerManager.cancel
    dsimp only
    split
    · split <;> exact h.live
    · exact h.live
  · unfold TimerManager.cancel
    dsimp only
    rw [hset.contains_eq, setTimer_timers]
    split
    · split
      · rename_i hb
        rw [hset.mem_eraseTimer (of_decide_eq_true hb)]
        rintro ⟨hmem, hab⟩
        rw [eraseTimer_heap, setTimer_heap_of_ne _ hab]
        exact h.cb hmem
      · rename_i hb
        intro hmem
        have hab : a ≠ b := fun e => hb (decide_eq_true (e ▸ hmem))
        rw [setTimer_heap_of_ne _ hab]
        exact h.cb hmem
    · exact h.cb

theorem Holds.refresh (h : m.Holds a w) (b : Addr) (now : UInt64) :
    (m.refresh b now).2.Holds a w := by
  unfold TimerManager.refresh
  rw [h.inv.contains_eq]
  split
  · exact h
  · split
    · rename_i hb
      have hb' : b ∉ m.timers := by simpa using hb
      exact h.setTimer rfl fun e hmem => absurd (e ▸ hmem) hb'
    · rename_i hb
      have hb' : b ∈ m.timers := by simpa using hb
      exact h.rearm hb' rfl

theorem Holds.reset (h : m.Holds a w) (b : Addr) (ms now : UInt64) :
    (m.reset b ms now).2.Holds a w := by
  unfold TimerManager.reset
  rw [h.inv.contains_eq]
  split
  · exact h
  · split
    · exact h
    · split
      · exact h
      · rename_i hb
        have hb' : b ∈ m.timers := by simpa using hb
        exact h.rearm hb' rfl

theorem Holds.listExpiredCbs (h : m.Holds a w) (now : UInt64) (probe : Addr) :
    (m.listExpiredCbs [] now probe).1.Holds a w := by
  obtain ⟨hinv, -, hheap, hmem⟩ := h.inv.listExpiredCbs_spec [] now probe
  refine ⟨hinv, ?_, fun ha => ?_⟩
  · rw [listExpiredCbs_live]
    exact h.live
  · rw [hheap]
    rcases (hmem a).mp ha with ⟨hm, hnot⟩ | ⟨he, hr⟩
    · rw [if_neg hnot, h.cb hm]
    · rw [if_pos he, expiredTimer, if_pos hr]
      exact h.cb (List.mem_filter.mp he).1

/-- Every call but the release of `a` keeps the callback of `a`. -/
theorem Holds.step (h : m.Holds a w) (hop : op ≠ .release a) (hs : m.step op = some m') :
    m'.Holds a w := by
  cases op with
  | addTimer b ms cb recurring now =>
    have hinv := h.inv.step hs
    simp only [TimerManager.step] at hs
    split at hs
    · cases hs
    · rename_i hb
      cases hs
      have hab : a ≠ b := fun e => hb (e ▸ h.live)
      obtain ⟨hnot, hnew⟩ := h.inv.allocate (Bool.eq_false_iff.mpr hb)
      refine ⟨hinv, ?_, fun hmem => ?_⟩
      · rw [TimerManager.addTimer, insertAndNotify_live]
        simp [Function.update_of_ne hab, h.live]
      · rw [TimerManager.addTimer, mem_insertAndNotify (hnew.setTimer_of_notMem hnot)] at hmem
        rw [TimerManager.addTimer, insertAndNotify_heap, setTimer_heap_of_ne _ hab]
        exact h.cb (hmem.resolve_left hab)
  | cancel b =>
    obtain ⟨-, hs⟩ := Option.ite_none_right_eq_some.mp hs
    cases hs
    exact h.cancel b
  | refresh b now =>
    obtain ⟨-, hs⟩ := Option.ite_none_right_eq_some.mp hs
    cases hs
    exact h.refresh b now
  | reset b ms now =>
    obtain ⟨-, hs⟩ := Option.ite_none_right_eq_some.mp hs
    cases hs
    exact h.reset b ms now
  | cancelAllTimers =>
    cases hs
    refine ⟨.cancelAllTimers m, (cancelAllTimers_eq m).2 ▸ h.live, fun hmem => ?_⟩
    rw [cancelAllTimers_timers] at hmem
    cases hmem
  | listExpiredCbs now probe =>
    cases hs
    exact h.listExpiredCbs now probe
  | release b =>
    have hinv := h.inv.step hs
    simp only [TimerManager.step] at hs
    split at hs
    · cases hs
    · cases hs
      have hab : a ≠ b := fun e => hop (e ▸ rfl)
      exact ⟨hinv, by simp [Function.update_of_ne hab, h.live], h.cb⟩

theorem addTimer_heap_self (m : TimerManager κ) (a : Addr) (ms w recurring now) :
    (m.addTimer a ms w recurring now).heap a = { ms, next := now + ms, cb := w, recurring } := by
  rw [addTimer, insertAndNotify_heap, setTimer_heap_self]

theorem Inv.mem_addTimer (H : m.Inv) (h : m.live a = false) (ms w recurring now) :
    a ∈ (m.addTimer a ms w recurring now).timers := by
  obtain ⟨hnot, hnew⟩ := H.allocate h
  rw [TimerManager.addTimer, mem_insertAndNotify (hnew.setTimer_of_notMem hnot)]
  exact .inl rfl

/-- A timer that was just added holds its callback. -/
theorem Inv.holds_addTimer (H : m.Inv) (h : m.live a = false) (ms recurring now) :
    (m.addTimer a ms w recurring now).Holds a w := by
  refine ⟨H.addTimer h .., ?_, fun _ => ?_⟩
  · rw [TimerManager.addTimer, insertAndNotify_live]
    simp
  · rw [addTimer_heap_self]

private theorem filter_zip_map {α β : Type} [DecidableEq α] (g : α → β) (a : α) {l : List α}
    (hl : l.Nodup) :
    (l.zip (l.map g)).filter (·.1 = a) = if a ∈ l then [(a, g a)] else [] := by
  have hzip : l.zip (l.map g) = l.map fun x => (x, g x) := by
    rw [List.zip_map_right, List.zip_eq_zipWith, List.zipWith_self, List.map_map]
    rfl
  rw [hzip, List.filter_map]
  change (l.filter (· = a)).map _ = _
  rw [List.filter_eq, hl.count]
  split <;> rfl

/-- A timer expires once in a call, if it is in the set and due. -/
theorem Inv.expiry_eq (H : m.Inv) (a : Addr) (now : UInt64) (probe : Addr) :
    m.expiry a (.listExpiredCbs now probe) =
      if a ∈ m.timers ∧ (m.heap a).next ≤ now then [(now, (m.heap a).cb)] else [] := by
  have hcbs := (H.listExpiredCbs_spec [] now probe).2.1
  have hmem : a ∈ m.expired now ↔ a ∈ m.timers ∧ (m.heap a).next ≤ now := by
    simp [expired, due]
  have hnodup : (m.expired now).Nodup := H.nodup.filter _
  rw [expiry, delivered, H.splitExpired_eq, hcbs, List.nil_append, filter_zip_map _ a hnodup]
  simp only [← hmem]
  split <;> rfl

theorem Holds.expiry (h : m.Holds a w) (op : Op κ) : ∀ x ∈ m.expiry a op, x.2 = w := by
  cases op with
  | listExpiredCbs now probe =>
    rw [h.inv.expiry_eq]
    split
    · rename_i hmem
      intro x hx
      rw [List.mem_singleton.mp hx]
      exact h.cb hmem.1
    · exact fun _ hx => nomatch hx
  | _ => exact fun _ hx => nomatch hx

/-- Each expiry of a timer hands out the callback it was added with. -/
theorem Holds.expiries (h : m.Holds a w) {ops : List (Op κ)} (hops : ∀ op ∈ ops, op ≠ .release a) :
    ∀ x ∈ expiries a m ops, x.2 = w := by
  induction ops generalizing m with
  | nil => exact fun _ hx => nomatch hx
  | cons op ops ih =>
    intro x hx
    rw [TimerManager.expiries] at hx
    rcases List.mem_append.mp hx with hx | hx
    · exact h.expiry op x hx
    · cases hs : m.step op with
      | none =>
        rw [hs] at hx
        cases hx
      | some m' =>
        rw [hs] at hx
        exact ih (h.step (hops op (.head _)) hs) (fun op hop => hops op (.tail _ hop)) x hx

/-! ## Guarded timers -/

/-- A conditional timer is a guarded timer: in every run that goes on from the two additions, made
in any state that is reached, both timers expire at the same times, and an expiry of the first runs
the callback if the condition is alive then, and nothing if it is not. -/
def Guards (ms : UInt64) (cb : Option κ) (cond : ω) (recurring : Bool) : Prop :=
  ∀ (m : TimerManager (Callback κ ω)) (a : Addr) (now : UInt64) (ops : List (Op (Callback κ ω))),
    m.Reachable → m.live a = false → (∀ op ∈ ops, op ≠ .release a) →
    (expiries a (m.addCondTimer a ms cb cond recurring now) ops).map Prod.fst =
        (expiries a (m.addTimer a ms (cb.map .plain) recurring now) ops).map Prod.fst ∧
      ∀ x ∈ expiries a (m.addCondTimer a ms cb cond recurring now) ops, ∀ alive,
        x.2.map (Callback.call alive) = some (if alive cond then some cb else none)

variable {ms : UInt64} {cb : Option κ} {cond : ω} {recurring : Bool}

/-- Without `recurring` and with a callback, the two timers differ in their callbacks only. -/
theorem guards_of (hcb : cb.isSome = true) : Guards ms cb cond false := by
  intro m a now ops hm ha hops
  refine ⟨?_, fun x hx alive => ?_⟩
  · have herase : (m.addCondTimer a ms cb cond false now).map (fun _ => ()) =
        (m.addTimer a ms (cb.map .plain) false now).map (fun _ => ()) := by
      obtain ⟨cb, rfl⟩ := Option.isSome_iff_exists.mp hcb
      rw [addCondTimer, map_addTimer, map_addTimer]
      rfl
    have h1 := map_expiries (f := fun _ => ()) (m.addCondTimer a ms cb cond false now) a ops
    have h2 := map_expiries (f := fun _ => ()) (m.addTimer a ms (cb.map .plain) false now) a ops
    rw [herase, h2] at h1
    have htimes := congrArg (List.map Prod.fst) h1.symm
    rwa [List.map_map, List.map_map] at htimes
  · rw [(hm.inv.holds_addTimer ha ms false now).expiries hops x hx]
    rfl

/-- The run that tells a recurring timer from another one. -/
theorem Inv.expiries_twice (H : m.Inv) (ha : a ∈ m.timers) :
    (expiries a m [.listExpiredCbs (-1) 0, .listExpiredCbs (-1) 0]).map Prod.fst =
      if (m.heap a).recurring then [-1, -1] else [-1] := by
  obtain ⟨hinv, -, -, hmem⟩ := H.listExpiredCbs_spec [] (-1) 0
  have hdue (t : UInt64) : t ≤ -1 := by
    have := t.toNat_lt
    rw [UInt64.le_iff_toNat_le]
    change _ ≤ 2 ^ 64 - 1
    omega
  have hexp : a ∈ m.expired (-1) := by simp [expired, due, ha, hdue]
  simp only [expiries, TimerManager.step, H.expiry_eq, hinv.expiry_eq, hmem, hdue, ha, hexp]
  cases (m.heap a).recurring <;> simp

/-- The run that tells an empty callback from another one: only a timer with a callback is put
off by `refresh`. -/
theorem Inv.expiries_refresh (H : m.Inv) (ha : a ∈ m.timers) (hnext : (m.heap a).next = 0) :
    (expiries a m [.refresh a (1 - (m.heap a).ms), .listExpiredCbs 0 0]).map Prod.fst =
      if (m.heap a).cb.isNone then [0] else [] := by
  have hexpiries : expiries a m [.refresh a (1 - (m.heap a).ms), .listExpiredCbs 0 0] =
      (m.refresh a (1 - (m.heap a).ms)).2.expiry a (.listExpiredCbs 0 0) := by
    simp [expiries, TimerManager.step, H.live a ha, expiry]
  rw [hexpiries, (H.refresh a _).expiry_eq, TimerManager.refresh, H.contains_eq, decide_eq_true ha]
  cases hcb : (m.heap a).cb with
  | none => simp [ha, hnext]
  | some w =>
    simp [insertAndNotify_heap]

/-- **A conditional timer is a guarded timer just if it is not to recur** and its callback is not
the empty function. -/
theorem guards_iff : Guards ms cb cond recurring ↔ recurring = false ∧ cb.isSome = true := by
  have hempty : ({} : TimerManager (Callback κ ω)).Inv := Reachable.inv .refl
  refine ⟨fun h => ⟨?_, ?_⟩, fun ⟨hr, hcb⟩ => hr ▸ guards_of hcb⟩
  · have hrun := (h {} 0 0 [.listExpiredCbs (-1) 0, .listExpiredCbs (-1) 0] .refl rfl (by simp)).1
    rw [addCondTimer, (hempty.addTimer rfl ..).expiries_twice (hempty.mem_addTimer rfl ..),
      (hempty.addTimer rfl ..).expiries_twice (hempty.mem_addTimer rfl ..), addTimer_heap_self,
      addTimer_heap_self] at hrun
    cases recurring with
    | false => rfl
    | true => cases hrun
  · have hrun := (h {} 0 (-ms) [.refresh 0 (1 - ms), .listExpiredCbs 0 0] .refl rfl (by simp)).1
    have hcond := (hempty.addTimer (a := 0) rfl ms (some (.cond cb cond)) false
      (-ms)).expiries_refresh (hempty.mem_addTimer rfl ..)
    have hplain := (hempty.addTimer (a := 0) rfl ms (cb.map .plain) recurring
      (-ms)).expiries_refresh (hempty.mem_addTimer rfl ..)
    simp only [addTimer_heap_self, UInt64.add_left_neg, forall_const] at hcond hplain
    rw [addCondTimer, hcond, hplain] at hrun
    cases cb with
    | some cb => rfl
    | none => cases hrun

/-- A recurring conditional timer with the period 10: it expires at 10, and not again at 20. -/
theorem guards_recurring : ¬ Guards 10 (some 'f') "cond" true := by
  intro h
  have hrun := (h {} 1 0 [.listExpiredCbs 10 2, .listExpiredCbs 20 2] .refl rfl (by simp)).1
  exact absurd hrun (by decide)

end TimerManager

end Tigerkin
