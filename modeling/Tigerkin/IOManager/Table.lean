import Tigerkin.IOManager.Basic

/-! # The context table under concurrent growth

`addEvent` looks its context up under the read lock, or grows the table under the write lock and
looks it up there, and then works under the lock of the context. Each of these sections is one step
of a call, and the calls of any number of threads interleave. The table is well formed
(`WF`) as long as no call shrinks it; a call that decided to grow from an older, smaller table can
shrink it, and then a context that another thread has armed is deleted
(`shrink_deletes_armed_context`). -/

namespace Tigerkin.IOManager

variable {s s' : IOManager}

/-! ## Growing -/

/-- `s'` is `s` with a longer table whose new entries are new contexts. -/
structure Grows (s s' : IOManager) : Prop where
  length : s.fdContexts.length ≤ s'.fdContexts.length
  kept : ∀ (i : Nat) p, s.fdContexts[i]? = some (some p) → s'.fdContexts[i]? = some (some p)
  contexts : ∀ p, s'.contexts p = s.contexts p ∨ s.fresh ≤ p ∧ ∃ fd, s'.contexts p = { fd }
  alive : ∀ p, s.alive p = true → s'.alive p = true
  entries : ∀ i : Nat, s.fdContexts.length ≤ i → i < s'.fdContexts.length →
    ∃ p, s'.fdContexts[i]? = some (some p) ∧ s'.alive p = true ∧ p < s'.fresh ∧
      s'.contexts p = { fd := i }
  fresh : s.fresh ≤ s'.fresh
  count : s'.pendingEventCount = s.pendingEventCount
  scheduled : s'.scheduled = s.scheduled
  fault : s'.fault = s.fault

/-- What `fillNulls` does to the objects and to the entries it walks over. -/
structure Filled (s : IOManager) (i : Nat) (l : List (Option Nat)) (r : IOManager ×
    List (Option Nat)) : Prop where
  contexts : ∀ p, r.1.contexts p = s.contexts p ∨ s.fresh ≤ p ∧ ∃ fd, r.1.contexts p = { fd }
  alive : ∀ p, s.alive p = true → r.1.alive p = true
  length : r.2.length = l.length
  kept : ∀ (j : Nat) p, l[j]? = some (some p) → r.2[j]? = some (some p)
  filled : ∀ j : Nat, l[j]? = some none → ∃ p, r.2[j]? = some (some p) ∧ r.1.alive p = true ∧
    p < r.1.fresh ∧ r.1.contexts p = { fd := i + j }
  fresh : s.fresh ≤ r.1.fresh
  rest : r.1.fdContexts = s.fdContexts ∧ r.1.pendingEventCount = s.pendingEventCount ∧
    r.1.scheduled = s.scheduled ∧ r.1.fault = s.fault

theorem fillNulls_spec (s : IOManager) (i : Nat) (l : List (Option Nat)) :
    Filled s i l (s.fillNulls i l) := by
  induction l generalizing s i with
  | nil => exact ⟨fun _ => .inl rfl, fun _ => id, rfl, by simp [fillNulls], by simp, Nat.le_refl _, by
      simp [fillNulls]⟩
  | cons e l ih =>
    cases e with
    | some q =>
      have H := ih s (i + 1)
      refine ⟨H.contexts, H.alive, by simp [fillNulls, H.length], ?_, ?_, H.fresh, H.rest⟩
      · intro j p hj
        cases j with
        | zero => exact hj
        | succ j => exact H.kept j p hj
      · intro j hj
        cases j with
        | zero => cases hj
        | succ j =>
          obtain ⟨p, h1, h2, h3, h4⟩ := H.filled j hj
          exact ⟨p, h1, h2, h3, by rw [Nat.add_comm j, ← Nat.add_assoc]; exact h4⟩
    | none =>
      have H := ih (s.newContext i) (i + 1)
      have hnew : (s.newContext i).fresh = s.fresh + 1 := rfl
      have hself : ((s.newContext i).fillNulls (i + 1) l).1.contexts s.fresh = { fd := i } := by
        rcases H.contexts s.fresh with h | h
        · rw [h]
          simp [newContext]
        · omega
      refine ⟨fun p => ?_, fun p hp => ?_, by simp [fillNulls, H.length], ?_, ?_, ?_, H.rest⟩
      · by_cases hp : p = s.fresh
        · subst hp
          exact .inr ⟨Nat.le_refl _, i, hself⟩
        · rcases H.contexts p with h | h
          · refine .inl (h.trans ?_)
            simp [newContext, Function.update_of_ne hp]
          · exact .inr ⟨by omega, h.2⟩
      · apply H.alive
        by_cases hp' : p = s.fresh
        · subst hp'
          simp [newContext]
        · simpa [newContext, Function.update_of_ne hp'] using hp
      · intro j p hj
        cases j with
        | zero => cases hj
        | succ j => exact H.kept j p hj
      · intro j hj
        cases j with
        | zero =>
          refine ⟨s.fresh, rfl, H.alive _ (by simp [newContext]), ?_, hself⟩
          have := H.fresh
          simp only [fillNulls]
          omega
        | succ j =>
          obtain ⟨p, h1, h2, h3, h4⟩ := H.filled j hj
          exact ⟨p, h1, h2, h3, by rw [Nat.add_comm j, ← Nat.add_assoc]; exact h4⟩
      · have := H.fresh
        simp only [fillNulls]
        omega

/-- A resize that does not shrink the table only adds contexts. -/
theorem fdContextsResize_grows {size : Nat} (h : s.fdContexts.length ≤ size) :
    Grows s (s.fdContextsResize size) ∧ (s.fdContextsResize size).fdContexts.length = size := by
  have hdrop : s.fdContexts.drop size = [] := List.drop_eq_nil_of_le h
  have htake : s.fdContexts.take size = s.fdContexts := List.take_of_length_le h
  unfold fdContextsResize
  simp only [hdrop, deleteAll, htake]
  generalize hl : s.fdContexts ++ List.replicate (size - s.fdContexts.length) none = l
  have H := fillNulls_spec s 0 l
  have hlen : l.length = size := by simp [← hl]; omega
  refine ⟨⟨by simp only [H.length, hlen, h], ?_, H.contexts, H.alive, ?_, H.fresh, H.rest.2.1,
    H.rest.2.2.1, H.rest.2.2.2⟩, by rw [H.length, hlen]⟩
  · intro i p hi
    refine H.kept i p ?_
    rw [← hl, List.getElem?_append_left (List.getElem?_eq_some_iff.mp hi).1, hi]
  · intro i hi hi'
    have := H.filled i (by
      rw [← hl, List.getElem?_append_right hi, List.getElem?_replicate]
      simp only [H.length, hlen] at hi'
      rw [if_pos (by omega)])
    simpa using this

theorem deleteAll_fdContexts (s : IOManager) (l : List (Option Nat)) :
    (s.deleteAll l).fdContexts = s.fdContexts := by
  induction l generalizing s with
  | nil => rfl
  | cons e l ih => cases e <;> exact ih _

theorem fdContextsResize_length (s : IOManager) (size : Nat) :
    (s.fdContextsResize size).fdContexts.length = size := by
  unfold fdContextsResize
  simp only [deleteAll_fdContexts, (fillNulls_spec _ _ _).length, List.length_append,
    List.length_take, List.length_replicate]
  omega

/-! ## Well-formed tables -/

/-- Every entry of the table is an existing context for its descriptor, and the contexts with an
armed event are all in the table. -/
structure WF (s : IOManager) : Prop where
  size : 64 ≤ s.fdContexts.length
  entries : ∀ i : Nat, i < s.fdContexts.length → ∃ p, s.fdContexts[i]? = some (some p) ∧
    s.alive p = true ∧ p < s.fresh ∧ (s.contexts p).fd = i
  armed : ∀ p, (s.contexts p).events ≠ 0 → s.fdContexts[(s.contexts p).fd]? = some (some p)

theorem WF.entry (H : s.WF) (h : s.fdContexts[i]? = some (some p)) :
    s.alive p = true ∧ p < s.fresh ∧ (s.contexts p).fd = i := by
  obtain ⟨q, hq, h'⟩ := H.entries i (List.getElem?_eq_some_iff.mp h).1
  rw [h] at hq
  cases hq
  exact h'

theorem WF.lookup (H : s.WF) (h : fd < s.fdContexts.length) :
    ∃ p, s.lookup fd = .ok p ∧ s.fdContexts[fd]? = some (some p) := by
  obtain ⟨p, hp, -⟩ := H.entries fd h
  exact ⟨p, by simp [IOManager.lookup, hp], hp⟩

theorem WF.grows (H : s.WF) (hg : Grows s s') : s'.WF where
  size := Nat.le_trans H.size hg.length
  entries i hi := by
    by_cases hi' : i < s.fdContexts.length
    · obtain ⟨p, hp, ha, hf, hfd⟩ := H.entries i hi'
      refine ⟨p, hg.kept i p hp, hg.alive p ha, Nat.lt_of_lt_of_le hf hg.fresh, ?_⟩
      rcases hg.contexts p with h | h
      · rw [h, hfd]
      · omega
    · obtain ⟨p, hp, ha, hf, hc⟩ := hg.entries i (by omega) hi
      exact ⟨p, hp, ha, hf, by rw [hc]⟩
  armed p hp := by
    rcases hg.contexts p with h | ⟨-, fd, h⟩
    · rw [h] at hp ⊢
      exact hg.kept _ _ (H.armed p hp)
    · rw [h] at hp
      exact absurd rfl hp

theorem init_grows : Grows {} init ∧ init.fdContexts.length = 64 :=
  fdContextsResize_grows (Nat.zero_le 64)

theorem init_wf : init.WF := by
  obtain ⟨hg, hlen⟩ := init_grows
  refine ⟨Nat.le_of_eq hlen.symm, fun i hi => ?_, fun p hp => ?_⟩
  · obtain ⟨p, hp, ha, hf, hc⟩ := hg.entries i (Nat.zero_le _) hi
    exact ⟨p, hp, ha, hf, by rw [hc]⟩
  · rcases hg.contexts p with h | ⟨-, fd, h⟩
    · rw [h] at hp
      exact absurd rfl hp
    · rw [h] at hp
      exact absurd rfl hp

/-- `s'` differs from `s` in the context `p` and in the counters only. -/
structure Touches (p : Nat) (s s' : IOManager) : Prop where
  table : s'.fdContexts = s.fdContexts
  alive : s'.alive = s.alive
  fresh : s'.fresh = s.fresh
  others : ∀ q, q ≠ p → s'.contexts q = s.contexts q
  fd : (s'.contexts p).fd = (s.contexts p).fd

theorem Touches.refl (p : Nat) (s : IOManager) : Touches p s s :=
  ⟨rfl, rfl, rfl, fun _ _ => rfl, rfl⟩

theorem WF.touches (H : s.WF) (h : Touches p s s')
    (hp : s.fdContexts[(s.contexts p).fd]? = some (some p)) : s'.WF where
  size := by rw [h.table]; exact H.size
  entries i hi := by
    rw [h.table] at hi ⊢
    obtain ⟨q, hq, ha, hf, hfd⟩ := H.entries i hi
    refine ⟨q, hq, by rw [h.alive, ha], by rw [h.fresh]; exact hf, ?_⟩
    by_cases hqp : q = p
    · subst hqp
      rw [h.fd, hfd]
    · rw [h.others q hqp, hfd]
  armed q hq := by
    rw [h.table]
    by_cases hqp : q = p
    · subst hqp
      rw [h.fd, hp]
    · rw [h.others q hqp] at hq ⊢
      exact H.armed q hq

@[simp] theorem setEventContext_fd (c : FdContext) (x : EventContext) (event : Event) :
    (c.setEventContext x event).fd = c.fd := by
  cases event <;> rfl

@[simp] theorem setEventContext_events (c : FdContext) (x : EventContext) (event : Event) :
    (c.setEventContext x event).events = c.events := by
  cases event <;> rfl

theorem armEvent_touches (s : IOManager) (p event cb caller ctlOk) :
    Touches p s (s.armEvent p event cb caller ctlOk).2 := by
  unfold armEvent
  simp only
  split
  · exact .refl p s
  · split
    · exact .refl p s
    · split
      · exact ⟨rfl, rfl, rfl, fun q hq => Function.update_of_ne hq .., by simp [setContext, fail]⟩
      · exact ⟨rfl, rfl, rfl, fun q hq => Function.update_of_ne hq .., by simp [setContext]⟩

theorem armEvent_fault (s : IOManager) (p event cb caller ctlOk) :
    (s.armEvent p event cb caller ctlOk).2.fault = s.fault ∨
      (s.armEvent p event cb caller ctlOk).2.fault = some .contextInUse := by
  unfold armEvent
  simp only
  split
  · exact .inl rfl
  · split
    · exact .inl rfl
    · split
      · exact .inr rfl
      · exact .inl rfl

theorem lt_length_of_lt_intSize {fd : Nat} (h : s.intSize > (fd : Int)) : fd < s.fdContexts.length := by
  unfold intSize at h
  rw [BitVec.toInt_ofNat', Int.bmod_def] at h
  split at h <;> omega

/-! ## Interleaved calls of `addEvent` -/

/-- Where a call of `addEvent` stands: before its read section, before its write section, before
its section under the context's lock, or returned. -/
inductive AddPc where
  | check
  | grow
  | arm (p : Nat)
  | done (suc : Bool)
  deriving DecidableEq

structure AddCall where
  fd : Nat
  event : Event
  cb : Option CbId
  caller : Caller
  pc : AddPc
  deriving DecidableEq

/-- The manager and the calls of `addEvent` in progress. -/
structure Adders where
  io : IOManager := init
  calls : Nat → Option AddCall := fun _ => none

/-- The sections of the call `t`; `call` is its beginning. -/
inductive AddStep where
  | call (t fd : Nat) (event : Event) (cb : Option CbId) (caller : Caller)
  | check (t : Nat)
  | grow (t : Nat)
  | arm (t : Nat) (ctlOk : Bool)

namespace Adders

def goto (s : Adders) (t : Nat) (c : AddCall) (pc : AddPc) : Adders :=
  { s with calls := Function.update s.calls t (some { c with pc }) }

/-- The use of `m_fdContexts[fd]` at the end of the read or the write section. -/
def index (s : Adders) (t : Nat) (c : AddCall) : Adders :=
  match s.io.lookup c.fd with
  | .error f => { s with io := s.io.fail f }
  | .ok p => s.goto t c (.arm p)

/-- One section of one call. A descriptor is a non-negative `int`. -/
def step (s : Adders) (a : AddStep) : Option Adders :=
  if s.io.fault.isSome then none
  else
    match a with
    | .call t fd event cb caller =>
      if (s.calls t).isSome || decide (2 ^ 31 ≤ fd) then none
      else some { s with
        calls := Function.update s.calls t (some { fd, event, cb, caller, pc := .check }) }
    | .check t =>
      match s.calls t with
      | some c =>
        if c.pc = .check then
          some (if s.io.intSize > c.fd then s.index t c else s.goto t c .grow)
        else none
      | none => none
    | .grow t =>
      match s.calls t with
      | some c =>
        if c.pc = .grow then
          some ({ s with io := s.io.fdContextsResize (growSize c.fd) }.index t c)
        else none
      | none => none
    | .arm t ctlOk =>
      match s.calls t with
      | some c =>
        match c.pc with
        | .arm p =>
          if s.io.alive p then
            let (suc, io) := s.io.armEvent p c.event c.cb c.caller ctlOk
            some ({ s with io }.goto t c (.done suc))
          else some { s with io := s.io.fail .deletedContext }
        | _ => none
      | none => none

/-- A call that grows the table finds it no longer than the size it asks for. -/
def KeepsTable (s : Adders) : AddStep → Prop
  | .grow t => ∀ c ∈ s.calls t, s.io.fdContexts.length ≤ growSize c.fd
  | _ => True

instance (s : Adders) (a : AddStep) : Decidable (s.KeepsTable a) := by
  unfold KeepsTable
  split <;> infer_instance

/-- No context was looked up outside the table, found null or used after its deletion. -/
def NoTableFault (s : Adders) : Prop :=
  s.io.fault ≠ some .indexOutOfRange ∧ s.io.fault ≠ some .nullContext ∧
    s.io.fault ≠ some .deletedContext

structure Inv (s : Adders) : Prop where
  wf : s.io.WF
  calls : ∀ t c p, s.calls t = some c → c.pc = .arm p → s.io.fdContexts[c.fd]? = some (some p)
  noFault : s.NoTableFault

/-- What the table and its contexts keep across a step. -/
structure Keeps (s s' : Adders) : Prop where
  length : s.io.fdContexts.length ≤ s'.io.fdContexts.length
  entries : ∀ (i : Nat) p, s.io.fdContexts[i]? = some (some p) →
    s'.io.fdContexts[i]? = some (some p)
  alive : ∀ p, s.io.alive p = true → s'.io.alive p = true

variable {s s' : Adders}

theorem Keeps.of_table (h : s'.io.fdContexts = s.io.fdContexts) (ha : s'.io.alive = s.io.alive) :
    Keeps s s' :=
  ⟨Nat.le_of_eq (congrArg List.length h.symm), fun _ _ hi => by rw [h, hi], fun _ hp => by rw [ha, hp]⟩

theorem Keeps.of_grows (h : Grows s.io s'.io) : Keeps s s' := ⟨h.length, h.kept, h.alive⟩

theorem Inv.goto (H : s.Inv) {c : AddCall} {pc : AddPc}
    (hpc : ∀ p, pc = .arm p → s.io.fdContexts[c.fd]? = some (some p)) : (s.goto t c pc).Inv where
  wf := H.wf
  calls t' c' p hc' hp := by
    by_cases ht : t' = t
    · subst ht
      simp only [Adders.goto, Function.update_self, Option.some.injEq] at hc'
      subst hc'
      exact hpc p hp
    · simp only [Adders.goto, Function.update_of_ne ht] at hc'
      exact H.calls t' c' p hc' hp
  noFault := H.noFault

theorem Inv.index (H : s.Inv) (h : c.fd < s.io.fdContexts.length) :
    (s.index t c).Inv ∧ (s.index t c).io = s.io := by
  obtain ⟨p, hp, hi⟩ := H.wf.lookup h
  simp only [Adders.index, hp]
  exact ⟨H.goto fun q hq => by cases hq; exact hi, rfl⟩

theorem Inv.withIo (H : s.Inv) {io : IOManager} (hwf : io.WF)
    (hk : ∀ (i : Nat) p, s.io.fdContexts[i]? = some (some p) → io.fdContexts[i]? = some (some p))
    (hf : NoTableFault { s with io }) : Inv { s with io } :=
  ⟨hwf, fun t c p hc hp => hk _ _ (H.calls t c p hc hp), hf⟩

/-- One section: the invariant is kept, and the table loses nothing. -/
theorem Inv.step (H : s.Inv) (hG : s.KeepsTable a) (h : s.step a = some s') :
    s'.Inv ∧ Keeps s s' := by
  unfold Adders.step at h
  split at h
  · cases h
  rename_i hfault
  cases a with
  | call t fd event cb caller =>
    simp only at h
    split at h
    · cases h
    cases h
    refine ⟨⟨H.wf, fun t' c' p hc' hp => ?_, H.noFault⟩, .of_table rfl rfl⟩
    by_cases ht : t' = t
    · subst ht
      simp only [Function.update_self, Option.some.injEq] at hc'
      subst hc'
      cases hp
    · simp only [Function.update_of_ne ht] at hc'
      exact H.calls t' c' p hc' hp
  | check t =>
    cases hc : s.calls t with
    | none => simp [hc] at h
    | some c =>
      simp only [hc] at h
      split at h
      · rw [Option.some.injEq] at h
        subst h
        split
        · rename_i hsize
          obtain ⟨hi, hio⟩ := H.index (t := t) (c := c) (lt_length_of_lt_intSize hsize)
          exact ⟨hi, .of_table (by rw [hio]) (by rw [hio])⟩
        · exact ⟨H.goto (fun p hp => by cases hp), .of_table rfl rfl⟩
      · cases h
  | grow t =>
    cases hc : s.calls t with
    | none => simp [hc] at h
    | some c =>
      simp only [hc] at h
      split at h
      · cases h
        have hle := hG c hc
        obtain ⟨hg, hlen⟩ := fdContextsResize_grows hle
        have Hio := H.withIo (H.wf.grows hg) hg.kept (by
          have := H.noFault
          simpa only [NoTableFault, hg.fault] using this)
        obtain ⟨hi, hio⟩ := Hio.index (t := t) (c := c) (by
          have := H.wf.size
          rw [hlen]
          simp only [growSize] at hle ⊢
          omega)
        exact ⟨hi, .of_grows (by rw [hio]; exact hg)⟩
      · cases h
  | arm t ctlOk =>
    cases hc : s.calls t with
    | none => simp [hc] at h
    | some c =>
      simp only [hc] at h
      split at h
      · rename_i p hpc
        have hp := H.calls t c p hc hpc
        obtain ⟨ha, -, hfd⟩ := H.wf.entry hp
        rw [if_pos ha] at h
        cases h
        have ht := armEvent_touches s.io p c.event c.cb c.caller ctlOk
        have Hio := H.withIo (H.wf.touches ht (by rw [hfd, hp]))
          (fun i q hq => by rw [ht.table, hq]) (by
            have := H.noFault
            unfold NoTableFault at this ⊢
            rcases armEvent_fault s.io p c.event c.cb c.caller ctlOk with h | h
            · simpa only [h] using this
            · simp [h])
        exact ⟨Hio.goto (fun q hq => by cases hq), .of_table ht.table ht.alive⟩
      · cases h

theorem init_inv : Inv {} where
  wf := init_wf
  calls t c p hc := by cases hc
  noFault := by
    have h : init.fault = none := init_grows.1.fault
    simp [NoTableFault, h]

/-- The length of the table goes down in exactly the steps that are not `KeepsTable`. -/
theorem length_le_iff (H : s.Inv) (h : s.step a = some s') :
    s.io.fdContexts.length ≤ s'.io.fdContexts.length ↔ s.KeepsTable a := by
  constructor
  · intro hle
    cases a with
    | grow t =>
      intro c hc
      have hc : s.calls t = some c := hc
      simp only [Adders.step, hc] at h
      split at h
      · cases h
      · split at h
        · cases h
          have hlen := fdContextsResize_length s.io (growSize c.fd)
          simp only [Adders.index] at hle
          split at hle
          · simpa only [fail, hlen] using hle
          · simpa only [Adders.goto, hlen] using hle
        · cases h
    | call | check | arm => trivial
  · exact fun hG => (H.step hG h).2.length

/-- **No context is lost** in a run in which no call shrinks the table: lookups succeed, every
context with an armed event exists and is the table's entry for its descriptor, and a step keeps
the table's length, entries and objects. A step shortens the table exactly if it breaks the
condition. -/
theorem fdContexts_kept (h : Reach step KeepsTable {} s) :
    s.NoTableFault ∧
      (∀ p, (s.io.contexts p).events ≠ 0 → s.io.alive p = true ∧
        s.io.fdContexts[(s.io.contexts p).fd]? = some (some p)) ∧
      ∀ a s', s.step a = some s' →
        (s.io.fdContexts.length ≤ s'.io.fdContexts.length ↔ s.KeepsTable a) ∧
          (s.KeepsTable a → Keeps s s') := by
  have H : s.Inv := Reach.inv h init_inv fun H hG hs => (H.step hG hs).1
  refine ⟨H.noFault, fun p hp => ?_, fun a s' hs =>
    ⟨length_le_iff H hs, fun hG => (H.step hG hs).2⟩⟩
  have hi := H.wf.armed p hp
  exact ⟨(H.wf.entry hi).1, hi⟩

/-- Descriptors 96 and 64 asking for room at the same time, 96 first. -/
def twoGrowers : List AddStep :=
  [.call 1 96 .READ none ⟨some 0, 7, 1⟩, .call 2 64 .WRITE none ⟨some 0, 8, 2⟩, .check 1, .check 2,
    .grow 1, .arm 1 true, .grow 2]

/-- The second grower shortens the table from 144 to 96 entries and deletes the context of
descriptor 96, which waits for `READ`. -/
theorem shrink_deletes_armed_context : ∃ s s', Reach step Always {} s ∧
    s.step (.grow 2) = some s' ∧ s'.io.fdContexts.length < s.io.fdContexts.length ∧
    (s.io.contexts 96).events = Event.READ.bits ∧ s.io.alive 96 = true ∧
    s'.io.alive 96 = false := by
  obtain ⟨s, hs, h⟩ := Reach.of_any step Always ({} : Adders) (twoGrowers.take 6)
    (fun s => (s.step (.grow 2)).any fun s' => s'.io.fdContexts.length < s.io.fdContexts.length ∧
      (s.io.contexts 96).events = Event.READ.bits ∧ s.io.alive 96 = true ∧ s'.io.alive 96 = false)
    (by decide +kernel)
  obtain ⟨s', hs', h⟩ := (Option.any_eq_true _ _).mp h
  exact ⟨s, s', hs, hs', by simpa using h⟩

/-- One grower at a time. -/
theorem fdContexts_kept_96 : ∃ s, Reach step KeepsTable {} s ∧ s.NoTableFault ∧
    (s.io.contexts 96).events = Event.READ.bits := by
  obtain ⟨s, hs, h⟩ := Reach.of_any step KeepsTable ({} : Adders) (twoGrowers.take 6)
    (fun s => (s.io.contexts 96).events = Event.READ.bits) (by decide +kernel)
  exact ⟨s, hs, (fdContexts_kept hs).1, of_decide_eq_true h⟩

end Adders

end Tigerkin.IOManager
