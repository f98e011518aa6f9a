import Tigerkin.IOManager.Events

/-! # What a triggered event leaves behind

`delEvent` clears the event context with `resetContext`, and `triggerEvent` by moving the callback
or the coroutine into the task: the thread of the coroutine stays, and the next callback that is
registered for the event is pinned to it (`callback_pinned`). The condition `Unpins` is that only
events without a thread are triggered. -/

namespace Tigerkin.IOManager

variable {s s' : IOManager} {mask : Mask} {event event' : Event} {c : FdContext} {p fd : Nat}

/-! ## Arming and disarming -/

def FdContext.disarm (c : FdContext) (event : Event) (x : EventContext) : FdContext :=
  ({ c with events := c.events &&& ~~~event.bits } : FdContext).setEventContext x event

def FdContext.arm (c : FdContext) (event : Event) (x : EventContext) : FdContext :=
  ({ c with events := c.events ||| event.bits } : FdContext).setEventContext x event

/-- The event context that `addEvent` fills in. -/
def EventContext.register (x : EventContext) (cb : Option CbId) (caller : Caller) : EventContext :=
  let x := { x with scheduler := caller.scheduler }
  if cb.isSome then { x with cb } else { x with co := some caller.co, threadId := caller.threadId }

/-- The event context that `triggerEvent` leaves. -/
def EventContext.trigger (x : EventContext) : EventContext := { threadId := x.threadId }

theorem disarm_and_self (c : FdContext) (event : Event) (x : EventContext) :
    (c.disarm event x).events &&& event.bits = 0 := by
  rw [FdContext.disarm, setEventContext_events, BitVec.and_assoc, BitVec.and_comm (~~~event.bits)]
  cases event <;> exact BitVec.and_zero

theorem disarm_and_other (he : event ≠ .NONE) (h : event' ≠ event) (c : FdContext)
    (x : EventContext) :
    (c.disarm event x).events &&& event'.bits = c.events &&& event'.bits := by
  rw [FdContext.disarm, setEventContext_events, BitVec.and_assoc]
  congr 1
  cases event with
  | NONE => exact absurd rfl he
  | READ => cases event' <;> first | rfl | exact absurd rfl h
  | WRITE => cases event' <;> first | rfl | exact absurd rfl h

@[simp] theorem disarm_self (c : FdContext) (event : Event) (x : EventContext) :
    (c.disarm event x).getEventContext event = x :=
  getEventContext_setEventContext _ x event

theorem disarm_other (he : event ≠ .NONE) (he' : event' ≠ .NONE) (h : event' ≠ event)
    (c : FdContext) (x : EventContext) :
    (c.disarm event x).getEventContext event' = c.getEventContext event' := by
  rw [FdContext.disarm, getEventContext_setEventContext_of_ne he he' h]
  cases event' <;> rfl

@[simp] theorem arm_self (c : FdContext) (event : Event) (x : EventContext) :
    (c.arm event x).getEventContext event = x :=
  getEventContext_setEventContext _ x event

theorem arm_other (he : event ≠ .NONE) (he' : event' ≠ .NONE) (h : event' ≠ event)
    (c : FdContext) (x : EventContext) :
    (c.arm event x).getEventContext event' = c.getEventContext event' := by
  rw [FdContext.arm, getEventContext_setEventContext_of_ne he he' h]
  cases event' <;> rfl

/-! ## The operations on contexts and tasks -/

/-- Of a context that `fdContextsResize` touches only a new one is seen again. -/
theorem fdContextsResize_contexts (s : IOManager) (size p : Nat) :
    (s.fdContextsResize size).contexts p = s.contexts p ∨
      ∃ fd, (s.fdContextsResize size).contexts p = { fd } := by
  have hdel : ∀ (l : List (Option Nat)) (s : IOManager), (s.deleteAll l).contexts = s.contexts := by
    intro l
    induction l with
    | nil => exact fun s => rfl
    | cons e l ih => cases e <;> exact fun s => ih _
  unfold fdContextsResize
  simp only
  rcases (fillNulls_spec (s.deleteAll (s.fdContexts.drop size)) 0 _).contexts p with h | ⟨-, h⟩
  · rw [h, hdel]
    exact .inl rfl
  · exact .inr h

theorem fdContextsResize_rest (s : IOManager) (size : Nat) :
    (s.fdContextsResize size).scheduled = s.scheduled ∧
      (s.fdContextsResize size).fault = s.fault := by
  have hdel : ∀ (l : List (Option Nat)) (s : IOManager),
      (s.deleteAll l).scheduled = s.scheduled ∧ (s.deleteAll l).fault = s.fault := by
    intro l
    induction l with
    | nil => exact fun s => ⟨rfl, rfl⟩
    | cons e l ih => cases e <;> exact fun s => ih _
  unfold fdContextsResize
  simp only [(fillNulls_spec _ _ _).rest.2.2, hdel, and_self]

/-- The section of `addEvent` under the context's lock changes nothing or arms an event. -/
theorem armEvent_spec (H : (s.contexts p).Sound) (he : event ≠ .NONE) (cb caller ctlOk) :
    (s.armEvent p event cb caller ctlOk).2 = s ∨
      (s.contexts p).events &&& event.bits = 0 ∧
        (s.armEvent p event cb caller ctlOk).2.contexts = Function.update s.contexts p
          ((s.contexts p).arm event (((s.contexts p).getEventContext event).register cb caller)) ∧
        (s.armEvent p event cb caller ctlOk).2.scheduled = s.scheduled ∧
        (s.armEvent p event cb caller ctlOk).2.fault = s.fault := by
  unfold armEvent
  simp only
  split
  · exact .inl rfl
  rename_i h
  rw [Decidable.not_not] at h
  split
  · exact .inl rfl
  have hctx : (({ s.contexts p with events := (s.contexts p).events ||| event.bits } :
      FdContext).getEventContext event) = (s.contexts p).getEventContext event := by
    cases event <;> rfl
  obtain ⟨h1, h2, h3⟩ := H.unarmed event he h
  rw [hctx, if_neg (by simp [h1, h2, h3])]
  exact .inr ⟨h, rfl, rfl, rfl⟩

/-- Triggering an event, unless the process ends. -/
structure Triggered (p : Nat) (event : Event) (s s' : IOManager) : Prop where
  armed : (s.contexts p).events &&& event.bits ≠ 0
  contexts : s'.contexts = Function.update s.contexts p
    ((s.contexts p).disarm event ((s.contexts p).getEventContext event).trigger)
  scheduled : ∀ t ∈ s'.scheduled, t ∈ s.scheduled ∨
    t.threadId = ((s.contexts p).getEventContext event).threadId ∧
      t.cb = ((s.contexts p).getEventContext event).cb

theorem mem_of_mem_ite {b : Bool} {t u : Task} {l : List Task}
    (h : t ∈ if b then l ++ [u] else l) : t ∈ l ∨ t = u := by
  cases b with
  | false => exact .inl h
  | true => exact (List.mem_append.mp h).imp_right List.mem_singleton.mp

theorem triggerEvent_spec (H : (s.contexts p).Sound)
    (hf : (s.triggerEvent p event).fault = none) : Triggered p event s (s.triggerEvent p event) := by
  revert hf
  unfold triggerEvent
  simp only
  split
  · intro hf
    cases hf
  rename_i harmed
  cases hs : ((s.contexts p).getEventContext event).scheduler with
  | none =>
    intro hf
    cases hf
  | some i =>
    refine fun _ => ⟨harmed, ?_, ?_⟩
    · have hctx : (if ((s.contexts p).getEventContext event).cb.isSome then
          { (s.contexts p).getEventContext event with cb := none, scheduler := none }
          else { (s.contexts p).getEventContext event with co := none, scheduler := none }) =
          ((s.contexts p).getEventContext event).trigger := by
        have hw := H.waiter event
        generalize (s.contexts p).getEventContext event = x at hw ⊢
        rcases x with ⟨scheduler, threadId, co, cb⟩
        cases cb with
        | none => rfl
        | some cb =>
          obtain rfl : co = none := hw.resolve_right (by simp)
          rfl
      simp only [setContext, hctx]
      rfl
    · intro t ht
      rcases mem_of_mem_ite ht with ht | rfl
      · exact .inl ht
      · refine .inr ?_
        cases hcb : ((s.contexts p).getEventContext event).cb <;> simp

theorem triggerIf_spec (H : (s.contexts p).Sound)
    (hf : (s.triggerIf p mask event).fault = none) :
    mask &&& event.bits = 0 ∧ s.triggerIf p mask event = s ∨
      mask &&& event.bits ≠ 0 ∧ Triggered p event s (s.triggerIf p mask event) := by
  revert hf
  unfold triggerIf
  split
  · rename_i h
    intro hf
    simp only [hf, Option.isSome_none, Bool.false_or, decide_eq_true_eq] at h
    exact .inl ⟨h, rfl⟩
  · rename_i h
    simp only [Bool.or_eq_true, decide_eq_true_eq, not_or] at h
    exact fun hf => .inr ⟨h.2, triggerEvent_spec H hf⟩

theorem fault_of_triggerIf (hf : (s.triggerIf p mask event).fault = none) : s.fault = none := by
  cases h : s.fault with
  | none => rfl
  | some f =>
    rw [triggerIf_of_fault (by simp [h]), h] at hf
    cases hf

/-- Triggering one event leaves the other one armed or not, and waited for as before. -/
theorem triggerIf_other (H : (s.contexts p).Sound) (he : event ≠ .NONE) (he' : event' ≠ .NONE)
    (h : event' ≠ event) (hf : (s.triggerIf p mask event).fault = none) :
    ((s.triggerIf p mask event).contexts p).events &&& event'.bits =
        (s.contexts p).events &&& event'.bits ∧
      ((s.triggerIf p mask event).contexts p).getEventContext event' =
        (s.contexts p).getEventContext event' := by
  rcases triggerIf_spec H hf with ⟨-, hs⟩ | ⟨-, hs⟩
  · rw [hs]
    exact ⟨rfl, rfl⟩
  · rw [hs.contexts, Function.update_self]
    exact ⟨disarm_and_other he h .., disarm_other he he' h ..⟩

theorem triggerIf_self (H : (s.contexts p).Sound) (hm : mask &&& event.bits ≠ 0)
    (hf : (s.triggerIf p mask event).fault = none) :
    ((s.triggerIf p mask event).contexts p).events &&& event.bits = 0 ∧
      ((s.triggerIf p mask event).contexts p).getEventContext event =
        ((s.contexts p).getEventContext event).trigger := by
  obtain ⟨-, hs⟩ := (triggerIf_spec H hf).resolve_left fun h => hm h.1
  rw [hs.contexts, Function.update_self]
  exact ⟨disarm_and_self .., disarm_self ..⟩

/-! ## Steps -/

/-- `m_fdContexts[fd]`, for the functions that return if there is no index `fd`. -/
def target (s : IOManager) (fd : Nat) : Option Nat :=
  if s.intSize ≤ fd then none else (s.lookup fd).toOption

/-- The events that a step triggers, and in which context. -/
def triggers (s : IOManager) : EventStep → Option (Nat × Mask)
  | .cancelEvent fd event ctlOk => (s.target fd).bind fun p =>
    if (s.contexts p).events &&& event.bits = 0 then none
    else if !ctlOk then none else some (p, event.bits)
  | .cancelAllEvent fd ctlOk => (s.target fd).bind fun p =>
    if (s.contexts p).events = 0 then none
    else if !ctlOk then none else some (p, (s.contexts p).events)
  | .report fd reported ctlOk => (s.lookup fd).toOption.bind fun p =>
    if (s.contexts p).events &&& realEvent reported = 0 then none
    else if !ctlOk then none else some (p, realEvent reported)
  | _ => none

/-- `s'` is `s` with the events of a mask triggered, `READ` first. -/
def Fires (s : IOManager) : Option (Nat × Mask) → IOManager → Prop
  | none, s' => s' = s
  | some (p, mask), s' => ∃ mask', mask' &&& Event.WRITE.bits = mask &&& Event.WRITE.bits ∧
    s' = (s.triggerIf p mask .READ).triggerIf p mask' .WRITE

theorem triggerEvent_fires (hf : s.fault = none) (he : event ≠ .NONE) :
    s.Fires (some (p, event.bits)) (s.triggerEvent p event) := by
  refine ⟨event.bits, rfl, ?_⟩
  cases event with
  | NONE => exact absurd rfl he
  | READ =>
    have hskip : ∀ t : IOManager, t.triggerIf p Event.READ.bits .WRITE = t := by
      intro t
      rw [triggerIf, if_pos]
      rw [Bool.or_eq_true]
      exact .inr rfl
    rw [hskip, triggerIf, if_neg (by simp only [hf]; decide)]
  | WRITE =>
    have hskip : s.triggerIf p Event.WRITE.bits .READ = s := by
      rw [triggerIf, if_pos]
      rw [Bool.or_eq_true]
      exact .inr rfl
    rw [hskip, triggerIf, if_neg (by simp only [hf]; decide)]

theorem cancelEvent_fires (hs : s.fault = none) {fd : Nat} {ctlOk : Bool}
    (hf : (s.cancelEvent fd event ctlOk).2.fault = none) :
    s.Fires (s.triggers (.cancelEvent fd event ctlOk)) (s.cancelEvent fd event ctlOk).2 := by
  revert hf
  unfold cancelEvent triggers target
  by_cases hsize : s.intSize ≤ fd
  · simp only [if_pos hsize]
    exact fun _ => rfl
  simp only [if_neg hsize]
  cases s.lookup fd with
  | error f =>
    intro hf
    cases hf
  | ok p =>
    dsimp only [Except.toOption, Option.bind_some]
    by_cases harmed : (s.contexts p).events &&& event.bits = 0
    · simp only [if_pos harmed]
      exact fun _ => rfl
    simp only [if_neg harmed]
    cases ctlOk with
    | false => exact fun _ => rfl
    | true => exact fun _ => triggerEvent_fires hs (ne_none_of_armed harmed)

theorem cancelAllEvent_fires (H : ∀ p, (s.contexts p).Sound) {fd : Nat} {ctlOk : Bool}
    (hf : (s.cancelAllEvent fd ctlOk).2.fault = none) :
    s.Fires (s.triggers (.cancelAllEvent fd ctlOk)) (s.cancelAllEvent fd ctlOk).2 := by
  revert hf
  unfold cancelAllEvent triggers target
  by_cases hsize : s.intSize ≤ fd
  · simp only [if_pos hsize]
    exact fun _ => rfl
  simp only [if_neg hsize]
  cases s.lookup fd with
  | error f =>
    intro hf
    cases hf
  | ok p =>
    dsimp only [Except.toOption, Option.bind_some]
    by_cases harmed : (s.contexts p).events = 0
    · simp only [if_pos harmed]
      exact fun _ => rfl
    simp only [if_neg harmed]
    cases ctlOk with
    | false => exact fun _ => rfl
    | true =>
      simp only [Bool.not_true, Bool.false_eq_true, if_false]
      -- what is left of the mask after `READ` has the same `WRITE` bit
      split
      · intro hf
        have hread := fault_of_triggerIf hf
        exact ⟨_, (triggerIf_other (H p) (by decide) (by decide) (by decide) hread).1, rfl⟩
      · intro hf
        cases hf

theorem dispatch_fires (hl : s.lookup fd = .ok p) (reported : Mask) (ctlOk : Bool) :
    s.Fires (s.triggers (.report fd reported ctlOk)) (s.dispatch p reported ctlOk) := by
  simp only [triggers, dispatch, hl, Except.toOption, Option.bind_some]
  by_cases harmed : (s.contexts p).events &&& realEvent reported = 0
  · simp only [if_pos harmed]
    rfl
  simp only [if_neg harmed]
  cases ctlOk with
  | false => rfl
  | true => exact ⟨_, rfl, rfl⟩

/-- `delEvent` changes nothing or resets the context of an armed event. -/
theorem delEvent_spec {fd : Nat} {ctlOk : Bool} (hf : (s.delEvent fd event ctlOk).2.fault = none) :
    (s.delEvent fd event ctlOk).2 = s ∨
      ∃ p, (s.contexts p).events &&& event.bits ≠ 0 ∧
        (s.delEvent fd event ctlOk).2.contexts =
          Function.update s.contexts p ((s.contexts p).disarm event {}) ∧
        (s.delEvent fd event ctlOk).2.scheduled = s.scheduled := by
  revert hf
  unfold delEvent
  split
  · exact fun _ => .inl rfl
  cases s.lookup fd with
  | error f =>
    intro hf
    cases hf
  | ok p =>
    dsimp only
    split
    · exact fun _ => .inl rfl
    rename_i harmed
    split
    · exact fun _ => .inl rfl
    · exact fun _ => .inr ⟨p, harmed, rfl, rfl⟩

/-! ## Invariants of contexts and tasks -/

/-- A property `I` of contexts and a property `T` of tasks that the operations keep, as long as `G`
holds of the event contexts of the events that are triggered. -/
structure Kept (I : FdContext → Prop) (G : EventContext → Prop) (T : Task → Prop) : Prop where
  sound : ∀ c, I c → c.Sound
  new : ∀ fd, I { fd }
  arm : ∀ c (event : Event) cb caller, I c → event ≠ .NONE → c.events &&& event.bits = 0 →
    I (c.arm event ((c.getEventContext event).register cb caller))
  reset : ∀ c (event : Event), I c → c.events &&& event.bits ≠ 0 → I (c.disarm event {})
  trigger : ∀ c (event : Event), I c → c.events &&& event.bits ≠ 0 →
    G (c.getEventContext event) → I (c.disarm event (c.getEventContext event).trigger)
  task : ∀ c (event : Event) (t : Task), I c → c.events &&& event.bits ≠ 0 →
    t.threadId = (c.getEventContext event).threadId → t.cb = (c.getEventContext event).cb → T t

structure Holds (I : FdContext → Prop) (T : Task → Prop) (s : IOManager) : Prop where
  contexts : ∀ p, I (s.contexts p)
  scheduled : ∀ t ∈ s.scheduled, T t

section
variable {I : FdContext → Prop} {G : EventContext → Prop} {T : Task → Prop}

theorem Holds.update (H : Holds I T s) (hc : I c)
    (h : s'.contexts = Function.update s.contexts p c) (hs : ∀ t ∈ s'.scheduled, T t) :
    Holds I T s' where
  contexts q := by
    rw [h]
    by_cases hq : q = p
    · subst hq
      rwa [Function.update_self]
    · rw [Function.update_of_ne hq]
      exact H.contexts q
  scheduled := hs

theorem Kept.reserve (K : Kept I G T) (H : Holds I T s) (fd : Nat) : Holds I T (s.reserve fd) := by
  unfold IOManager.reserve
  split
  · exact H
  refine ⟨fun p => ?_, ?_⟩
  · rcases fdContextsResize_contexts s (growSize fd) p with h | ⟨fd, h⟩
    · rw [h]
      exact H.contexts p
    · rw [h]
      exact K.new fd
  · rw [(fdContextsResize_rest _ _).1]
    exact H.scheduled

theorem Kept.addEvent (K : Kept I G T) (H : Holds I T s) (he : event ≠ .NONE)
    (fd cb caller ctlOk) : Holds I T (s.addEvent fd event cb caller ctlOk).2 := by
  have H := K.reserve H fd
  unfold IOManager.addEvent addEventAt
  split
  · exact ⟨H.contexts, H.scheduled⟩
  · rename_i p _
    rcases armEvent_spec (K.sound _ (H.contexts p)) he cb caller ctlOk with h | ⟨h, hc, hs, -⟩
    · rw [h]
      exact H
    · exact H.update (K.arm _ event cb caller (H.contexts p) he h) hc (hs ▸ H.scheduled)

theorem Kept.triggerIf (K : Kept I G T) (H : Holds I T s)
    (hG : mask &&& event.bits ≠ 0 → G ((s.contexts p).getEventContext event))
    (hf : (s.triggerIf p mask event).fault = none) : Holds I T (s.triggerIf p mask event) := by
  rcases triggerIf_spec (K.sound _ (H.contexts p)) hf with ⟨-, h⟩ | ⟨hm, h⟩
  · rw [h]
    exact H
  · refine H.update (K.trigger _ event (H.contexts p) h.armed (hG hm)) h.contexts fun t ht => ?_
    rcases h.scheduled t ht with ht | ⟨hid, hcb⟩
    · exact H.scheduled t ht
    · exact K.task _ event t (H.contexts p) h.armed hid hcb

/-- The events of `t` are triggered only with contexts that have `G`. -/
def Only (G : EventContext → Prop) (s : IOManager) (t : Option (Nat × Mask)) : Prop :=
  ∀ x ∈ t, ∀ event ∈ [Event.READ, .WRITE], x.2 &&& event.bits ≠ 0 →
    G ((s.contexts x.1).getEventContext event)

theorem Kept.fires (K : Kept I G T) (H : Holds I T s) {t : Option (Nat × Mask)}
    (hG : Only G s t) (h : s.Fires t s') (hf : s'.fault = none) : Holds I T s' := by
  cases t with
  | none =>
    cases h
    exact H
  | some x =>
    obtain ⟨p, mask⟩ := x
    obtain ⟨mask', hm, rfl⟩ := h
    have hread := fault_of_triggerIf hf
    have H1 := K.triggerIf H (hG _ rfl .READ (by simp)) hread
    refine K.triggerIf H1 (fun hw => ?_) hf
    rw [(triggerIf_other (K.sound _ (H.contexts p)) (by decide) (by decide) (by decide) hread).2]
    exact hG _ rfl .WRITE (by simp) (hm ▸ hw)

/-- `addEvent` is called for an event. -/
def EventStep.Registers : EventStep → Prop
  | .addEvent _ event _ _ _ => event ≠ .NONE
  | _ => True

/-- A step that does not call `addEvent` or `delEvent` triggers the events of `triggers`. -/
theorem step_fires {a : EventStep} (H : ∀ p, (s.contexts p).Sound) (h : s.step a = some s')
    (hf : s'.fault = none) :
    (∃ fd event cb caller ctlOk, a = .addEvent fd event cb caller ctlOk ∧
        s' = (s.addEvent fd event cb caller ctlOk).2) ∨
      (∃ fd event ctlOk, a = .delEvent fd event ctlOk ∧ s' = (s.delEvent fd event ctlOk).2) ∨
      s.Fires (s.triggers a) s' := by
  unfold IOManager.step at h
  split at h
  · cases h
  rename_i hs
  have hs : s.fault = none := by simpa using hs
  cases a with
  | addEvent fd event cb caller ctlOk =>
    dsimp only at h
    split at h
    · cases h
      exact .inl ⟨fd, event, cb, caller, ctlOk, rfl, rfl⟩
    · cases h
  | delEvent fd event ctlOk =>
    cases h
    exact .inr (.inl ⟨fd, event, ctlOk, rfl, rfl⟩)
  | cancelEvent fd event ctlOk =>
    cases h
    exact .inr (.inr (cancelEvent_fires hs hf))
  | cancelAllEvent fd ctlOk =>
    cases h
    exact .inr (.inr (cancelAllEvent_fires H hf))
  | report fd reported ctlOk =>
    dsimp only at h
    split at h
    · rename_i p hl
      cases h
      exact .inr (.inr (dispatch_fires hl reported ctlOk))
    · cases h

theorem Kept.step (K : Kept I G T) (H : Holds I T s) {a : EventStep} (hr : a.Registers)
    (hG : Only G s (s.triggers a)) (h : s.step a = some s') (hf : s'.fault = none) :
    Holds I T s' := by
  rcases step_fires (fun p => K.sound _ (H.contexts p)) h hf with
    ⟨fd, event, cb, caller, ctlOk, rfl, rfl⟩ | ⟨fd, event, ctlOk, rfl, rfl⟩ | h
  · exact K.addEvent H hr fd cb caller ctlOk
  · rcases delEvent_spec hf with h | ⟨p, harmed, hc, hs⟩
    · rw [h]
      exact H
    · exact H.update (K.reset _ event (H.contexts p) harmed) hc (hs ▸ H.scheduled)
  · exact K.fires H hG h hf

theorem Kept.init (K : Kept I G T) : Holds I T init where
  contexts p := by
    rcases init_grows.1.contexts p with h | ⟨-, fd, h⟩
    · rw [h]
      exact K.new 0
    · rw [h]
      exact K.new fd
  scheduled t ht := by
    rw [init_grows.1.scheduled] at ht
    cases ht

theorem step_fault {a : EventStep} (h : s.step a = some s') : s.fault = none := by
  unfold IOManager.step at h
  split at h
  · cases h
  · rename_i hs
    simpa using hs

theorem Kept.reach (K : Kept I G T) {P : IOManager → EventStep → Prop}
    (hP : ∀ s a, P s a → a.Registers ∧ Only G s (s.triggers a))
    (h : Reach IOManager.step P IOManager.init s) : s.fault = none → Holds I T s := by
  refine Reach.inv (I := fun s => s.fault = none → Holds I T s) h (fun _ => K.init) ?_
  intro s a s' H hG hs hf
  exact K.step (H (step_fault hs)) (hP s a hG).1 (hP s a hG).2 hs hf

end

/-! ## The two invariants -/

theorem sound_kept : Kept FdContext.Sound (fun _ => True) (fun _ => True) where
  sound _ := id
  new := sound_new
  arm c event cb caller H he h := by
    obtain ⟨-, h2, h3⟩ := H.unarmed event he h
    refine H.arm he ?_
    unfold EventContext.register
    dsimp only
    split
    · exact .inl h2
    · exact .inr h3
  reset c event H h := H.disarm (ne_none_of_armed h) ⟨rfl, rfl, rfl⟩
  trigger c event H h _ := H.disarm (ne_none_of_armed h) ⟨rfl, rfl, rfl⟩
  task _ _ _ _ _ _ _ := trivial

/-- The context of an event that is not armed is as `resetContext` leaves it, and a callback waits
for no thread. -/
structure FdContext.Unpinned (c : FdContext) : Prop where
  sound : c.Sound
  unarmed : ∀ event, event ≠ .NONE → c.events &&& event.bits = 0 → c.getEventContext event = {}
  cb : ∀ event, event ≠ .NONE → (c.getEventContext event).cb.isSome →
    (c.getEventContext event).threadId = 0

theorem FdContext.Unpinned.disarm (H : c.Unpinned) (h : c.events &&& event.bits ≠ 0) :
    (c.disarm event {}).Unpinned := by
  have he := ne_none_of_armed h
  refine ⟨sound_kept.reset c event H.sound h, fun event' he' h' => ?_, fun event' he' hcb => ?_⟩
  · by_cases hne : event' = event
    · subst hne
      rw [disarm_self]
    · rw [disarm_and_other he hne] at h'
      rw [disarm_other he he' hne]
      exact H.unarmed event' he' h'
  · by_cases hne : event' = event
    · subst hne
      rw [disarm_self]
    · rw [disarm_other he he' hne] at hcb ⊢
      exact H.cb event' he' hcb

theorem FdContext.Unpinned.arm (H : c.Unpinned) (he : event ≠ .NONE)
    (h : c.events &&& event.bits = 0) (cb : Option CbId) (caller : Caller) :
    (c.arm event ((c.getEventContext event).register cb caller)).Unpinned := by
  refine ⟨sound_kept.arm c event cb caller H.sound he h, fun event' he' h' => ?_,
    fun event' he' hcb => ?_⟩
  · have hne : event' ≠ event := by
      rintro rfl
      rw [FdContext.arm, setEventContext_events] at h'
      exact or_and_self H.sound.mask he h'
    rw [FdContext.arm, setEventContext_events] at h'
    rw [arm_other he he' hne]
    exact H.unarmed event' he' (or_and_other H.sound.mask hne h')
  · by_cases hne : event' = event
    · subst hne
      rw [arm_self, H.unarmed event' he h] at hcb ⊢
      cases cb with
      | none => cases hcb
      | some cb => rfl
    · rw [arm_other he he' hne] at hcb ⊢
      exact H.cb event' he' hcb

theorem unpinned_kept : Kept FdContext.Unpinned (fun x => x.threadId = 0)
    (fun t => t.cb.isSome → t.threadId = 0) where
  sound _ H := H.sound
  new fd := by
    refine ⟨sound_new fd, fun event _ _ => ?_, fun event _ h => ?_⟩
    · cases event <;> rfl
    · cases event <;> cases h
  arm c event cb caller H he h := H.arm he h cb caller
  reset c event H h := H.disarm h
  trigger c event H h h0 := by
    rw [EventContext.trigger, h0]
    exact H.disarm h
  task c event t H h hid hcb := by
    rw [hid, hcb]
    exact H.cb event (ne_none_of_armed h)

/-! ## Histories -/

instance : ∀ a : EventStep, Decidable a.Registers
  | .addEvent _ event _ _ _ => inferInstanceAs (Decidable (event ≠ .NONE))
  | .delEvent _ _ _ | .cancelEvent _ _ _ | .cancelAllEvent _ _ | .report _ _ _ => .isTrue trivial

/-- The events that the step triggers have no thread in their contexts: callbacks wait for them. -/
def Unpins (s : IOManager) (a : EventStep) : Prop :=
  a.Registers ∧ Only (fun x => x.threadId = 0) s (s.triggers a)

instance (s : IOManager) (a : EventStep) : Decidable (s.Unpins a) := by
  unfold Unpins Only
  infer_instance

theorem lookup_ne_contextInUse : s.lookup fd ≠ .error .contextInUse := by
  unfold lookup
  split <;> simp

theorem triggerIf_ne_contextInUse (h : s.fault ≠ some .contextInUse) :
    (s.triggerIf p mask event).fault ≠ some .contextInUse := by
  unfold triggerIf triggerEvent
  dsimp only
  split
  · exact h
  split
  · simp [fail]
  split
  · simp [fail]
  · exact h

/-- The assertion of `addEvent` holds. -/
theorem addEvent_ne_contextInUse (H : ∀ p, (s.contexts p).Sound) (hs : s.fault = none)
    (he : event ≠ .NONE) (fd cb caller ctlOk) :
    (s.addEvent fd event cb caller ctlOk).2.fault ≠ some .contextInUse := by
  have hres := sound_kept.reserve ⟨H, fun _ _ => trivial⟩ fd
  have hf : (s.reserve fd).fault = none := by
    unfold IOManager.reserve
    split
    · exact hs
    · rw [(fdContextsResize_rest _ _).2, hs]
  unfold IOManager.addEvent addEventAt
  split
  · rename_i f hl
    rintro ⟨⟩
    exact lookup_ne_contextInUse hl
  · rename_i p _
    rcases armEvent_spec (hres.contexts p) he cb caller ctlOk with h | ⟨-, -, -, h⟩
    · simp [h, hf]
    · simp [h, hf]

theorem step_ne_contextInUse {a : EventStep} (H : ∀ p, (s.contexts p).Sound) (hr : a.Registers)
    (h : s.step a = some s') : s'.fault ≠ some .contextInUse := by
  have hs := step_fault h
  have hs' : s.fault ≠ some .contextInUse := by simp [hs]
  have hfail : ∀ fd f, s.lookup fd = .error f → (s.fail f).fault ≠ some .contextInUse := by
    rintro fd f hl ⟨⟩
    exact lookup_ne_contextInUse hl
  have htrigger : ∀ p event, (s.contexts p).events &&& event.bits ≠ 0 →
      (s.triggerEvent p event).fault ≠ some .contextInUse := by
    intro p event harmed
    obtain ⟨mask, -, h⟩ := triggerEvent_fires hs (ne_none_of_armed harmed)
    rw [h]
    exact triggerIf_ne_contextInUse (triggerIf_ne_contextInUse hs')
  unfold IOManager.step at h
  rw [if_neg (by simp [hs])] at h
  cases a with
  | addEvent fd event cb caller ctlOk =>
    dsimp only at h
    split at h
    · cases h
      exact addEvent_ne_contextInUse H hs hr fd cb caller ctlOk
    · cases h
  | delEvent fd event ctlOk =>
    cases h
    unfold delEvent
    split
    · exact hs'
    split
    · exact hfail fd _ ‹_›
    dsimp only
    split
    · exact hs'
    split
    · exact hs'
    · exact hs'
  | cancelEvent fd event ctlOk =>
    cases h
    unfold cancelEvent
    split
    · exact hs'
    split
    · exact hfail fd _ ‹_›
    dsimp only
    split
    · exact hs'
    split
    · exact hs'
    · exact htrigger _ _ ‹_›
  | cancelAllEvent fd ctlOk =>
    cases h
    unfold cancelAllEvent
    split
    · exact hs'
    split
    · exact hfail fd _ ‹_›
    dsimp only
    split
    · exact hs'
    split
    · exact hs'
    split
    · exact triggerIf_ne_contextInUse (triggerIf_ne_contextInUse hs')
    · simp [fail]
  | report fd reported ctlOk =>
    dsimp only at h
    split at h
    · cases h
      unfold dispatch
      dsimp only
      split
      · exact hs'
      split
      · exact hs'
      · exact triggerIf_ne_contextInUse (triggerIf_ne_contextInUse hs')
    · cases h

/-- What is left of a triggered event is its thread. -/
theorem fires_trigger (H : ∀ p, (s.contexts p).Sound) (h : s.Fires (some (p, mask)) s')
    (hf : s'.fault = none) (he : event ∈ [Event.READ, .WRITE]) (hm : mask &&& event.bits ≠ 0) :
    (s'.contexts p).events &&& event.bits = 0 ∧
      (s'.contexts p).getEventContext event = ((s.contexts p).getEventContext event).trigger := by
  obtain ⟨mask', hmask', rfl⟩ := h
  have hread := fault_of_triggerIf hf
  have H1 := sound_kept.triggerIf ⟨H, fun _ _ => trivial⟩ (fun _ => trivial) hread
  rcases List.mem_pair.mp he with rfl | rfl
  · obtain ⟨h1, h2⟩ := triggerIf_self (H p) hm hread
    obtain ⟨h3, h4⟩ := triggerIf_other (H1.contexts p) (by decide) (by decide)
      (show Event.READ ≠ .WRITE by decide) hf
    exact ⟨h3.trans h1, h4.trans h2⟩
  · obtain ⟨h1, h2⟩ := triggerIf_self (H1.contexts p) (hmask' ▸ hm) hf
    have h3 := triggerIf_other (H p) (by decide) (by decide) (show Event.WRITE ≠ .READ by decide)
      hread
    exact ⟨h1, h2.trans (congrArg EventContext.trigger h3.2)⟩

/-- The contexts of the events that are not armed are as `resetContext` leaves them. -/
def AllReset (s : IOManager) : Prop :=
  ∀ p event, event ≠ .NONE → (s.contexts p).events &&& event.bits = 0 →
    (s.contexts p).getEventContext event = {}

/-- No callback that was handed to a scheduler asks for a thread. -/
def CallbacksUnpinned (s : IOManager) : Prop := ∀ t ∈ s.scheduled, t.cb.isSome → t.threadId = 0

/-- A step leaves the contexts reset exactly if it triggers no event with a thread. -/
theorem allReset_iff {a : EventStep}
    (H : Holds FdContext.Unpinned (fun t => t.cb.isSome → t.threadId = 0) s) (hr : a.Registers)
    (h : s.step a = some s') (hf : s'.fault = none) : s'.AllReset ↔ s.Unpins a := by
  constructor
  · intro hreset
    refine ⟨hr, fun x hx event he hm => ?_⟩
    have hs := fun p => (H.contexts p).sound
    rcases step_fires hs h hf with ⟨_, _, _, _, _, rfl, -⟩ | ⟨_, _, _, rfl, -⟩ | hfire
    · cases hx
    · cases hx
    · rw [Option.mem_def.mp hx] at hfire
      obtain ⟨h1, h2⟩ := fires_trigger hs hfire hf he hm
      have hne : event ≠ .NONE := ne_none_of_armed hm
      rw [hreset x.1 event hne h1] at h2
      exact (congrArg EventContext.threadId h2).symm
  · exact fun hG p => ((unpinned_kept.step H hr hG.2 h hf).contexts p).unarmed

/-- **Callback events are unpinned** in every history in which only events without a thread are
triggered: what is not armed is reset, and no callback is pinned. The first step that breaks the
condition leaves a thread behind. The assertion in `addEvent` holds in every history. -/
theorem callbacks_unpinned (s : IOManager) :
    (Reach step (fun _ a => a.Registers) init s → s.fault ≠ some .contextInUse) ∧
      (Reach step Unpins init s → s.fault = none → s.AllReset ∧ s.CallbacksUnpinned ∧
        ∀ a s', a.Registers → s.step a = some s' → s'.fault = none →
          (s'.AllReset ↔ s.Unpins a)) := by
  constructor
  · intro h
    induction h with
    | refl => simp [init_grows.1.fault]
    | tail h hG hs ih =>
      refine step_ne_contextInUse (sound_kept.reach ?_ h (step_fault hs)).contexts hG hs
      exact fun s a hr => ⟨hr, fun _ _ _ _ _ => trivial⟩
  · intro h hf
    have H := unpinned_kept.reach (fun s a hG => hG) h hf
    exact ⟨fun p => (H.contexts p).unarmed, H.scheduled, fun a s' => allReset_iff H⟩

/-- A coroutine of thread 1 waits for `READ` on descriptor 5, and after it a callback. -/
def secondWaiter : List EventStep :=
  [.addEvent 5 .READ none ⟨some 0, 7, 1⟩ true, .report 5 EPOLLIN true,
    .addEvent 5 .READ (some 9) ⟨some 0, 8, 2⟩ true, .report 5 EPOLLIN true]

/-- The callback is scheduled for the thread of the coroutine. -/
theorem callback_pinned : ∃ s s', Reach step (fun _ a => a.Registers) init s ∧ s.fault = none ∧
    ¬s.AllReset ∧ Reach step (fun _ a => a.Registers) s s' ∧
    s'.scheduled = [{ co := some 7, threadId := 1 }, { cb := some 9, threadId := 1 }] := by
  obtain ⟨s, s', ⟨hs, h⟩, hs', h'⟩ := Reach.of_any_any step (fun _ a => a.Registers) init
    (secondWaiter.take 2) (secondWaiter.drop 2)
    (fun s => s.fault = none ∧ (s.contexts 5).events = 0 ∧ (s.contexts 5).read.threadId = 1)
    (fun s => s.scheduled = [{ co := some 7, threadId := 1 }, { cb := some 9, threadId := 1 }])
    (by decide +kernel)
  obtain ⟨hf, he, hid⟩ := of_decide_eq_true h
  refine ⟨s, s', hs, hf, fun hreset => ?_, hs', of_decide_eq_true h'⟩
  have hread := hreset 5 .READ (by decide) (by rw [he]; rfl)
  rw [FdContext.getEventContext.eq_1] at hread
  rw [hread] at hid
  cases hid

/-- A callback that waits where a callback waited before. -/
theorem callbacks_unpinned_twice : ∃ s, Reach step Unpins init s ∧ s.CallbacksUnpinned ∧
    s.scheduled = [{ cb := some 9 }, { cb := some 9 }] := by
  obtain ⟨s, hs, h⟩ := Reach.of_any step Unpins init
    [.addEvent 5 .READ (some 9) ⟨some 0, 7, 1⟩ true, .report 5 EPOLLIN true,
      .addEvent 5 .READ (some 9) ⟨some 0, 7, 1⟩ true, .cancelEvent 5 .READ true]
    (fun s => s.fault = none ∧ s.scheduled = [{ cb := some 9 }, { cb := some 9 }])
    (by decide +kernel)
  obtain ⟨hf, ht⟩ := of_decide_eq_true h
  exact ⟨s, hs, ((callbacks_unpinned s).2 hs hf).2.1, ht⟩

end Tigerkin.IOManager
