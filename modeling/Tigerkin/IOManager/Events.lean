import Mathlib.Algebra.BigOperators.Group.Finset.Basic
import Mathlib.Algebra.Order.BigOperators.Group.Finset
import Tigerkin.IOManager.Table

/-! # Event accounting

The operations on events and the reports of `epoll_wait` as steps, each run alone and with its own
result of `epoll_ctl`. `EventInv` couples the masks of the contexts with their event contexts and
with `m_pendingEventCount`. The report path triggers every event of the widened mask, armed or not,
so a report must ask for armed events only, or for none of them (`Exact`). -/

namespace Tigerkin.IOManager

open Finset

variable {s s' : IOManager} {m : Mask} {event : Event} {c : FdContext} {p fd : Nat}

/-! ## Contexts -/

/-- The number of events armed in a mask. -/
def armed (m : Mask) : Nat :=
  (if m &&& Event.READ.bits = 0 then 0 else 1) + (if m &&& Event.WRITE.bits = 0 then 0 else 1)

def EventContext.Empty (x : EventContext) : Prop :=
  x.scheduler = none ∧ x.co = none ∧ x.cb = none

/-- The masks without foreign bits. -/
def masks : List Mask := [0, 1, 4, 5]

/-- Only `READ` and `WRITE` are armed, nobody waits for an event that is not, and an event has one
waiter. -/
structure FdContext.Sound (c : FdContext) : Prop where
  mask : c.events ∈ masks
  waiter : ∀ event, (c.getEventContext event).co = none ∨ (c.getEventContext event).cb = none
  unarmed : ∀ event, event ≠ .NONE → c.events &&& event.bits = 0 → (c.getEventContext event).Empty

theorem armed_le (m : Mask) : armed m ≤ 2 := by
  unfold armed
  split <;> split <;> omega

theorem mem_masks : m ∈ masks ↔ m = 0 ∨ m = 1 ∨ m = 4 ∨ m = 5 := by
  simp [masks]

theorem armed_or (hm : m ∈ masks) : event ≠ .NONE → m &&& event.bits = 0 →
    armed (m ||| event.bits) = armed m + 1 := by
  rcases mem_masks.mp hm with rfl | rfl | rfl | rfl <;> cases event <;> decide

theorem armed_andNot (hm : m ∈ masks) : m &&& event.bits ≠ 0 →
    armed (m &&& ~~~event.bits) + 1 = armed m := by
  rcases mem_masks.mp hm with rfl | rfl | rfl | rfl <;> cases event <;> decide

theorem or_mem_masks (hm : m ∈ masks) : m ||| event.bits ∈ masks := by
  rcases mem_masks.mp hm with rfl | rfl | rfl | rfl <;> cases event <;> decide

theorem andNot_mem_masks (hm : m ∈ masks) : m &&& ~~~event.bits ∈ masks := by
  rcases mem_masks.mp hm with rfl | rfl | rfl | rfl <;> cases event <;> decide

theorem or_and_self (hm : m ∈ masks) (he : event ≠ .NONE) :
    (m ||| event.bits) &&& event.bits ≠ 0 := by
  rcases mem_masks.mp hm with rfl | rfl | rfl | rfl <;> cases event <;>
    first | exact absurd rfl he | decide

/-- Events other than `event` are armed in `m` as before. -/
theorem or_and_other {event' : Event} (hm : m ∈ masks) (h : event' ≠ event) :
    (m ||| event.bits) &&& event'.bits = 0 → m &&& event'.bits = 0 := by
  rcases mem_masks.mp hm with rfl | rfl | rfl | rfl <;> cases event <;> cases event' <;>
    first | exact absurd rfl h | decide

theorem andNot_and_other {event' : Event} (hm : m ∈ masks) (h : event' ≠ event) :
    (m &&& ~~~event.bits) &&& event'.bits = 0 → m &&& event'.bits = 0 := by
  rcases mem_masks.mp hm with rfl | rfl | rfl | rfl <;> cases event <;> cases event' <;>
    first | exact absurd rfl h | decide

theorem ne_none_of_armed (h : m &&& event.bits ≠ 0) : event ≠ .NONE := by
  rintro rfl
  exact h (BitVec.and_zero)

theorem getEventContext_setEventContext_cases (c : FdContext) (x : EventContext)
    (event event' : Event) : (c.setEventContext x event).getEventContext event' = x ∨
      (c.setEventContext x event).getEventContext event' = c.getEventContext event' := by
  cases event <;> cases event' <;> simp [FdContext.getEventContext, FdContext.setEventContext]

theorem getEventContext_setEventContext (c : FdContext) (x : EventContext) (event : Event) :
    (c.setEventContext x event).getEventContext event = x := by
  cases event <;> rfl

theorem getEventContext_setEventContext_of_ne {event' : Event} (he : event ≠ .NONE)
    (he' : event' ≠ .NONE) (h : event' ≠ event) (c : FdContext) (x : EventContext) :
    (c.setEventContext x event).getEventContext event' = c.getEventContext event' := by
  cases event <;> cases event' <;> simp_all [FdContext.getEventContext, FdContext.setEventContext]

theorem FdContext.Sound.waiter_set (H : c.Sound) {x : EventContext} (hx : x.co = none ∨ x.cb = none)
    (m : Mask) (event event' : Event) :
    let x' := (({ c with events := m } : FdContext).setEventContext x event).getEventContext event'
    x'.co = none ∨ x'.cb = none := by
  intro x'
  rcases getEventContext_setEventContext_cases { c with events := m } x event event' with h | h
  · simp only [x', h]
    exact hx
  · simp only [x', h]
    exact H.waiter event'

theorem FdContext.Sound.arm (H : c.Sound) (he : event ≠ .NONE) {x : EventContext}
    (hx : x.co = none ∨ x.cb = none) :
    (({ c with events := c.events ||| event.bits } : FdContext).setEventContext x event).Sound where
  mask := by
    rw [setEventContext_events]
    exact or_mem_masks H.mask
  waiter := H.waiter_set hx _ event
  unarmed event' he' h' := by
    rw [setEventContext_events] at h'
    have hne : event' ≠ event := by
      rintro rfl
      exact or_and_self H.mask he h'
    rw [getEventContext_setEventContext_of_ne he he' hne]
    exact H.unarmed event' he' (or_and_other H.mask hne h')

theorem FdContext.Sound.disarm (H : c.Sound) (he : event ≠ .NONE) {x : EventContext}
    (hx : x.Empty) :
    (({ c with events := c.events &&& ~~~event.bits } : FdContext).setEventContext x event).Sound
    where
  mask := by
    rw [setEventContext_events]
    exact andNot_mem_masks H.mask
  waiter := H.waiter_set (.inl hx.2.1) _ event
  unarmed event' he' h' := by
    rw [setEventContext_events] at h'
    by_cases hne : event' = event
    · subst hne
      rw [getEventContext_setEventContext]
      exact hx
    · rw [getEventContext_setEventContext_of_ne he he' hne]
      exact H.unarmed event' he' (andNot_and_other H.mask hne h')

/-! ## The armed events of the table -/

def armedAt (s : IOManager) (i : Nat) : Nat :=
  match s.fdContexts[i]? with
  | some (some p) => armed (s.contexts p).events
  | _ => 0

/-- The number of armed pairs of a descriptor and an event. -/
def armedCount (s : IOManager) : Nat := ∑ i ∈ range s.fdContexts.length, s.armedAt i

theorem armedCount_le (s : IOManager) : s.armedCount ≤ s.fdContexts.length * 2 := by
  have h : ∀ i ∈ range s.fdContexts.length, s.armedAt i ≤ 2 := by
    intro i _
    unfold armedAt
    split
    · exact armed_le _
    · omega
  simpa [armedCount] using sum_le_card_nsmul _ _ 2 h

/-- The invariant of the event accounting. -/
structure EventInv (s : IOManager) : Prop where
  wf : s.WF
  length : s.fdContexts.length < 2 ^ 32
  sound : ∀ p, (s.contexts p).Sound
  count : s.pendingEventCount.toNat = s.armedCount
  fault : s.fault = none

theorem sound_new (fd : Nat) : FdContext.Sound { fd } :=
  ⟨List.mem_cons_self, fun event => by cases event <;> exact .inl rfl,
    fun event _ _ => by cases event <;> exact ⟨rfl, rfl, rfl⟩⟩

theorem WF.armedCount_grows (H : s.WF) (hg : Grows s s') : s'.armedCount = s.armedCount := by
  have hsub : range s.fdContexts.length ⊆ range s'.fdContexts.length :=
    range_subset_range.mpr hg.length
  unfold armedCount
  rw [← sum_subset hsub]
  · refine sum_congr rfl fun i hi => ?_
    obtain ⟨p, hp, -, hf, -⟩ := H.entries i (mem_range.mp hi)
    have hc : s'.contexts p = s.contexts p := by
      rcases hg.contexts p with h | ⟨h, -⟩
      · exact h
      · omega
    simp only [armedAt, hp, hg.kept i p hp, hc]
  · intro i hi hi'
    obtain ⟨p, hp, -, -, hc⟩ := hg.entries i (by simpa using hi') (mem_range.mp hi)
    simp only [armedAt, hp, hc]
    decide

theorem EventInv.grows (H : s.EventInv) (hg : Grows s s')
    (hlen : s'.fdContexts.length < 2 ^ 32) : s'.EventInv where
  wf := H.wf.grows hg
  length := hlen
  sound p := by
    rcases hg.contexts p with h | ⟨-, fd, h⟩
    · rw [h]
      exact H.sound p
    · rw [h]
      exact sound_new fd
  count := by rw [hg.count, H.count, H.wf.armedCount_grows hg]
  fault := by rw [hg.fault, H.fault]

/-- Replacing the context of the descriptor `fd`. -/
theorem armedCount_setContext (H : s.WF) (hp : s.fdContexts[fd]? = some (some p)) :
    (s.setContext p c).armedCount + armed (s.contexts p).events =
      s.armedCount + armed c.events := by
  have hmem : fd ∈ range s.fdContexts.length := mem_range.mpr (List.getElem?_eq_some_iff.mp hp).1
  have hother : ∑ i ∈ (range s.fdContexts.length).erase fd, (s.setContext p c).armedAt i =
      ∑ i ∈ (range s.fdContexts.length).erase fd, s.armedAt i := by
    refine sum_congr rfl fun i hi => ?_
    obtain ⟨hne, hi⟩ := mem_erase.mp hi
    obtain ⟨q, hq, -, -, hfd⟩ := H.entries i (mem_range.mp hi)
    have hqp : q ≠ p := by
      rintro rfl
      exact hne (hfd.symm.trans (H.entry hp).2.2)
    simp [armedAt, setContext, hq, Function.update_of_ne hqp]
  have hnew : (s.setContext p c).armedAt fd = armed c.events := by simp [armedAt, setContext, hp]
  have hold : s.armedAt fd = armed (s.contexts p).events := by simp [armedAt, hp]
  have h1 := add_sum_erase _ (fun i => (s.setContext p c).armedAt i) hmem
  have h2 := add_sum_erase _ (fun i => s.armedAt i) hmem
  rw [hother, hnew] at h1
  rw [hold] at h2
  change (∑ i ∈ range s.fdContexts.length, (s.setContext p c).armedAt i) + _ =
    (∑ i ∈ range s.fdContexts.length, s.armedAt i) + _
  omega

/-- An operation that replaces the context of one descriptor and adjusts the counter. -/
theorem EventInv.setContext (H : s.EventInv) (hp : s.fdContexts[fd]? = some (some p))
    (hc : c.Sound) (hfd : c.fd = (s.contexts p).fd) {count : UInt64} {scheduled : List Task}
    (hcount : count.toNat + armed (s.contexts p).events =
      s.pendingEventCount.toNat + armed c.events) :
    EventInv { s.setContext p c with pendingEventCount := count, scheduled } := by
  have ht : Touches p s { s.setContext p c with pendingEventCount := count, scheduled } :=
    ⟨rfl, rfl, rfl, fun q hq => Function.update_of_ne hq .., by simp [IOManager.setContext, hfd]⟩
  refine ⟨H.wf.touches ht (by rw [(H.wf.entry hp).2.2, hp]), H.length, fun q => ?_, ?_, H.fault⟩
  · by_cases hq : q = p
    · subst hq
      simpa [IOManager.setContext] using hc
    · rw [ht.others q hq]
      exact H.sound q
  · have := armedCount_setContext (c := c) H.wf hp
    have := H.count
    change count.toNat = (s.setContext p c).armedCount
    omega

theorem EventInv.toNat_add_one (H : s.EventInv) :
    (s.pendingEventCount + 1).toNat = s.pendingEventCount.toNat + 1 := by
  have h1 := H.count
  have h2 := armedCount_le s
  have h3 := H.length
  rw [UInt64.toNat_add]
  exact Nat.mod_eq_of_lt (by
    change s.pendingEventCount.toNat + 1 < 2 ^ 64
    omega)

theorem EventInv.toNat_sub_one (H : s.EventInv) (hp : s.fdContexts[fd]? = some (some p))
    (h : armed (s.contexts p).events ≠ 0) :
    (s.pendingEventCount - 1).toNat + 1 = s.pendingEventCount.toNat := by
  have h1 := armedCount_setContext (c := { fd }) H.wf hp
  have h2 := H.count
  have h3 : armed ({ fd } : FdContext).events = 0 := by simp [armed]
  have h4 : 1 ≤ s.pendingEventCount := by
    rw [UInt64.le_iff_toNat_le]
    change 1 ≤ _
    omega
  rw [UInt64.toNat_sub_of_le _ _ h4]
  change s.pendingEventCount.toNat - 1 + 1 = _
  omega

/-! ## The operations -/

/-- The invariant holds, or a task was handed to a scheduler that does not exist: `addEvent` was
called outside any scheduler. -/
def Sane (s : IOManager) : Prop := s.EventInv ∨ s.fault = some .nullScheduler

theorem triggerEvent_fdContexts (s : IOManager) (p : Nat) (event : Event) :
    (s.triggerEvent p event).fdContexts = s.fdContexts := by
  unfold triggerEvent
  simp only
  split
  · rfl
  · split <;> rfl

/-- Triggering an armed event. -/
theorem EventInv.triggerEvent (H : s.EventInv) (hp : s.fdContexts[fd]? = some (some p))
    (h : (s.contexts p).events &&& event.bits ≠ 0) :
    (s.triggerEvent p event).Sane ∧
      ((s.triggerEvent p event).contexts p).events = (s.contexts p).events &&& ~~~event.bits := by
  have hsound := H.sound p
  have he := ne_none_of_armed h
  have harmed := armed_andNot hsound.mask h
  unfold IOManager.triggerEvent
  simp only [if_neg h]
  split
  · exact ⟨.inr rfl, by simp [fail, IOManager.setContext]⟩
  · refine ⟨.inl (H.setContext hp (hsound.disarm he ?_) (setEventContext_fd ..) ?_), ?_⟩
    · have hw := hsound.waiter event
      split
      · rename_i hcb
        exact ⟨rfl, hw.resolve_right (by simpa [Option.isSome_iff_ne_none] using hcb), rfl⟩
      · rename_i hcb
        exact ⟨rfl, rfl, by simpa using hcb⟩
    · have := H.toNat_sub_one hp (by omega)
      rw [setEventContext_events]
      change (s.pendingEventCount - 1).toNat + _ = _
      simp only
      omega
    · simp [IOManager.setContext]

/-- What `triggerIf` leaves armed. -/
def left (mask : Mask) (event : Event) (m : Mask) : Mask :=
  if mask &&& event.bits = 0 then m else m &&& ~~~event.bits

theorem left_and_other {mask : Mask} {event' : Event} (hm : m ∈ masks) (h : event' ≠ event)
    (h' : m &&& event'.bits ≠ 0) : left mask event m &&& event'.bits ≠ 0 := by
  unfold left
  split
  · exact h'
  · exact fun h0 => h' (andNot_and_other hm h h0)

theorem left_all (hm : m ∈ masks) : left (left m .READ m) .WRITE (left m .READ m) = 0 := by
  rcases mem_masks.mp hm with rfl | rfl | rfl | rfl <;> decide

theorem EventInv.triggerIf (H : s.EventInv) (hp : s.fdContexts[fd]? = some (some p)) (mask : Mask)
    (event : Event) (h : mask &&& event.bits ≠ 0 → (s.contexts p).events &&& event.bits ≠ 0) :
    (s.triggerIf p mask event).Sane ∧ (s.triggerIf p mask event).fdContexts = s.fdContexts ∧
      ((s.triggerIf p mask event).contexts p).events = left mask event (s.contexts p).events := by
  unfold IOManager.triggerIf left
  simp only [H.fault, Option.isSome_none, Bool.false_or, decide_eq_true_eq]
  split
  · exact ⟨.inl H, rfl, rfl⟩
  · rename_i hm
    obtain ⟨hs, he⟩ := H.triggerEvent hp (h hm)
    exact ⟨hs, triggerEvent_fdContexts .., he⟩

theorem triggerIf_of_fault (h : s.fault.isSome = true) (mask : Mask) :
    s.triggerIf p mask event = s := by
  simp [triggerIf, h]

theorem and_ne_zero_of_subset {mask b : Mask} (h : mask &&& ~~~m = 0) (hb : mask &&& b ≠ 0) :
    m &&& b ≠ 0 := by
  intro h0
  refine hb (BitVec.eq_of_getElem_eq fun i hi => ?_)
  have h1 := congrArg (fun x : Mask => x[i]) h
  have h2 := congrArg (fun x : Mask => x[i]) h0
  simp only [BitVec.getElem_and, BitVec.getElem_not, BitVec.ofNat_eq_ofNat, BitVec.getElem_zero]
    at h1 h2 ⊢
  grind

/-- Both events of a mask that asks for armed events only. -/
theorem EventInv.triggerBoth (H : s.EventInv) (hp : s.fdContexts[fd]? = some (some p)) {mask : Mask}
    (h : mask &&& ~~~(s.contexts p).events = 0) :
    ((s.triggerIf p mask .READ).triggerIf p mask .WRITE).Sane := by
  obtain ⟨H1 | hf, ht, he⟩ := H.triggerIf hp mask .READ (and_ne_zero_of_subset h)
  · refine (H1.triggerIf (ht ▸ hp) mask .WRITE fun hw => ?_).1
    rw [he]
    exact left_and_other (H.sound p).mask (by decide) (and_ne_zero_of_subset h hw)
  · rw [triggerIf_of_fault (by simp [hf])]
    exact .inr hf

/-- The section of `addEvent` under the context's lock. -/
theorem EventInv.armEvent (H : s.EventInv) (hp : s.fdContexts[fd]? = some (some p))
    (he : event ≠ .NONE) (cb caller ctlOk) : (s.armEvent p event cb caller ctlOk).2.EventInv := by
  have hsound := H.sound p
  unfold IOManager.armEvent
  simp only
  split
  · exact H
  rename_i h
  rw [Decidable.not_not] at h
  split
  · exact H
  obtain ⟨h1, h2, h3⟩ := hsound.unarmed event he h
  have harmed := armed_or hsound.mask he h
  have hctx : ((({ s.contexts p with events := (s.contexts p).events ||| event.bits } :
      FdContext).getEventContext event)) = (s.contexts p).getEventContext event := by
    cases event <;> rfl
  rw [if_neg (by simp [hctx, h1, h2, h3])]
  refine H.setContext hp (hsound.arm he ?_) (setEventContext_fd ..) ?_
  · split
    · exact .inl (by simp only [hctx, h2])
    · exact .inr (by simp only [hctx, h3])
  · rw [setEventContext_events]
    have := H.toNat_add_one
    simp only
    omega

theorem growSize_lt (h : fd < 2 ^ 31) : growSize fd < 2 ^ 32 := by
  unfold growSize
  omega

theorem lt_growSize (h : 64 ≤ growSize fd) : fd < growSize fd := by
  unfold growSize at *
  omega

theorem EventInv.reserve (H : s.EventInv) (hfd : fd < 2 ^ 31)
    (hg : s.intSize > fd ∨ s.fdContexts.length ≤ growSize fd) :
    (s.reserve fd).EventInv ∧ fd < (s.reserve fd).fdContexts.length := by
  unfold IOManager.reserve
  split
  · rename_i hsize
    exact ⟨H, lt_length_of_lt_intSize hsize⟩
  · rename_i hsize
    have hle := hg.resolve_left hsize
    obtain ⟨hgrow, hlen⟩ := fdContextsResize_grows hle
    rw [hlen]
    refine ⟨H.grows hgrow ?_, lt_growSize (Nat.le_trans H.wf.size hle)⟩
    rw [hlen]
    exact growSize_lt hfd

theorem EventInv.addEventAt (H : s.EventInv) (he : event ≠ .NONE)
    (hfd : fd < s.fdContexts.length) (cb caller ctlOk) :
    (s.addEventAt fd event cb caller ctlOk).2.EventInv := by
  obtain ⟨p, hp, hi⟩ := H.wf.lookup hfd
  unfold IOManager.addEventAt
  simp only [hp]
  exact H.armEvent hi he cb caller ctlOk

theorem EventInv.addEvent (H : s.EventInv) (he : event ≠ .NONE) (hfd : fd < 2 ^ 31)
    (hg : s.intSize > fd ∨ s.fdContexts.length ≤ growSize fd) (cb caller ctlOk) :
    (s.addEvent fd event cb caller ctlOk).2.EventInv := by
  obtain ⟨H', hlt⟩ := H.reserve hfd hg
  exact H'.addEventAt he hlt cb caller ctlOk

theorem EventInv.delEvent (H : s.EventInv) (fd event ctlOk) :
    (s.delEvent fd event ctlOk).2.EventInv := by
  unfold IOManager.delEvent
  split
  · exact H
  rename_i hsize
  obtain ⟨p, hp, hi⟩ := H.wf.lookup (lt_length_of_lt_intSize (Int.not_le.mp hsize))
  simp only [hp]
  split
  · exact H
  rename_i h
  split
  · exact H
  have harmed := armed_andNot (H.sound p).mask h
  refine H.setContext hi ((H.sound p).disarm (ne_none_of_armed h) ⟨rfl, rfl, rfl⟩)
    (setEventContext_fd ..) ?_
  rw [setEventContext_events]
  have := H.toNat_sub_one hi (by omega)
  simp only
  omega

theorem EventInv.cancelEvent (H : s.EventInv) (fd event ctlOk) :
    (s.cancelEvent fd event ctlOk).2.Sane := by
  unfold IOManager.cancelEvent
  split
  · exact .inl H
  rename_i hsize
  obtain ⟨p, hp, hi⟩ := H.wf.lookup (lt_length_of_lt_intSize (Int.not_le.mp hsize))
  simp only [hp]
  split
  · exact .inl H
  rename_i h
  split
  · exact .inl H
  · exact (H.triggerEvent hi h).1

theorem EventInv.cancelAllEvent (H : s.EventInv) (fd ctlOk) :
    (s.cancelAllEvent fd ctlOk).2.Sane := by
  unfold IOManager.cancelAllEvent
  split
  · exact .inl H
  rename_i hsize
  obtain ⟨p, hp, hi⟩ := H.wf.lookup (lt_length_of_lt_intSize (Int.not_le.mp hsize))
  simp only [hp]
  split
  · exact .inl H
  split
  · exact .inl H
  obtain ⟨H1 | hf, ht, he⟩ := H.triggerIf hi (s.contexts p).events .READ id
  · obtain ⟨H2, -, he'⟩ := H1.triggerIf (ht ▸ hi)
      ((s.triggerIf p (s.contexts p).events .READ).contexts p).events .WRITE id
    rw [he, left_all (H.sound p).mask, ← he] at he'
    rw [if_pos (by simp [he'])]
    exact H2
  · rw [triggerIf_of_fault (by simp [hf]), if_pos (by simp [hf])]
    exact .inr hf

theorem EventInv.dispatch (H : s.EventInv) (hp : s.fdContexts[fd]? = some (some p))
    {reported : Mask} {ctlOk : Bool} (h : ctlOk = false ∨
      (s.contexts p).events &&& realEvent reported = 0 ∨
      realEvent reported &&& ~~~(s.contexts p).events = 0) :
    (s.dispatch p reported ctlOk).Sane := by
  unfold IOManager.dispatch
  simp only
  split
  · exact .inl H
  rename_i hreal
  split
  · exact .inl H
  rename_i hctl
  rcases h with rfl | h | h
  · exact absurd rfl hctl
  · exact absurd h hreal
  · exact H.triggerBoth hp h

/-! ## Histories -/

/-- An operation with the result of its `epoll_ctl`, or the report of a descriptor's context. -/
inductive EventStep where
  | addEvent (fd : Nat) (event : Event) (cb : Option CbId) (caller : Caller) (ctlOk : Bool)
  | delEvent (fd : Nat) (event : Event) (ctlOk : Bool)
  | cancelEvent (fd : Nat) (event : Event) (ctlOk : Bool)
  | cancelAllEvent (fd : Nat) (ctlOk : Bool)
  | report (fd : Nat) (reported : Mask) (ctlOk : Bool)

def EventStep.ctlOk : EventStep → Bool
  | .addEvent _ _ _ _ ok | .delEvent _ _ ok | .cancelEvent _ _ ok | .cancelAllEvent _ ok
  | .report _ _ ok => ok

/-- A descriptor is a non-negative `int`. -/
def step (s : IOManager) (a : EventStep) : Option IOManager :=
  if s.fault.isSome then none
  else
    match a with
    | .addEvent fd event cb caller ctlOk =>
      if fd < 2 ^ 31 then some (s.addEvent fd event cb caller ctlOk).2 else none
    | .delEvent fd event ctlOk => some (s.delEvent fd event ctlOk).2
    | .cancelEvent fd event ctlOk => some (s.cancelEvent fd event ctlOk).2
    | .cancelAllEvent fd ctlOk => some (s.cancelAllEvent fd ctlOk).2
    | .report fd reported ctlOk =>
      match s.lookup fd with
      | .ok p => some (s.dispatch p reported ctlOk)
      | .error _ => none

/-- A report asks for armed events only, or for none, unless `epoll_ctl` fails; `addEvent` is
called for an event, and does not shrink the table. -/
def Exact (s : IOManager) : EventStep → Prop
  | .addEvent fd event _ _ _ => event ≠ .NONE ∧
      (s.intSize > fd ∨ s.fdContexts.length ≤ growSize fd)
  | .report fd reported ctlOk => ctlOk = false ∨ ∀ e ∈ s.fdContexts[fd]?, ∀ p ∈ e,
      (s.contexts p).events &&& realEvent reported = 0 ∨
        realEvent reported &&& ~~~(s.contexts p).events = 0
  | _ => True

theorem lookup_ok (h : s.lookup fd = .ok p) : s.fdContexts[fd]? = some (some p) := by
  unfold lookup at h
  split at h
  · cases h
  · cases h
  · cases h
    assumption

instance (s : IOManager) (a : EventStep) : Decidable (s.Exact a) := by
  unfold Exact
  split <;> infer_instance

theorem EventInv.step {a : EventStep} (H : s.EventInv) (hG : s.Exact a) (h : s.step a = some s') :
    s'.Sane := by
  unfold IOManager.step at h
  rw [if_neg (by simp [H.fault])] at h
  cases a with
  | addEvent fd event cb caller ctlOk =>
    simp only at h
    split at h
    · cases h
      exact .inl (H.addEvent hG.1 ‹_› hG.2 cb caller ctlOk)
    · cases h
  | delEvent fd event ctlOk =>
    cases h
    exact .inl (H.delEvent fd event ctlOk)
  | cancelEvent fd event ctlOk =>
    cases h
    exact H.cancelEvent fd event ctlOk
  | cancelAllEvent fd ctlOk =>
    cases h
    exact H.cancelAllEvent fd ctlOk
  | report fd reported ctlOk =>
    simp only at h
    split at h
    · rename_i p hp
      cases h
      have hi := lookup_ok hp
      exact H.dispatch hi (hG.imp_right fun hG => hG _ hi p rfl)
    · cases h

theorem Sane.step {a : EventStep} (H : s.Sane) (hG : s.Exact a) (h : s.step a = some s') :
    s'.Sane := by
  rcases H with H | hf
  · exact H.step hG h
  · simp [IOManager.step, hf] at h

theorem init_eventInv : init.EventInv := by
  obtain ⟨hg, hlen⟩ := init_grows
  have hc : ∀ p, (init.contexts p).Sound := by
    intro p
    rcases hg.contexts p with h | ⟨-, fd, h⟩
    · rw [h]
      exact sound_new 0
    · rw [h]
      exact sound_new fd
  refine ⟨init_wf, by omega, hc, ?_, hg.fault⟩
  rw [hg.count]
  refine (sum_eq_zero fun i hi => ?_).symm
  obtain ⟨p, hp, -, -, h⟩ := hg.entries i (Nat.zero_le i) (mem_range.mp hi)
  simp only [armedAt, hp, h]
  decide

/-- The masks and the counter are unchanged. -/
def SameEvents (s s' : IOManager) : Prop :=
  s'.pendingEventCount = s.pendingEventCount ∧
    ∀ p, (s'.contexts p).events = (s.contexts p).events

theorem WF.sameEvents_grows (H : s.WF) (hg : Grows s s') : SameEvents s s' := by
  refine ⟨hg.count, fun p => ?_⟩
  rcases hg.contexts p with h | ⟨hp, fd, h⟩
  · rw [h]
  · have : (s.contexts p).events = 0 := by
      refine Decidable.byContradiction fun h0 => ?_
      have := (H.entry (H.armed p h0)).2.1
      omega
    rw [h, this]

theorem addEventAt_of_ctl_failed (s : IOManager) (fd event cb caller) :
    SameEvents s (s.addEventAt fd event cb caller false).2 := by
  unfold addEventAt
  split
  · exact ⟨rfl, fun _ => rfl⟩
  · unfold armEvent
    simp only [Bool.not_false, if_true]
    split <;> exact ⟨rfl, fun _ => rfl⟩

theorem EventInv.reserve_sameEvents (H : s.EventInv)
    (hg : s.intSize > fd ∨ s.fdContexts.length ≤ growSize fd) : SameEvents s (s.reserve fd) := by
  unfold IOManager.reserve
  split
  · exact ⟨rfl, fun _ => rfl⟩
  · exact H.wf.sameEvents_grows (fdContextsResize_grows (hg.resolve_left ‹_›)).1

/-- A failed `epoll_ctl` changes no mask and not the counter. -/
theorem EventInv.ctl_failed {a : EventStep} (H : s.EventInv) (hG : s.Exact a)
    (h : s.step a = some s') (hctl : a.ctlOk = false) : SameEvents s s' := by
  unfold IOManager.step at h
  rw [if_neg (by simp [H.fault])] at h
  cases a with
  | addEvent fd event cb caller ctlOk =>
    cases hctl
    simp only at h
    split at h
    · cases h
      have h1 := H.reserve_sameEvents hG.2
      have h2 := addEventAt_of_ctl_failed (s.reserve fd) fd event cb caller
      exact ⟨h2.1.trans h1.1, fun p => (h2.2 p).trans (h1.2 p)⟩
    · cases h
  | delEvent fd event ctlOk =>
    cases hctl
    cases h
    unfold IOManager.delEvent
    split
    · exact ⟨rfl, fun _ => rfl⟩
    · split
      · exact ⟨rfl, fun _ => rfl⟩
      · simp only [Bool.not_false, if_true]
        split <;> exact ⟨rfl, fun _ => rfl⟩
  | cancelEvent fd event ctlOk =>
    cases hctl
    cases h
    unfold IOManager.cancelEvent
    split
    · exact ⟨rfl, fun _ => rfl⟩
    · split
      · exact ⟨rfl, fun _ => rfl⟩
      · simp only [Bool.not_false, if_true]
        split <;> exact ⟨rfl, fun _ => rfl⟩
  | cancelAllEvent fd ctlOk =>
    cases hctl
    cases h
    unfold IOManager.cancelAllEvent
    split
    · exact ⟨rfl, fun _ => rfl⟩
    · split
      · exact ⟨rfl, fun _ => rfl⟩
      · simp only [Bool.not_false, if_true]
        split <;> exact ⟨rfl, fun _ => rfl⟩
  | report fd reported ctlOk =>
    cases hctl
    simp only at h
    split at h
    · cases h
      unfold IOManager.dispatch
      simp only [Bool.not_false, if_true]
      split <;> exact ⟨rfl, fun _ => rfl⟩
    · cases h

/-- **Event accounting** in every history whose reports are exact: `triggerEvent` is reached for
armed events only, the counter is the number of armed events, and a failed `epoll_ctl` changes
neither. -/
theorem eventAccounting (h : Reach step Exact init s) :
    s.fault ≠ some .triggerUnarmed ∧
      (s.fault = none → s.pendingEventCount.toNat = s.armedCount) ∧
      ∀ a s', s.Exact a → s.step a = some s' → a.ctlOk = false → SameEvents s s' := by
  have H : s.Sane := Reach.inv h (.inl init_eventInv) fun H hG hs => H.step hG hs
  rcases H with H | hf
  · exact ⟨by simp [H.fault], fun _ => H.count, fun a s' hG hs hc => H.ctl_failed hG hs hc⟩
  · refine ⟨by simp [hf], by simp [hf], fun a s' _ hs => ?_⟩
    simp [IOManager.step, hf] at hs

/-- A coroutine that waits for `READ` on descriptor 5, and its peer hanging up. -/
def hangUp : List EventStep :=
  [.addEvent 5 .READ none ⟨some 0, 7, 1⟩ true, .report 5 EPOLLHUP true]

/-- `EPOLLHUP` is widened to both events, and `WRITE` is not armed. -/
theorem report_triggers_unarmed :
    ∃ s, Reach step Always init s ∧ s.fault = some .triggerUnarmed := by
  obtain ⟨s, hs, h⟩ := Reach.of_any step Always init hangUp
    (fun s => s.fault = some .triggerUnarmed) (by decide +kernel)
  exact ⟨s, hs, of_decide_eq_true h⟩

/-- The same wait ended by `EPOLLIN`. -/
theorem eventAccounting_read : ∃ s, Reach step Exact init s ∧ s.scheduled ≠ [] ∧
    s.fault ≠ some .triggerUnarmed := by
  obtain ⟨s, hs, h⟩ := Reach.of_any step Exact init
    [.addEvent 5 .READ none ⟨some 0, 7, 1⟩ true, .report 5 EPOLLIN true]
    (fun s => s.scheduled ≠ []) (by decide +kernel)
  exact ⟨s, hs, of_decide_eq_true h, (eventAccounting hs).1⟩

end Tigerkin.IOManager
