import Tigerkin.Coroutine.Coherence

/-! # Refused operations

`yield` of a coroutine that is not on top of its stack does nothing. `resume` pushes the coroutine
before it looks at its state, so that a refused `resume` does nothing only where the coroutine is on
top already, or where its stack does not exist (`refused_resume_iff`). In runs in which refused
operations do nothing, no coroutine is twice on the stacks, and one that ends pops itself
(`refused_operations`). -/

namespace Tigerkin.CoThread

/-- What the code does with coroutines, with `reset` and `Resume(stackId)`. -/
inductive Op where
  | step (a : Step)
  | reset (c : CoId)
  | resumeStack (stackId : Nat)

/-- `Coroutine::reset`; its assertions end the process. -/
def reset (s : CoThread) (c : CoId) : Option CoThread :=
  if c = s.main then none
  else if (s.cos c).state = .INIT || s.finished c then
    some (s.modify c fun x => { x with ctx := c, link := none, state := .INIT })
  else none

/-- `Coroutine::Resume(stackId)`; a stack is never empty. -/
def resumeStack (s : CoThread) (stackId : Nat) : Option CoThread :=
  match s.coStacks stackId with
  | none =>
    if (s.cos s.main).state = .EXECING then some s
    else some ((s.setState s.main .EXECING).setcontext s.main)
  | some [] => none
  | some (top :: _) => s.resume top

def op (s : CoThread) : Op → Option CoThread
  | .step a => s.step a
  | .reset c => s.reset c
  | .resumeStack stackId => s.resumeStack stackId

/-- The stacks, the states and `t_cur_co` are the same. -/
structure Unchanged (s s' : CoThread) : Prop where
  coStacks : s'.coStacks = s.coStacks
  state : ∀ x, (s'.cos x).state = (s.cos x).state
  cur : s'.cur = s.cur

/-- The coroutines that `resume` is to refuse: those that have finished, run, or are in a stack but
not on top of it. -/
def Refused (s : CoThread) (c : CoId) : Prop :=
  s.finished c = true ∨ (s.cos c).state = .EXECING ∨
    ∃ id l, s.coStacks id = some l ∧ c ∈ l ∧ l.head? ≠ some c

/-- The coroutine is resumed on a stack that does not exist, or has it on top. -/
def InPlace (s : CoThread) (c : CoId) : Prop :=
  (0 < (s.cos c).stackId ∨ (s.cos s.cur).state = .EXECING ∧ s.cur ≠ s.main) ∧
    ∀ l, s.coStacks (s.resumeStackId c) = some l → l.head? = some c

variable {s s' : CoThread} {c : CoId}

/-! ## What every run keeps -/

/-- A coroutine in a stack has the id of this stack, and one that has been resumed has an id. -/
structure Placed (s : CoThread) : Prop where
  coStacks : ∀ id l, s.coStacks id = some l →
    0 < id ∧ id ≤ s.lastStackId ∧ l ≠ [] ∧ ∀ c ∈ l, (s.cos c).stackId = id
  started : ∀ c, c ≠ s.main → (s.cos c).state ≠ .INIT → 0 < (s.cos c).stackId
  cur : s.cur ≠ s.main → 0 < (s.cos s.cur).stackId

/-- A step that leaves the stacks alone. -/
theorem Placed.congr (H : s.Placed) (hmain : s'.main = s.main) (hstacks : s'.coStacks = s.coStacks)
    (hlast : s'.lastStackId = s.lastStackId)
    (hid : ∀ x, (s'.cos x).stackId = (s.cos x).stackId)
    (hstarted : ∀ x, x ≠ s.main → (s'.cos x).state ≠ .INIT → 0 < (s.cos x).stackId)
    (hcur : s'.cur ≠ s.main → 0 < (s.cos s'.cur).stackId) : s'.Placed where
  coStacks id l hl := by
    rw [hstacks] at hl
    simp only [hid, hlast]
    exact H.coStacks id l hl
  started x hx h := by
    rw [hmain] at hx
    rw [hid]
    exact hstarted x hx h
  cur h := by
    rw [hmain] at h
    rw [hid]
    exact hcur h

theorem Placed.mem_stackId (H : s.Placed) {id : Nat} {l : List CoId}
    (hl : s.coStacks id = some l) (hc : c ∈ l) : (s.cos c).stackId = id :=
  (H.coStacks id l hl).2.2.2 c hc

theorem swapcontext_cos (s : CoThread) (save load x : CoId) :
    ((s.swapcontext save load).cos x).state = (s.cos x).state ∧
      ((s.swapcontext save load).cos x).stackId = (s.cos x).stackId := by
  simp only [swapcontext, modify_cos]
  grind

theorem leave_cos (s : CoThread) (r save x : CoId) :
    ((s.leave r save c).cos x).state = (if x = r then .YIELD else (s.cos x).state) ∧
      ((s.leave r save c).cos x).stackId = (s.cos x).stackId := by
  obtain ⟨h1, h2⟩ := swapcontext_cos { s.setState r .YIELD with cur := c } save c x
  unfold leave
  rw [h1, h2]
  simp only [setState_cos]
  grind

theorem start_cos (s : CoThread) (r x : CoId) :
    ((s.start r c).cos x).state =
        (if x = c then .EXECING else if x = r then .YIELD else (s.cos x).state) ∧
      ((s.start r c).cos x).stackId = (s.cos x).stackId := by
  obtain ⟨h1, h2⟩ := swapcontext_cos
    ({ s.setState r .YIELD with cur := c }.setState c .EXECING) r c x
  unfold start
  rw [h1, h2]
  simp only [setState_cos]
  grind

theorem newStack_cos (s : CoThread) (c x : CoId) :
    ((s.newStack c).cos x).state = (s.cos x).state ∧ ((s.newStack c).cos x).stackId =
      if x = c then s.lastStackId + 1 else (s.cos x).stackId := by
  simp only [newStack, setStack, modify_cos]
  grind

/-- The switch of `resume` to a coroutine changes no stack. -/
theorem switchTo_rest (h : s.switchTo c = some s') :
    s'.coStacks = s.coStacks ∧ s'.main = s.main ∧ s'.lastStackId = s.lastStackId ∧ s'.cur = c ∧
      ∀ x, (s'.cos x).stackId = (s.cos x).stackId ∧
        (x ≠ c → x ≠ s.cur → x ≠ s.main → (s'.cos x).state = (s.cos x).state) := by
  have hcos : ∀ x, ((s.setState c .EXECING).cos x).stackId = (s.cos x).stackId ∧
      (x ≠ c → ((s.setState c .EXECING).cos x).state = (s.cos x).state) := by
    intro x
    rw [setState_cos]
    grind
  simp only [switchTo] at h
  split at h
  · cases h
    refine ⟨rfl, rfl, rfl, rfl, fun x => ?_⟩
    obtain ⟨h1, h2⟩ := leave_cos (c := c) (s.setState c .EXECING) s.main s.main x
    refine ⟨h2.trans (hcos x).1, fun hxc _ hxm => ?_⟩
    exact h1.trans ((if_neg hxm).trans ((hcos x).2 hxc))
  · obtain ⟨l, -, rfl⟩ := Option.map_eq_some_iff.mp h
    refine ⟨rfl, rfl, rfl, rfl, fun x => ?_⟩
    obtain ⟨h1, h2⟩ := leave_cos (c := c) (s.setState c .EXECING) s.cur l x
    refine ⟨h2.trans (hcos x).1, fun hxc hxcur _ => ?_⟩
    exact h1.trans ((if_neg hxcur).trans ((hcos x).2 hxc))

theorem Placed.resumeStackId_pos (H : s.Placed)
    (h : 0 < (s.cos c).stackId ∨ (s.cos s.cur).state = .EXECING ∧ s.cur ≠ s.main) :
    0 < s.resumeStackId c := by
  unfold resumeStackId
  split
  · assumption
  · exact H.cur (h.resolve_left ‹_›).2

theorem enter_cos_stackId (s : CoThread) (c x : CoId) :
    ((s.enter c).cos x).stackId = if x = c then s.resumeStackId c else (s.cos x).stackId := by
  rw [enter_cos]
  split <;> rfl

theorem Placed.enter (H : s.Placed) (hpos : 0 < s.resumeStackId c) : (s.enter c).Placed where
  coStacks id l hl := by
    obtain ⟨h1, h2, h3, h4⟩ := H.coStacks id l hl
    refine ⟨h1, h2, h3, fun x hx => ?_⟩
    have := h4 x hx
    rw [enter_cos_stackId]
    unfold resumeStackId
    grind
  started x hx h := by
    rw [enter_state] at h
    have := H.started x hx h
    rw [enter_cos_stackId]
    split <;> assumption
  cur h := by
    have := H.cur h
    change 0 < ((s.enter c).cos s.cur).stackId
    rw [enter_cos_stackId]
    split <;> assumption

theorem Placed.push (H : s.Placed) {l : List CoId} (hl : s.coStacks (s.cos c).stackId = some l) :
    (s.push c l).Placed := by
  cases l with
  | nil => exact H
  | cons top l =>
    by_cases htop : top = c
    · subst htop
      rw [push_self]
      exact H
    obtain ⟨hpos, hle, -, hids⟩ := H.coStacks _ _ hl
    have hcos := fun x => push_cos (s := s) htop l x
    obtain ⟨hcur, -, hmain, -⟩ := push_rest s c (top :: l)
    refine ⟨fun id l' hl' => ?_, fun x hx h => ?_, fun h => ?_⟩
    · simp only [(hcos _).2.1, push_lastStackId]
      rw [push_stacks htop, Function.update_apply] at hl'
      split at hl'
      · rename_i hid
        cases hl'
        subst hid
        refine ⟨hpos, hle, by simp, fun x hx => ?_⟩
        rcases List.mem_cons.mp hx with rfl | hx
        · rfl
        · exact hids x hx
      · exact H.coStacks id l' hl'
    · rw [hmain] at hx
      rw [(hcos x).1] at h
      rw [(hcos x).2.1]
      have h1 := H.started x hx
      have h2 := hids top List.mem_cons_self
      grind
    · rw [hcur, hmain] at h
      rw [hcur, (hcos _).2.1]
      exact H.cur h

theorem Placed.switchTo (H : s.Placed) (hpos : 0 < (s.cos c).stackId)
    (h : s.switchTo c = some s') : s'.Placed := by
  obtain ⟨hstacks, hmain, hlast, hcur, hcos⟩ := switchTo_rest h
  refine H.congr hmain hstacks hlast (fun x => (hcos x).1) (fun x hx hst => ?_) fun _ => ?_
  · have h1 := H.started x hx
    have h2 := H.cur
    have h3 := (hcos x).2
    grind
  · rwa [hcur]

/-- How `resume` comes out on a stack that exists already. -/
theorem resumeOnStack_cases (h : s.resumeOnStack c = some s') :
    s.coStacks (s.resumeStackId c) = none ∧ s' = s.enter c ∨
      ∃ l, s.coStacks (s.resumeStackId c) = some l ∧
        (s' = (s.enter c).push c l ∧ ((((s.enter c).push c l).cos c).state = .EXECING ∨
            ((s.enter c).push c l).finished c = true) ∨
          ((s.enter c).push c l).switchTo c = some s' ∧
            (((s.enter c).push c l).cos c).state ≠ .EXECING ∧
            ((s.enter c).push c l).finished c = false) := by
  cases hl : s.coStacks (s.resumeStackId c) with
  | none =>
    rw [resumeOnStack_none hl] at h
    exact .inl ⟨rfl, (Option.some.inj h).symm⟩
  | some l =>
    rw [resumeOnStack_some hl] at h
    refine .inr ⟨l, rfl, ?_⟩
    split at h
    · rename_i href
      exact .inl ⟨(Option.some.inj h).symm, by simpa using href⟩
    · rename_i href
      exact .inr ⟨h, by simpa using href⟩

theorem Placed.resumeOnStack (H : s.Placed) (hpos : 0 < s.resumeStackId c)
    (h : s.resumeOnStack c = some s') : s'.Placed := by
  rcases resumeOnStack_cases h with ⟨-, rfl⟩ | ⟨l, hl, h⟩
  · exact H.enter hpos
  · have hl' : (s.enter c).coStacks ((s.enter c).cos c).stackId = some l := by
      rw [enter_stackId]
      exact hl
    have Hp := (H.enter hpos).push hl'
    rcases h with ⟨rfl, -⟩ | ⟨h, -⟩
    · exact Hp
    · refine Hp.switchTo ?_ h
      cases l with
      | nil => exact absurd rfl (H.coStacks _ _ hl).2.2.1
      | cons top l =>
        rw [(enter_push_cos s c top l c).2.2.2, if_pos rfl]
        exact hpos

/-- A stack of its own for a coroutine without an id, and the switch to it. -/
theorem Placed.newStack (H : s.Placed) (hc : (s.cos c).stackId = 0) {r : CoId}
    (hr : r ≠ s.main → 0 < (s.cos r).stackId) : ((s.newStack c).start r c).Placed := by
  have hcos : ∀ x, (((s.newStack c).start r c).cos x).stackId =
      (if x = c then s.lastStackId + 1 else (s.cos x).stackId) ∧
      (x ≠ c → x ≠ r → (((s.newStack c).start r c).cos x).state = (s.cos x).state) := by
    intro x
    obtain ⟨h1, h2⟩ := start_cos (c := c) (s.newStack c) r x
    obtain ⟨h3, h4⟩ := newStack_cos s c x
    refine ⟨h2.trans h4, fun hxc hxr => ?_⟩
    rw [h1, if_neg hxc, if_neg hxr, h3]
  refine ⟨fun id l hl => ?_, fun x hx h => ?_, fun _ => ?_⟩
  · change Function.update s.coStacks (s.lastStackId + 1) (some [c]) id = some l at hl
    change 0 < id ∧ id ≤ s.lastStackId + 1 ∧ _
    rw [Function.update_apply] at hl
    split at hl
    · cases hl
      refine ⟨by omega, by omega, by simp, fun x hx => ?_⟩
      rw [List.mem_singleton.mp hx, (hcos c).1, if_pos rfl]
      exact Eq.symm ‹_›
    · obtain ⟨h1, h2, h3, h4⟩ := H.coStacks id l hl
      refine ⟨h1, by omega, h3, fun x hx => ?_⟩
      have := h4 x hx
      rw [(hcos x).1, if_neg, this]
      rintro rfl
      omega
  · have hx : x ≠ s.main := hx
    have h1 := H.started x hx
    have h2 := (hcos x).2
    rw [(hcos x).1]
    grind
  · change 0 < (((s.newStack c).start r c).cos c).stackId
    rw [(hcos c).1, if_pos rfl]
    omega

theorem Placed.resume (H : s.Placed) (h : s.resume c = some s') : s'.Placed := by
  unfold CoThread.resume at h
  split at h
  · exact H.resumeOnStack (H.resumeStackId_pos ‹_›) h
  · cases h
    exact H.newStack (by grind) fun h => absurd rfl h

theorem yieldTo_cos (s : CoThread) (c next x : CoId) :
    ((s.yieldTo c next).cos x).stackId = (s.cos x).stackId ∧ (x ≠ next →
      ((s.yieldTo c next).cos x).state =
        if x = c ∧ (s.cos c).state = .EXECING then .YIELD else (s.cos x).state) := by
  obtain ⟨h1, h2⟩ := swapcontext_cos (({ s with cur := next }.setState c
    (if (s.cos c).state = Coroutine.State.EXECING then .YIELD else (s.cos c).state)).setState next
      .EXECING) c next x
  unfold yieldTo
  dsimp only
  rw [h1, h2]
  simp only [setState_cos]
  grind

theorem Placed.yield (H : s.Placed) : (s.yield c).Placed := by
  rcases yield_eq s c with ⟨h, -⟩ | ⟨h, l, hl⟩
  · rwa [h]
  rw [h]
  have hbase : s.base ≠ s.main → 0 < (s.cos s.base).stackId := by
    intro hb
    refine H.started _ hb ?_
    rw [s.base_cases.resolve_left hb]
    decide
  have hcos := yieldTo_cos s c s.base
  refine H.congr rfl rfl rfl (fun x => (hcos x).1) (fun x hx hst => ?_) hbase
  have h1 := H.started x hx
  have h2 := (hcos x).2
  grind

theorem endTo_cos (st : Coroutine.State) (s : CoThread) (l : Option (List CoId)) (next x : CoId) :
    ((s.endTo st l next).cos x).stackId = (s.cos x).stackId ∧ (x ≠ next →
      ((s.endTo st l next).cos x).state = if x = s.running then st else (s.cos x).state) := by
  simp only [endTo, setcontext, setState, modify_cos, setStack]
  grind

/-- The end of a coroutine pops its stack, and goes on with the next one of it, or with the base. -/
theorem finish_cases {except : Bool} (h : s.finish except = some s') :
    s.running ≠ s.main ∧ ∃ st top l next, st ≠ .EXECING ∧ st ≠ .YIELD ∧
      s.coStacks (s.cos s.running).stackId = some (top :: l) ∧
      s' = s.endTo st (if l = [] then none else some l) next ∧
      (l ≠ [] ∧ l.head? = some next ∨
        l = [] ∧ (next = s.main ∨
          s.caller = some next ∧ next ≠ s.running ∧ (s.cos next).state = .YIELD)) := by
  unfold finish at h
  simp only [Option.ite_none_left_eq_some] at h
  obtain ⟨hrun, h⟩ := h
  refine ⟨hrun, ?_⟩
  have hst : ∀ st, st = (if except then Coroutine.State.EXCEPT else .TERMINAL) →
      st ≠ .EXECING ∧ st ≠ .YIELD := by
    cases except <;> simp
  generalize (if except then Coroutine.State.EXCEPT else .TERMINAL) = st at h hst
  obtain ⟨hne, hny⟩ := hst st rfl
  have hid : ((s.setState s.running st).cos s.running).stackId = (s.cos s.running).stackId := by
    rw [setState_cos, if_pos rfl]
  rw [hid] at h
  split at h
  · rename_i top hl
    let s₁ := (s.setState s.running st).setStack (s.cos s.running).stackId none
    refine ⟨st, top, [], s₁.base, hne, hny, hl, (Option.some.inj h).symm, .inr ⟨rfl, ?_⟩⟩
    have hcos : ∀ x, (s₁.cos x).state = if x = s.running then st else (s.cos x).state := fun x => by
      change ((s.setState s.running st).cos x).state = _
      rw [setState_cos]
      split <;> rfl
    by_cases hm : s₁.base = s.main
    · exact .inl hm
    · obtain ⟨hc, hy⟩ := base_caller (s := s₁) hm
      rw [hcos] at hy
      exact .inr ⟨hc, by grind⟩
  · rename_i top next l hl
    exact ⟨st, top, next :: l, next, hne, hny, hl, (Option.some.inj h).symm, .inl ⟨by simp, rfl⟩⟩
  · cases h

theorem Placed.finish (H : s.Placed) {except : Bool} (h : s.finish except = some s') :
    s'.Placed := by
  obtain ⟨hrun, st, top, l, next, hne, hny, hl, rfl, hnext⟩ := finish_cases h
  obtain ⟨h1, h2, -, h4⟩ := H.coStacks _ _ hl
  have hcos := endTo_cos st s (if l = [] then none else some l) next
  have hpos : next ≠ s.main → 0 < (s.cos next).stackId := by
    intro hm
    rcases hnext with ⟨-, hhead⟩ | ⟨-, hmain | ⟨-, -, hy⟩⟩
    · rwa [h4 next (List.mem_cons_of_mem _ (List.mem_of_head? hhead))]
    · exact absurd hmain hm
    · exact H.started next hm (by rw [hy]; decide)
  refine ⟨fun id l' hl' => ?_, fun x hx hst => ?_, fun hm => ?_⟩
  · change Function.update s.coStacks _ _ id = some l' at hl'
    change 0 < id ∧ id ≤ s.lastStackId ∧ _
    simp only [(hcos _).1]
    rw [Function.update_apply] at hl'
    split at hl'
    · rename_i hid
      split at hl'
      · cases hl'
      · cases hl'
        exact ⟨hid ▸ h1, hid ▸ h2, ‹_›, fun x hx => hid ▸ h4 x (List.mem_cons_of_mem _ hx)⟩
    · exact H.coStacks id l' hl'
  · have hx : x ≠ s.main := hx
    have h5 := H.started x hx
    have h6 := (hcos x).2
    rw [(hcos x).1]
    grind
  · change 0 < ((s.endTo st (if l = [] then none else some l) next).cos next).stackId
    rw [(hcos next).1]
    exact hpos hm

theorem Placed.resumeWithNewStack (H : s.Placed) : (s.resumeWithNewStack c).Placed := by
  unfold CoThread.resumeWithNewStack
  split
  · exact H
  · have H' := H.newStack (c := c) (by omega) H.cur
    exact { H' with }

theorem reset_cases (h : s.reset c = some s') :
    c ≠ s.main ∧ ((s.cos c).state = .INIT ∨ s.finished c = true) ∧
      s' = s.modify c fun x => { x with ctx := c, link := none, state := .INIT } := by
  unfold reset at h
  split at h
  · cases h
  · split at h
    · rename_i hc hst
      exact ⟨hc, by simpa using hst, (Option.some.inj h).symm⟩
    · cases h

theorem Placed.reset (H : s.Placed) (h : s.reset c = some s') : s'.Placed := by
  obtain ⟨-, -, rfl⟩ := reset_cases h
  refine H.congr rfl rfl rfl (fun x => ?_) (fun x hx hst => ?_) H.cur
  · rw [modify_cos]
    split <;> simp_all
  · have := H.started x hx
    rw [modify_cos] at hst
    grind

theorem Placed.resumeStack (H : s.Placed) {stackId : Nat} (h : s.resumeStack stackId = some s') :
    s'.Placed := by
  unfold CoThread.resumeStack at h
  split at h
  · split at h
    · cases h
      exact H
    · cases h
      refine H.congr rfl rfl rfl (fun x => ?_) (fun x hx hst => ?_) H.cur
      · change ((s.setState s.main .EXECING).cos x).stackId = _
        rw [setState_cos]
        split <;> simp_all
      · change ((s.setState s.main .EXECING).cos x).state ≠ _ at hst
        rw [setState_cos, if_neg hx] at hst
        exact H.started x hx hst
  · cases h
  · exact H.resume h

theorem Placed.op {a : Op} (H : s.Placed) (h : s.op a = some s') : s'.Placed := by
  cases a with
  | step a =>
    cases a with
    | resume c => exact H.resume h
    | resumeWithNewStack c =>
      cases h
      exact H.resumeWithNewStack
    | yield c =>
      cases h
      exact H.yield
    | finish except => exact H.finish h
    | setCallerCo c =>
      cases h
      exact { H with }
    | delCallerCo =>
      cases h
      exact { H with }
  | reset c => exact H.reset h
  | resumeStack stackId => exact H.resumeStack h

theorem init_placed (threadId : ThreadId) (main : CoId) : (init threadId main).Placed where
  coStacks id l hl := by simp [init] at hl
  started c hc h := by
    simp only [init] at h hc
    grind
  cur h := absurd rfl h

/-! ## Refusal -/

/-- A coroutine that is to be refused, and is on top of its stack, runs or has finished. -/
theorem Placed.refused_top (H : s.Placed) (hr : s.Refused c) {l : List CoId}
    (hl : s.coStacks (s.resumeStackId c) = some (c :: l)) :
    (s.cos c).state = .EXECING ∨ s.finished c = true := by
  rcases hr with hr | hr | ⟨id, l', hl', hc, hne⟩
  · exact .inr hr
  · exact .inl hr
  · have hid := H.mem_stackId hl' hc
    have hpos := (H.coStacks _ _ hl').1
    rw [resumeStackId, if_pos (by omega), hid, hl'] at hl
    cases hl
    exact absurd rfl hne

/-- What `resume` does to the stacks. -/
theorem Placed.resume_stacks (H : s.Placed) (h : s.resume c = some s') :
    s.InPlace c ∧ s'.coStacks = s.coStacks ∨
      s'.coStacks = Function.update s.coStacks (s.lastStackId + 1) (some [c]) ∨
      ∃ top l, s.coStacks (s.resumeStackId c) = some (top :: l) ∧ top ≠ c ∧
        s'.coStacks = Function.update s.coStacks (s.resumeStackId c) (some (c :: top :: l)) := by
  unfold CoThread.resume at h
  split at h
  · rename_i h0
    rcases resumeOnStack_cases h with ⟨hno, rfl⟩ | ⟨l, hl, h⟩
    · refine .inl ⟨⟨h0, fun l hl => ?_⟩, rfl⟩
      rw [hno] at hl
      cases hl
    · have hpush : s'.coStacks = ((s.enter c).push c l).coStacks := by
        rcases h with ⟨rfl, -⟩ | ⟨h, -⟩
        · rfl
        · exact (switchTo_rest h).1
      obtain ⟨top, l, rfl⟩ := List.exists_cons_of_ne_nil (H.coStacks _ _ hl).2.2.1
      by_cases htop : top = c
      · subst htop
        rw [push_self] at hpush
        refine .inl ⟨⟨h0, fun l' hl' => ?_⟩, hpush⟩
        rw [hl] at hl'
        cases hl'
        rfl
      · refine .inr (.inr ⟨top, l, hl, htop, ?_⟩)
        rw [hpush, push_stacks htop, enter_stackId]
        rfl
  · cases h
    exact .inr (.inl rfl)

/-- A `resume` that is to be refused does nothing exactly where the coroutine is on top of the stack
already, or the stack does not exist. -/
theorem Placed.refused_resume_iff (H : s.Placed) (hr : s.Refused c) :
    (∃ s', s.resume c = some s' ∧ s.Unchanged s') ↔ s.InPlace c := by
  constructor
  · rintro ⟨s', h, hU⟩
    rcases H.resume_stacks h with ⟨hin, -⟩ | hnew | ⟨top, l, hl, -, hpush⟩
    · exact hin
    · -- The id of the new stack is new.
      have := (H.coStacks (s.lastStackId + 1) [c] (by rw [← hU.coStacks, hnew]; simp)).2.1
      omega
    · rw [hU.coStacks] at hpush
      rw [hpush, Function.update_self] at hl
      simpa using congrArg (Option.map List.length) hl
  · rintro ⟨h0, htop⟩
    unfold CoThread.resume
    rw [if_pos h0]
    cases hl : s.coStacks (s.resumeStackId c) with
    | none => exact ⟨_, resumeOnStack_none hl, rfl, enter_state s c, rfl⟩
    | some l =>
      obtain ⟨l, rfl⟩ := List.head?_eq_some_iff.mp (htop l hl)
      refine ⟨s.enter c, ?_, rfl, enter_state s c, rfl⟩
      rw [resumeOnStack_some hl, push_self, if_pos]
      simpa only [finished, enter_state, Bool.or_eq_true, decide_eq_true_eq] using
        H.refused_top hr hl

/-- A refused `yield` does nothing. -/
theorem yield_refused (h : ∀ l ∈ s.coStacks (s.cos c).stackId, l.head? ≠ some c) : s.yield c = s := by
  rcases yield_eq s c with ⟨h', -⟩ | ⟨-, l, hl⟩
  · exact h'
  · exact absurd rfl (h _ hl)

/-! ## Runs in which refused operations do nothing -/

/-- The guard that a `resume` which is to be refused is one that does nothing. `Resume(stackId)`
resumes the top of the stack, which is in place. -/
def Quiet (s : CoThread) : Op → Prop
  | .step (.resume c) => s.Refused c → s.InPlace c
  | _ => True

/-- No coroutine is twice in the stacks. -/
def Single (s : CoThread) : Prop :=
  ∀ id l, s.coStacks id = some l → l.Nodup ∧
    ∀ id' l', s.coStacks id' = some l' → id ≠ id' → l.Disjoint l'

theorem Placed.single (H : s.Placed) (hN : ∀ id l, s.coStacks id = some l → l.Nodup) : s.Single :=
  fun id l hl => ⟨hN id l hl, fun _ _ hl' hne _ hc hc' =>
    hne ((H.mem_stackId hl hc).symm.trans (H.mem_stackId hl' hc'))⟩

theorem Placed.top_inPlace (H : s.Placed) {id : Nat} {l : List CoId}
    (hl : s.coStacks id = some (c :: l)) : s.InPlace c := by
  have hid := H.mem_stackId hl List.mem_cons_self
  have hpos := (H.coStacks _ _ hl).1
  refine ⟨.inl (by omega), fun l' hl' => ?_⟩
  rw [resumeStackId, if_pos (by omega), hid, hl] at hl'
  cases hl'
  rfl

theorem Placed.nodup_resume (H : s.Placed) (hN : ∀ id l, s.coStacks id = some l → l.Nodup)
    (hq : s.Refused c → s.InPlace c) (h : s.resume c = some s') :
    ∀ id l, s'.coStacks id = some l → l.Nodup := by
  intro id l hl
  rcases H.resume_stacks h with ⟨-, hst⟩ | hst | ⟨top, l', hl', htop, hst⟩
  · rw [hst] at hl
    exact hN id l hl
  · rw [hst, Function.update_apply] at hl
    split at hl
    · cases hl
      simp
    · exact hN id l hl
  · rw [hst, Function.update_apply] at hl
    split at hl
    · cases hl
      refine List.nodup_cons.mpr ⟨fun hc => ?_, hN _ _ hl'⟩
      -- The coroutine is in the stack, but not on top.
      have := (hq (.inr (.inr ⟨_, _, hl', hc, fun h => htop (Option.some.inj h)⟩))).2 _ hl'
      exact htop (Option.some.inj this)
    · exact hN id l hl

theorem Placed.nodup_op {a : Op} (H : s.Placed) (hN : ∀ id l, s.coStacks id = some l → l.Nodup)
    (hq : s.Quiet a) (h : s.op a = some s') : ∀ id l, s'.coStacks id = some l → l.Nodup := by
  cases a with
  | step a =>
    cases a with
    | resume c => exact H.nodup_resume hN hq h
    | resumeWithNewStack c =>
      cases h
      intro id l hl
      unfold CoThread.resumeWithNewStack at hl
      split at hl
      · exact hN id l hl
      · change Function.update s.coStacks (s.lastStackId + 1) (some [c]) id = some l at hl
        rw [Function.update_apply] at hl
        split at hl
        · cases hl
          simp
        · exact hN id l hl
    | yield c =>
      cases h
      rcases yield_eq s c with ⟨h, -⟩ | ⟨h, -⟩
      · rwa [h]
      · rw [h]
        exact hN
    | finish except =>
      obtain ⟨-, st, top, l, next, -, -, hl, rfl, -⟩ := finish_cases h
      intro id l' hl'
      change Function.update s.coStacks _ _ id = some l' at hl'
      rw [Function.update_apply] at hl'
      split at hl'
      · split at hl'
        · cases hl'
        · cases hl'
          exact (List.nodup_cons.mp (hN _ _ hl)).2
      · exact hN id l' hl'
    | setCallerCo c =>
      cases h
      exact hN
    | delCallerCo =>
      cases h
      exact hN
  | reset c =>
    obtain ⟨-, -, rfl⟩ := reset_cases h
    exact hN
  | resumeStack stackId =>
    replace h : s.resumeStack stackId = some s' := h
    unfold CoThread.resumeStack at h
    split at h
    · split at h
      · cases h
        exact hN
      · cases h
        exact hN
    · cases h
    · exact H.nodup_resume hN (fun _ => H.top_inPlace ‹_›) h

/-! ## Runs in which a coroutine that ends pops itself -/

/-- The coroutine is on top of its stack. -/
def Top (s : CoThread) (c : CoId) : Prop := ∃ l, s.coStacks (s.cos c).stackId = some (c :: l)

/-- The steps that return to the caller coroutine, if that is suspended. -/
def Returns (s : CoThread) : Op → Prop
  | .step (.yield c) => s.Top c
  | .step (.finish _) => s.coStacks (s.cos s.running).stackId = some [s.running]
  | _ => False

/-- A step of a coherent thread leaves it coherent, where it is proper. -/
def ProperOp (s : CoThread) : Op → Prop
  | .step a => s.Proper a
  | .reset _ => True
  | .resumeStack stackId => match s.coStacks stackId with
    | none => s.running = s.main
    | some l => ∀ c ∈ l.head?, s.Proper (.resume c)

/-- The guard that refused operations do nothing, the contexts stay coherent, and a caller coroutine
that is returned to is on top of its stack. -/
def Orderly (s : CoThread) (a : Op) : Prop :=
  s.Quiet a ∧ s.ProperOp a ∧
    (s.Returns a → ∀ c, s.caller = some c → (s.cos c).state = .YIELD → s.Top c)

theorem Inv.reset (H : s.Inv) (h : s.reset c = some s') : s'.Inv := by
  obtain ⟨hc, hst, rfl⟩ := reset_cases h
  have hcos : ∀ x, ((s.modify c fun x => { x with ctx := c, link := none, state := .INIT }).cos
      x).state = (if x = c then .INIT else (s.cos x).state) ∧
      ((s.modify c fun x => { x with ctx := c, link := none, state := .INIT }).cos x).stackId =
        (s.cos x).stackId ∧
      ((s.modify c fun x => { x with ctx := c, link := none, state := .INIT }).cos x).ctx = x := by
    intro x
    have := H.ctx x
    rw [modify_cos]
    grind
  refine ⟨⟨H.saves, H.cur, fun x => ?_⟩, ⟨fun x => ?_, fun id l hl => ?_, fun x hx h => ?_,
    fun x hx h => ?_⟩, fun x => (hcos x).2.2, ?_⟩
  · rw [(hcos x).1]
    have := H.execing x
    simp only [finished, Bool.or_eq_true, decide_eq_true_eq] at hst
    change _ ↔ x = s.running
    grind
  · rw [(hcos x).2.1]
    exact H.ids x
  · obtain ⟨h1, h2, h3⟩ := H.coStacks id l hl
    refine ⟨h1, h2, fun x hx => ?_⟩
    rw [(hcos x).2.1, h3 x hx]
  · change s.coStacks _ = none
    change _ = ((CoThread.modify s c _).cos s.main).stackId at h
    rw [(hcos x).2.1, (hcos _).2.1] at h
    change s.coStacks ((CoThread.modify s c _).cos s.main).stackId = none
    rw [(hcos _).2.1]
    exact H.alone x hx h
  · rw [(hcos x).1] at h
    rw [(hcos x).2.1]
    exact H.started x hx (by grind)
  · change ((CoThread.modify s c _).cos s.main).state = _ ∨
      ((CoThread.modify s c _).cos s.main).state = _
    rw [(hcos _).1, if_neg (Ne.symm hc)]
    exact H.mainState

theorem Inv.resumeStack (H : s.Inv) {stackId : Nat} (hG : s.ProperOp (.resumeStack stackId))
    (h : s.resumeStack stackId = some s') : s'.Inv := by
  unfold CoThread.resumeStack at h
  unfold ProperOp at hG
  cases hl : s.coStacks stackId with
  | none =>
    simp only [hl] at h hG
    rw [if_pos ((H.execing _).mpr hG.symm)] at h
    cases h
    exact H
  | some l =>
    cases l with
    | nil => exact absurd rfl (H.coStacks _ _ hl).2.1
    | cons top l =>
      simp only [hl] at h hG
      exact H.resume (hG top rfl) h

theorem Inv.op {a : Op} (H : s.Inv) (hG : s.ProperOp a) (h : s.op a = some s') : s'.Inv := by
  cases a with
  | step a => exact H.step hG h
  | reset c => exact H.reset h
  | resumeStack stackId => exact H.resumeStack hG h

/-- `resume` leaves the current coroutine on top of its stack. -/
theorem Placed.resume_top (H : s.Placed) (hq : s.Refused c → s.InPlace c)
    (htop : s.cur ≠ s.main → s.Top s.cur) (h : s.resume c = some s') :
    s'.cur ≠ s'.main → s'.Top s'.cur := by
  -- A coroutine that has an id keeps it.
  have henter : s.cur ≠ s.main → (s.enter c).Top s.cur := by
    intro hm
    obtain ⟨l, hl⟩ := htop hm
    refine ⟨l, ?_⟩
    have hid : ((s.enter c).cos s.cur).stackId = (s.cos s.cur).stackId := by
      have hpos := H.cur hm
      rw [enter_cos_stackId]
      unfold resumeStackId
      grind
    rw [hid]
    exact hl
  unfold CoThread.resume at h
  split at h
  · rcases resumeOnStack_cases h with ⟨-, rfl⟩ | ⟨l, hl, h⟩
    · exact henter
    · obtain ⟨top, l, rfl⟩ := List.exists_cons_of_ne_nil (H.coStacks _ _ hl).2.2.1
      have hcos := enter_push_cos s c top l c
      rcases h with ⟨rfl, href⟩ | ⟨h, -⟩
      · have href : s.Refused c := by
          simp only [finished, hcos.1, Bool.or_eq_true, decide_eq_true_eq] at href
          unfold Refused finished
          grind
        have htop := (hq href).2 _ hl
        cases htop
        rw [push_self]
        exact henter
      · obtain ⟨hstacks, -, -, hcur, hid⟩ := switchTo_rest h
        intro _
        rw [hcur]
        by_cases htop : top = c
        · subst htop
          refine ⟨l, ?_⟩
          rw [hstacks, (hid _).1, hcos.2.2.2, if_pos rfl, push_self]
          exact hl
        · refine ⟨top :: l, ?_⟩
          rw [hstacks, (hid _).1, hcos.2.2.2, if_pos rfl, push_stacks htop, enter_stackId]
          exact Function.update_self ..
  · cases h
    intro _
    refine ⟨[], ?_⟩
    change Function.update s.coStacks (s.lastStackId + 1) (some [c])
      (((s.newStack c).start s.main c).cos c).stackId = _
    rw [(start_cos _ _ _).2, (newStack_cos _ _ _).2, if_pos rfl]
    exact Function.update_self ..

/-- What orderly runs keep. -/
structure Ordered (s : CoThread) : Prop where
  inv : s.Inv
  placed : s.Placed
  nodup : ∀ id l, s.coStacks id = some l → l.Nodup
  top : s.cur ≠ s.main → s.Top s.cur

/-- The coroutine that runs next is on top of its stack. -/
theorem Ordered.finish_top {except : Bool} (H : s.Ordered)
    (hG : s.Orderly (.step (.finish except))) (h : s.finish except = some s') :
    s'.cur ≠ s'.main → s'.Top s'.cur := by
  obtain ⟨hrun, st, top, l, next, -, -, hl, rfl, hnext⟩ := finish_cases h
  obtain ⟨l', hl'⟩ := H.top (H.inv.cur ▸ hrun)
  rw [H.inv.cur, hl] at hl'
  cases hl'
  have hcos := endTo_cos st s (if l = [] then none else some l) next next
  intro hm
  change next ≠ s.main at hm
  change ∃ l', Function.update s.coStacks _ _ ((s.endTo _ _ next).cos next).stackId = some (next :: l')
  rw [hcos.1]
  rcases hnext with ⟨hne, hhead⟩ | ⟨rfl, hmain | ⟨hc, hne, hy⟩⟩
  · obtain ⟨l, rfl⟩ := List.head?_eq_some_iff.mp hhead
    refine ⟨l, ?_⟩
    have hid : (s.cos next).stackId = (s.cos s.running).stackId :=
      H.placed.mem_stackId hl (List.mem_cons_of_mem _ List.mem_cons_self)
    rw [hid, Function.update_self, if_neg hne]
  · exact absurd hmain hm
  · obtain ⟨l', hl'⟩ := hG.2.2 hl next hc hy
    refine ⟨l', ?_⟩
    rw [Function.update_of_ne]
    · exact hl'
    · intro hid
      rw [hid, hl] at hl'
      cases hl'
      exact hne rfl

/-- The stack of a coroutine that ends loses its top, and this is the coroutine. -/
theorem Ordered.finish {except : Bool} (H : s.Ordered) (h : s.finish except = some s') :
    ∃ l, s.coStacks (s.cos s.running).stackId = some (s.running :: l) ∧
      s'.coStacks = Function.update s.coStacks (s.cos s.running).stackId
        (if l = [] then none else some l) := by
  obtain ⟨hrun, st, top, l, next, -, -, hl, rfl, -⟩ := finish_cases h
  obtain ⟨l', hl'⟩ := H.top (H.inv.cur ▸ hrun)
  rw [H.inv.cur, hl] at hl'
  cases hl'
  exact ⟨l, hl, rfl⟩

theorem Ordered.op {a : Op} (H : s.Ordered) (hG : s.Orderly a) (h : s.op a = some s') :
    s'.Ordered := by
  refine ⟨H.inv.op hG.2.1 h, H.placed.op h, H.placed.nodup_op H.nodup hG.1 h, ?_⟩
  cases a with
  | step a =>
    cases a with
    | resume c => exact H.placed.resume_top hG.1 H.top h
    | resumeWithNewStack c =>
      cases h
      unfold resumeWithNewStack
      split
      · exact H.top
      · intro _
        refine ⟨[], ?_⟩
        change Function.update s.coStacks (s.lastStackId + 1) (some [c])
          (((s.newStack c).start s.cur c).cos c).stackId = _
        rw [(start_cos _ _ _).2, (newStack_cos _ _ _).2, if_pos rfl]
        exact Function.update_self ..
    | yield c =>
      cases h
      rcases yield_eq s c with ⟨h, -⟩ | ⟨h, hc⟩
      · rw [h]
        exact H.top
      · rw [h]
        intro hm
        obtain ⟨hb, hy⟩ := base_caller hm
        obtain ⟨l, hl⟩ := hG.2.2 hc _ hb hy
        refine ⟨l, ?_⟩
        change s.coStacks ((s.yieldTo c s.base).cos s.base).stackId = _
        rw [(yieldTo_cos _ _ _ _).1]
        exact hl
    | finish except => exact H.finish_top hG h
    | setCallerCo c =>
      cases h
      exact H.top
    | delCallerCo =>
      cases h
      exact H.top
  | reset c =>
    obtain ⟨-, -, rfl⟩ := reset_cases h
    intro hm
    obtain ⟨l, hl⟩ := H.top hm
    refine ⟨l, ?_⟩
    change s.coStacks ((s.modify c _).cos s.cur).stackId = _
    rw [modify_cos]
    split
    · rename_i hc
      rw [← hc]
      exact hl
    · exact hl
  | resumeStack stackId =>
    replace h : s.resumeStack stackId = some s' := h
    unfold CoThread.resumeStack at h
    split at h
    · rename_i hno
      have hrun : s.running = s.main := by
        have := hG.2.1
        simpa only [ProperOp, hno] using this
      rw [if_pos ((H.inv.execing _).mpr hrun.symm)] at h
      cases h
      exact H.top
    · cases h
    · exact H.placed.resume_top (fun _ => H.placed.top_inPlace ‹_›) H.top h

theorem init_ordered (threadId : ThreadId) (main : CoId) : (init threadId main).Ordered where
  inv := init_inv threadId main
  placed := init_placed threadId main
  nodup id l hl := by simp [init] at hl
  top h := absurd rfl h

/-- **Refused operations**: in every state, a `resume` that is to be refused does nothing exactly
where the coroutine is on top of the stack already or the stack does not exist, and a refused
`yield` does nothing. In runs in which every such `resume` does nothing, no coroutine is twice in
the stacks, and in orderly ones the coroutine that ends pops itself. -/
theorem refused_operations (threadId : ThreadId) (main : CoId) :
    (∀ s, Reach op Always (init threadId main) s → ∀ c,
      (s.Refused c → ((∃ s', s.resume c = some s' ∧ s.Unchanged s') ↔ s.InPlace c)) ∧
      (¬s.Top c → s.yield c = s)) ∧
    (∀ s, Reach op Quiet (init threadId main) s → s.Single) ∧
    ∀ s, Reach op Orderly (init threadId main) s → ∀ except s', s.finish except = some s' →
      ∃ l, s.coStacks (s.cos s.running).stackId = some (s.running :: l) ∧
        s'.coStacks = Function.update s.coStacks (s.cos s.running).stackId
          (if l = [] then none else some l) := by
  refine ⟨fun s hs c => ?_, fun s hs => ?_, fun s hs except s' h => ?_⟩
  · have H : s.Placed := hs.inv (init_placed threadId main) fun H _ h => H.op h
    refine ⟨H.refused_resume_iff, fun htop => yield_refused fun l hl hhead => htop ?_⟩
    obtain ⟨l, rfl⟩ := List.head?_eq_some_iff.mp hhead
    exact ⟨l, hl⟩
  · have H : s.Placed ∧ ∀ id l, s.coStacks id = some l → l.Nodup :=
      hs.inv (I := fun s => s.Placed ∧ ∀ id l, s.coStacks id = some l → l.Nodup)
        ⟨init_placed threadId main, fun id l hl => by simp [init] at hl⟩
        fun H hq h => ⟨H.1.op h, H.1.nodup_op H.2 hq h⟩
    exact H.1.single H.2
  · have H : s.Ordered := hs.inv (init_ordered threadId main) fun H hG h => H.op hG h
    exact H.finish h

/-- The coroutine 1 resumes 2, which ends, and resumes it again: 2 is pushed once more, and the
running coroutine 1 is suspended. -/
theorem finished_pushed_again : ¬∀ s, Reach op Always (init 1 0) s → ∀ c, s.Refused c →
    ∃ s', s.resume c = some s' ∧ s.Unchanged s' := by
  obtain ⟨s, h, hp⟩ := Reach.of_any op Always (init 1 0)
    [.step (.resume 1), .step (.resume 2), .step (.finish false)]
    (fun s => s.finished 2 && ((s.resume 2).any fun s' => (s'.cos 1).state = .YIELD &&
      (s.cos 1).state = .EXECING)) (by decide)
  intro hall
  simp only [Bool.and_eq_true, Option.any_eq_true, decide_eq_true_eq] at hp
  obtain ⟨hfin, s', hs', hy, he⟩ := hp
  obtain ⟨s'', hs'', hU⟩ := hall s h 2 (.inl hfin)
  rw [hs'] at hs''
  cases hs''
  rw [hU.state, he] at hy
  cases hy

end Tigerkin.CoThread
