import Tigerkin.Coroutine.Basic

/-! # Coherence of the coroutine contexts

In a coherent thread every switch saved the running coroutine into its own context, `t_cur_co` is
the running coroutine and it alone is `EXECING`. `resume` saves into the main coroutine, into
`uc_link` or into `t_back_co`; a coroutine other than the main one that resumes a coroutine whose
`uc_link` is not its own context is saved in the wrong place. `Proper` is the condition under which
a step keeps a thread coherent, and no weaker condition does (`Inv.coherent_iff`). -/

namespace Tigerkin.CoThread

variable {s s' : CoThread} {c r : CoId}

structure Coherent (s : CoThread) : Prop where
  saves : ∀ x ∈ s.saves, x.1 = x.2
  cur : s.cur = s.running
  execing : ∀ c, (s.cos c).state = .EXECING ↔ c = s.running

/-- What the stack of a resumed coroutine must be. -/
def Resumable (s : CoThread) (c : CoId) : List CoId → Prop
  | [] => True
  | top :: _ =>
    if s.finished c then top = c ∨ top ≠ s.running
    else c ≠ s.main ∧ if top = c then (s.cos c).link = some s.running else top = s.running

/-- A coroutine other than the main one resumes only the top of a stack that it resumed itself, a
coroutine that goes on top of it, or one that cannot run; and only the running coroutine yields. -/
def Proper (s : CoThread) : Step → Prop
  | .resume c => s.running = s.main ∨ c = s.running ∨
      ∀ l ∈ s.coStacks (s.resumeStackId c), s.Resumable c l
  | .yield c => c = s.running ∨ ∀ l ∈ s.coStacks (s.cos c).stackId, l.head? ≠ some c
  | _ => True

/-- The bookkeeping of the stacks: a coroutine is on no other stack than its own, and the main
coroutine shares none. -/
structure Stacked (s : CoThread) : Prop where
  ids : ∀ c, (s.cos c).stackId ≤ s.lastStackId
  coStacks : ∀ id l, s.coStacks id = some l → 0 < id ∧ l ≠ [] ∧ ∀ c ∈ l, (s.cos c).stackId = id
  alone : ∀ c, c ≠ s.main → (s.cos c).stackId = (s.cos s.main).stackId →
    s.coStacks (s.cos s.main).stackId = none
  started : ∀ c, c ≠ s.main → (s.cos c).state ≠ .INIT → 0 < (s.cos c).stackId

structure Inv (s : CoThread) : Prop extends Coherent s, Stacked s where
  ctx : ∀ c, (s.cos c).ctx = c
  mainState : (s.cos s.main).state = .EXECING ∨ (s.cos s.main).state = .YIELD

/-! ## Switching -/

/-- `s'` is `s` after a switch from `r` to `c` that saved `r` into its own context. -/
structure Switched (r c : CoId) (s s' : CoThread) : Prop where
  running : s'.running = c
  cur : s'.cur = c
  saves : s'.saves = s.saves ++ [(r, r)]
  main : s'.main = s.main
  coStacks : s'.coStacks = s.coStacks
  lastStackId : s'.lastStackId = s.lastStackId
  stackId : ∀ x, (s'.cos x).stackId = (s.cos x).stackId
  ctx : ∀ x, (s'.cos x).ctx = x
  state : ∀ x, (s'.cos x).state =
    if x = c then .EXECING else if x = r then .YIELD else (s.cos x).state

theorem Switched.inv (H : Switched r c s s') (hs : s.Stacked) (hsaves : ∀ x ∈ s.saves, x.1 = x.2)
    (hexec : ∀ x, (s.cos x).state = .EXECING → x = r)
    (hmain : (s.cos s.main).state = .EXECING ∨ (s.cos s.main).state = .YIELD)
    (hc : c ≠ s.main → 0 < (s.cos c).stackId) (hr : r ≠ s.main → 0 < (s.cos r).stackId) :
    s'.Inv where
  saves x hx := by
    rw [H.saves] at hx
    rcases List.mem_append.mp hx with hx | hx
    · exact hsaves x hx
    · rw [List.mem_singleton.mp hx]
  cur := by rw [H.cur, H.running]
  execing x := by
    rw [H.state, H.running]
    have := hexec x
    grind
  ids x := by
    rw [H.stackId, H.lastStackId]
    exact hs.ids x
  coStacks id l hl := by
    rw [H.coStacks] at hl
    simp only [H.stackId]
    exact hs.coStacks id l hl
  alone x hx h := by
    rw [H.main] at hx
    rw [H.main, H.stackId, H.stackId] at h
    rw [H.main, H.coStacks, H.stackId]
    exact hs.alone x hx h
  started x hx h := by
    rw [H.main] at hx
    rw [H.state] at h
    rw [H.stackId]
    have := hs.started x hx
    grind
  ctx := H.ctx
  mainState := by
    rw [H.main, H.state]
    grind

@[simp] theorem modify_toTls (s : CoThread) (c : CoId) (f : Coroutine → Coroutine) :
    (s.modify c f).toTls = s.toTls := rfl

theorem modify_cos (s : CoThread) (c : CoId) (f : Coroutine → Coroutine) (x : CoId) :
    (s.modify c f).cos x = if x = c then f (s.cos c) else s.cos x :=
  Function.update_apply ..

/-- A new stack, made for a coroutine that has none. -/
theorem Stacked.newStack (H : s.Stacked) (hc : (s.cos c).stackId = 0) : (s.newStack c).Stacked := by
  have hcos : ∀ x, ((s.newStack c).cos x).stackId =
      (if x = c then s.lastStackId + 1 else (s.cos x).stackId) ∧
      ((s.newStack c).cos x).state = (s.cos x).state := by
    intro x
    simp only [CoThread.newStack, setStack, modify_cos]
    split <;> simp_all
  have hstacks : ∀ id, (s.newStack c).coStacks id =
      if id = s.lastStackId + 1 then some [c] else s.coStacks id := fun id =>
    Function.update_apply ..
  refine ⟨fun x => ?_, fun id l hl => ?_, fun x hx h => ?_, fun x hx h => ?_⟩
  · have := H.ids x
    rw [(hcos x).1]
    change _ ≤ s.lastStackId + 1
    split <;> omega
  · rw [hstacks] at hl
    split at hl
    · cases hl
      refine ⟨by omega, by simp, fun x hx => ?_⟩
      rw [List.mem_singleton.mp hx, (hcos c).1, if_pos rfl]
      omega
    · obtain ⟨h1, h2, h3⟩ := H.coStacks id l hl
      refine ⟨h1, h2, fun x hx => ?_⟩
      rw [(hcos x).1, if_neg, h3 x hx]
      rintro rfl
      have := h3 x hx
      omega
  · have hx : x ≠ s.main := hx
    change (s.newStack c).coStacks ((s.newStack c).cos s.main).stackId = none
    have hm : ((s.newStack c).cos s.main).stackId = ((s.newStack c).cos x).stackId := h.symm
    have h1 := H.ids x
    have h2 := H.ids s.main
    have h3 := H.alone x hx
    rw [hstacks]
    rw [(hcos s.main).1, (hcos x).1] at hm
    rw [(hcos s.main).1]
    grind
  · rw [(hcos x).2] at h
    rw [(hcos x).1]
    have := H.started x hx h
    split <;> omega

/-! ## The phases of `resume` -/

/-- The coroutine has the id of the stack it is to be resumed on. -/
def enter (s : CoThread) (c : CoId) : CoThread :=
  s.modify c fun x => { x with stackId := s.resumeStackId c }

theorem enter_cos (s : CoThread) (c x : CoId) : (s.enter c).cos x =
    if x = c then { s.cos c with stackId := s.resumeStackId c } else s.cos x :=
  modify_cos ..

theorem enter_state (s : CoThread) (c x : CoId) : ((s.enter c).cos x).state = (s.cos x).state := by
  rw [enter_cos]
  split <;> simp_all

theorem enter_stackId (s : CoThread) (c : CoId) :
    ((s.enter c).cos c).stackId = s.resumeStackId c := by
  simp [enter_cos]

theorem Inv.resumeStackId_pos (H : s.Inv) (h : 0 < (s.cos c).stackId ∨ s.running ≠ s.main) :
    0 < s.resumeStackId c := by
  unfold resumeStackId
  split
  · assumption
  · rw [H.cur]
    refine H.started _ (h.resolve_left ‹_›) ?_
    rw [(H.execing _).mpr rfl]
    decide

theorem Inv.enter (H : s.Inv) (h : 0 < (s.cos c).stackId ∨ s.running ≠ s.main)
    (hc : c = s.main → s.running = s.main ∨ s.coStacks (s.resumeStackId c) = none) :
    (s.enter c).Stacked := by
  have hpos := H.resumeStackId_pos h
  have hrun : s.running ≠ s.main → 0 < (s.cos s.running).stackId := fun hr => by
    refine H.started _ hr ?_
    rw [(H.execing _).mpr rfl]
    decide
  have hid : s.resumeStackId c = (s.cos c).stackId ∨
      (s.cos c).stackId = 0 ∧ s.running ≠ s.main ∧
        s.resumeStackId c = (s.cos s.running).stackId := by
    unfold resumeStackId
    split
    · exact .inl rfl
    · exact .inr ⟨by omega, h.resolve_left ‹_›, by rw [H.cur]⟩
  have hstackId : ∀ x, ((s.enter c).cos x).stackId =
      if x = c then s.resumeStackId c else (s.cos x).stackId := by
    intro x
    rw [enter_cos]
    split <;> rfl
  refine ⟨fun x => ?_, fun id l hl => ?_, fun x hx h => ?_, fun x hx h => ?_⟩
  · change _ ≤ s.lastStackId
    have h1 := H.ids x
    have h2 := H.ids c
    have h3 := H.ids s.running
    rw [hstackId]
    grind
  · obtain ⟨h1, h2, h3⟩ := H.coStacks id l hl
    refine ⟨h1, h2, fun x hx => ?_⟩
    have := h3 x hx
    rw [hstackId]
    grind
  · have hx : x ≠ s.main := hx
    change s.coStacks ((s.enter c).cos s.main).stackId = none
    have hm : ((s.enter c).cos x).stackId = ((s.enter c).cos s.main).stackId := h
    rw [hstackId, hstackId] at hm
    rw [hstackId]
    have h1 := H.alone x hx
    have h2 := H.alone s.running
    have h3 := H.alone c
    grind
  · have hx : x ≠ s.main := hx
    rw [enter_state] at h
    rw [hstackId]
    have := H.started x hx h
    grind

/-- The top of a stack is not the main coroutine, unless it is the main coroutine's own. -/
theorem Stacked.top_ne_main (H : s.Stacked) {top : CoId} {l : List CoId}
    (hl : s.coStacks (s.cos c).stackId = some (top :: l)) (htop : top ≠ c) : top ≠ s.main := by
  rintro rfl
  have hid := (H.coStacks _ _ hl).2.2 _ List.mem_cons_self
  have := H.alone c htop.symm hid.symm
  rw [hid, hl] at this
  cases this

theorem push_self (s : CoThread) (c : CoId) (l : List CoId) : s.push c (c :: l) = s := by
  simp [push]

theorem push_cos {top : CoId} (htop : top ≠ c) (l : List CoId) (x : CoId) :
    ((s.push c (top :: l)).cos x).state = (if x = top then .YIELD else (s.cos x).state) ∧
      ((s.push c (top :: l)).cos x).stackId = (s.cos x).stackId ∧
      ((s.push c (top :: l)).cos x).ctx = (s.cos x).ctx ∧
      ((s.push c (top :: l)).cos x).link = if x = c then some top else (s.cos x).link := by
  simp only [push, if_pos htop, setStack, setState, modify_cos]
  grind

theorem push_stacks {top : CoId} (htop : top ≠ c) (l : List CoId) :
    (s.push c (top :: l)).coStacks =
      Function.update s.coStacks (s.cos c).stackId (some (c :: top :: l)) := by
  have hid : (((s.modify top fun x => { x with state := .YIELD }).modify c fun x =>
      { x with link := some top, threadId := s.threadId }).cos c).stackId =
      (s.cos c).stackId := by
    simp only [modify_cos]
    grind
  simp only [push, if_pos htop, setStack, setState, modify_toTls]
  exact congrArg (Function.update s.coStacks · _) hid

theorem push_rest (s : CoThread) (c : CoId) (l : List CoId) :
    (s.push c l).cur = s.cur ∧ (s.push c l).running = s.running ∧ (s.push c l).main = s.main ∧
      (s.push c l).saves = s.saves := by
  unfold push
  split
  · exact ⟨rfl, rfl, rfl, rfl⟩
  · split <;> exact ⟨rfl, rfl, rfl, rfl⟩

theorem push_lastStackId (s : CoThread) (c : CoId) (l : List CoId) :
    (s.push c l).lastStackId = s.lastStackId := by
  unfold push
  split
  · rfl
  · split <;> rfl

theorem Stacked.push (H : s.Stacked) {l : List CoId}
    (hl : s.coStacks (s.cos c).stackId = some l) : (s.push c l).Stacked := by
  cases l with
  | nil => exact H
  | cons top l =>
    by_cases htop : top = c
    · subst htop
      rw [push_self]
      exact H
    have hcos := fun x => push_cos (s := s) htop l x
    obtain ⟨hpos, -, hids⟩ := H.coStacks _ _ hl
    have hstacks : ∀ id, (s.push c (top :: l)).coStacks id =
        if id = (s.cos c).stackId then some (c :: top :: l) else s.coStacks id := fun id => by
      rw [push_stacks htop, Function.update_apply]
    have hmain := (push_rest s c (top :: l)).2.2.1
    refine ⟨fun x => ?_, fun id l' hl' => ?_, fun x hx h => ?_, fun x hx h => ?_⟩
    · rw [(hcos x).2.1, push_lastStackId]
      exact H.ids x
    · simp only [(hcos _).2.1]
      rw [hstacks] at hl'
      split at hl'
      · rename_i hid
        cases hl'
        subst hid
        refine ⟨hpos, by simp, fun x hx => ?_⟩
        rcases List.mem_cons.mp hx with rfl | hx
        · rfl
        · exact hids x hx
      · exact H.coStacks id l' hl'
    · rw [hmain] at hx
      rw [hmain, (hcos x).2.1, (hcos _).2.1] at h
      rw [hmain, hstacks, (hcos _).2.1]
      have h1 := H.alone x hx h
      have h2 := H.alone c
      grind
    · rw [hmain] at hx
      rw [(hcos x).1] at h
      rw [(hcos x).2.1]
      have h1 := H.started x hx
      have h2 := hids top List.mem_cons_self
      grind

theorem setState_cos (s : CoThread) (r x : CoId) (st : Coroutine.State) :
    (s.setState r st).cos x = if x = r then { s.cos r with state := st } else s.cos x :=
  modify_cos ..

theorem leave_switched (hctx : ∀ x, (s.cos x).ctx = x) (hc : c ≠ s.running)
    (hstate : (s.cos c).state = .EXECING) :
    Switched s.running c s (s.leave s.running s.running c) := by
  refine ⟨?_, rfl, rfl, rfl, rfl, rfl, fun x => ?_, fun x => ?_, fun x => ?_⟩ <;>
    simp only [leave, swapcontext, setState, modify_cos, modify_toTls] <;> grind

theorem start_switched (hctx : ∀ x, (s.cos x).ctx = x) :
    Switched s.running c s (s.start s.running c) := by
  refine ⟨?_, rfl, rfl, rfl, rfl, rfl, fun x => ?_, fun x => ?_, fun x => ?_⟩ <;>
    simp only [start, swapcontext, setState, modify_cos, modify_toTls] <;> grind

/-- Which context the switch of `resume` saves into. -/
theorem switchTo_saves (h : s.switchTo c = some s') :
    ∃ slot, s'.saves = s.saves ++ [(slot, s.running)] ∧
      if c = s.main ∨ (s.cos s.main).state = .EXECING then slot = s.main
      else (s.cos c).link = some slot := by
  have hmain : ((s.setState c .EXECING).cos s.main).state = .EXECING ↔
      c = s.main ∨ (s.cos s.main).state = .EXECING := by
    rw [setState_cos]
    grind
  have hlink : ((s.setState c .EXECING).cos c).link = (s.cos c).link := by
    rw [setState_cos, if_pos rfl]
  simp only [switchTo] at h
  by_cases he : ((s.setState c .EXECING).cos (s.setState c .EXECING).main).state = .EXECING
  · rw [if_pos he] at h
    cases h
    exact ⟨s.main, rfl, by rw [if_pos (hmain.mp he)]⟩
  · rw [if_neg he, hlink] at h
    obtain ⟨l, hl, rfl⟩ := Option.map_eq_some_iff.mp h
    exact ⟨l, rfl, by rw [if_neg fun h => he (hmain.mpr h), hl]⟩

/-- The switch of `resume` when it saves into the context of the running coroutine. -/
theorem switchTo_switched (hctx : ∀ x, (s.cos x).ctx = x) (hcur : s.cur = s.running)
    (hc : c ≠ s.running)
    (h : s.running = s.main ∧ (s.cos s.main).state = .EXECING ∨
      c ≠ s.main ∧ (s.cos s.main).state ≠ .EXECING ∧ (s.cos c).link = some s.running) :
    ∃ s', s.switchTo c = some s' ∧ Switched s.running c s s' := by
  have hs₁ : ∀ x, ((s.setState c .EXECING).cos x).ctx = x := by
    intro x
    rw [setState_cos]
    grind
  have hself : ((s.setState c .EXECING).cos c).state = .EXECING := by rw [setState_cos, if_pos rfl]
  have hmain : (s.setState c .EXECING).main = s.main := rfl
  have hrun : (s.setState c .EXECING).running = s.running := rfl
  have H := leave_switched (s := s.setState c .EXECING) hs₁ hc hself
  have H' : Switched s.running c s ((s.setState c .EXECING).leave s.running s.running c) := by
    refine ⟨H.running, H.cur, H.saves, H.main, H.coStacks, H.lastStackId, fun x => ?_, H.ctx,
      fun x => ?_⟩
    · refine (H.stackId x).trans ?_
      rw [setState_cos]
      grind
    · refine (H.state x).trans ?_
      rw [hrun, setState_cos]
      grind
  refine ⟨_, ?_, H'⟩
  unfold switchTo
  rcases h with ⟨hr, he⟩ | ⟨hcm, he, hl⟩
  · have hm : ((s.setState c .EXECING).cos (s.setState c .EXECING).main).state = .EXECING := by
      rw [hmain, setState_cos]
      grind
    simp only [if_pos hm]
    rw [hr]
    rfl
  · have hm : ((s.setState c .EXECING).cos (s.setState c .EXECING).main).state ≠ .EXECING := by
      rw [hmain, setState_cos, if_neg]
      · exact he
      · exact fun h => hcm h.symm
    have hl' : ((s.setState c .EXECING).cos c).link = some s.running := by
      rw [setState_cos, if_pos rfl, hl]
    simp only [if_neg hm, hl', Option.map_some]
    rw [← hcur]
    rfl

theorem resumeOnStack_none (h : s.coStacks (s.resumeStackId c) = none) :
    s.resumeOnStack c = some (s.enter c) := by
  have h' : (s.enter c).coStacks ((s.enter c).cos c).stackId = none := by rw [enter_stackId]; exact h
  unfold resumeOnStack
  dsimp only
  split
  · rfl
  · rename_i hl
    cases h'.symm.trans hl

theorem resumeOnStack_some {l : List CoId} (h : s.coStacks (s.resumeStackId c) = some l) :
    s.resumeOnStack c =
      if (((s.enter c).push c l).cos c).state = .EXECING || ((s.enter c).push c l).finished c then
        some ((s.enter c).push c l)
      else ((s.enter c).push c l).switchTo c := by
  have h' : (s.enter c).coStacks ((s.enter c).cos c).stackId = some l := by
    rw [enter_stackId]
    exact h
  unfold resumeOnStack
  dsimp only
  split
  · rename_i hl
    cases h'.symm.trans hl
  · rename_i l' hl
    obtain rfl : l = l' := Option.some.inj (h'.symm.trans hl)
    rfl

theorem enter_push_cos (s : CoThread) (c top : CoId) (l : List CoId) (x : CoId) :
    (((s.enter c).push c (top :: l)).cos x).state =
        (if top ≠ c ∧ x = top then .YIELD else (s.cos x).state) ∧
      (((s.enter c).push c (top :: l)).cos x).ctx = (s.cos x).ctx ∧
      (((s.enter c).push c (top :: l)).cos x).link =
        (if top ≠ c ∧ x = c then some top else (s.cos x).link) ∧
      (((s.enter c).push c (top :: l)).cos x).stackId =
        if x = c then s.resumeStackId c else (s.cos x).stackId := by
  have hx := enter_cos s c x
  by_cases htop : top = c
  · subst htop
    rw [push_self, hx]
    grind
  · obtain ⟨h1, h2, h3, h4⟩ := push_cos (s := s.enter c) htop l x
    rw [h1, h2, h3, h4, hx]
    grind

/-! ## The invariant -/

theorem finished_push (s : CoThread) (c top : CoId) (l : List CoId) :
    ((s.enter c).push c (top :: l)).finished c = s.finished c := by
  have := (enter_push_cos s c top l c).1
  simp only [finished, this]
  grind

theorem Inv.resume_cond (H : s.Inv) :
    (0 < (s.cos c).stackId ∨ (s.cos s.cur).state = .EXECING ∧ s.cur ≠ s.main) ↔
      (0 < (s.cos c).stackId ∨ s.running ≠ s.main) := by
  rw [H.cur, H.execing]
  simp

theorem Inv.stackId_pos (H : s.Inv) (h : s.running ≠ s.main) : 0 < (s.cos s.running).stackId := by
  refine H.started _ h ?_
  rw [(H.execing _).mpr rfl]
  decide

theorem Inv.resume_newStack (H : s.Inv) (hc : (s.cos c).stackId = 0) (hr : s.running ≠ s.main →
    s.running ≠ c) : ((s.newStack c).start s.running c).Inv := by
  have hcos : ∀ x, ((s.newStack c).cos x).state = (s.cos x).state ∧
      ((s.newStack c).cos x).ctx = (s.cos x).ctx ∧
      ((s.newStack c).cos x).stackId =
        if x = c then s.lastStackId + 1 else (s.cos x).stackId := by
    intro x
    simp only [newStack, setStack, modify_cos]
    grind
  refine (start_switched (s := s.newStack c) (c := c) fun x => ?_).inv (H.newStack hc) H.saves
    (fun x hx => ?_) ?_ (fun _ => ?_) (fun h => ?_)
  · rw [(hcos x).2.1, H.ctx]
  · rw [(hcos x).1] at hx
    exact (H.execing x).mp hx
  · change ((s.newStack c).cos s.main).state = _ ∨ ((s.newStack c).cos s.main).state = _
    rw [(hcos s.main).1]
    exact H.mainState
  · rw [(hcos c).2.2, if_pos rfl]
    omega
  · change 0 < ((s.newStack c).cos s.running).stackId
    rw [(hcos _).2.2, if_neg (hr h)]
    exact H.stackId_pos h

/-- A resume that only pushes the coroutine, over one that is not running. -/
theorem Inv.refused (H : s.Inv) {top : CoId} {l : List CoId}
    (hstk : ((s.enter c).push c (top :: l)).Stacked) (hmain : top ≠ c → top ≠ s.main)
    (hrun : top ≠ c → top ≠ s.running) : ((s.enter c).push c (top :: l)).Inv := by
  have hcos := enter_push_cos s c top l
  obtain ⟨hcur', hrun', hmain', hsaves'⟩ := push_rest (s.enter c) c (top :: l)
  refine ⟨⟨?_, ?_, fun x => ?_⟩, hstk, fun x => ?_, ?_⟩
  · rw [hsaves']
    exact H.saves
  · rw [hcur', hrun']
    exact H.cur
  · rw [(hcos x).1, hrun']
    change _ ↔ x = s.running
    have := H.execing x
    grind
  · rw [(hcos x).2.1, H.ctx]
  · rw [hmain']
    change (((s.enter c).push c (top :: l)).cos s.main).state = _ ∨
      (((s.enter c).push c (top :: l)).cos s.main).state = _
    rw [(hcos s.main).1]
    have := H.mainState
    grind

/-- A resume that switches to the coroutine, once that is on top of its stack. -/
theorem Inv.switched (H : s.Inv) {top : CoId} {l : List CoId}
    (hstk : ((s.enter c).push c (top :: l)).Stacked) (hmain : top ≠ c → top ≠ s.main)
    (hc : c ≠ s.running) (hpos : 0 < s.resumeStackId c)
    (hsave : s.running = s.main ∨
      c ≠ s.main ∧ if top = c then (s.cos c).link = some s.running else top = s.running) :
    ∃ s', ((s.enter c).push c (top :: l)).switchTo c = some s' ∧ s'.Inv := by
  have hcos := enter_push_cos s c top l
  obtain ⟨hcur', hrun', hmain', hsaves'⟩ := push_rest (s.enter c) c (top :: l)
  have hrun' : ((s.enter c).push c (top :: l)).running = s.running := hrun'
  have hmain' : ((s.enter c).push c (top :: l)).main = s.main := hmain'
  have hctx : ∀ x, (((s.enter c).push c (top :: l)).cos x).ctx = x := fun x => by
    rw [(hcos x).2.1, H.ctx]
  have hstate := (hcos s.main).1
  have hlink := (hcos c).2.2.1
  obtain ⟨s₁, hs₁, S⟩ := switchTo_switched (s := (s.enter c).push c (top :: l)) (c := c) hctx
    (by rw [hcur', hrun']; exact H.cur) (by rw [hrun']; exact hc) (by
      rw [hrun', hmain', hstate, hlink]
      have := H.execing s.main
      grind)
  refine ⟨s₁, hs₁, S.inv hstk (by rw [hsaves']; exact H.saves) (fun x hx => ?_) ?_ (fun _ => ?_)
    fun hr => ?_⟩
  · rw [hrun']
    rw [(hcos x).1] at hx
    have := H.execing x
    grind
  · rw [hmain', hstate]
    have := H.mainState
    grind
  · rw [(hcos c).2.2.2, if_pos rfl]
    exact hpos
  · rw [hrun', hmain'] at hr
    rw [hrun', (hcos _).2.2.2]
    have := H.stackId_pos hr
    split <;> assumption

theorem Inv.resumeOnStack (H : s.Inv) (h0 : 0 < (s.cos c).stackId ∨ s.running ≠ s.main)
    (hG : s.Proper (.resume c)) (h : s.resumeOnStack c = some s') : s'.Inv := by
  have hent : (s.enter c).Stacked := by
    refine H.enter h0 fun hcm => ?_
    rcases hG with hG | hG | hG
    · exact .inl hG
    · exact .inl (hG ▸ hcm)
    · refine .inr (Option.eq_none_iff_forall_not_mem.mpr fun l hl => ?_)
      have hR := hG l hl
      have hne := (H.coStacks _ _ hl).2.1
      have hm := H.mainState
      cases l with
      | nil => exact absurd rfl hne
      | cons top l =>
        simp only [Resumable, finished] at hR
        grind
  cases hl : s.coStacks (s.resumeStackId c) with
  | none =>
    rw [resumeOnStack_none hl] at h
    cases h
    refine ⟨⟨H.saves, H.cur, fun x => ?_⟩, hent, fun x => ?_, ?_⟩
    · rw [enter_state]
      exact H.execing x
    · rw [enter_cos]
      have := H.ctx x
      grind
    · rw [enter_state]
      exact H.mainState
  | some l =>
    cases l with
    | nil => exact absurd rfl (H.coStacks _ _ hl).2.1
    | cons top l =>
      have hstate : (((s.enter c).push c (top :: l)).cos c).state = (s.cos c).state := by
        rw [(enter_push_cos s c top l c).1]
        grind
      rw [resumeOnStack_some hl, finished_push, hstate] at h
      have hl' : (s.enter c).coStacks ((s.enter c).cos c).stackId = some (top :: l) := by
        rw [enter_stackId]
        exact hl
      have hmain : top ≠ c → top ≠ s.main := hent.top_ne_main hl'
      have hG : s.running = s.main ∨ c = s.running ∨ s.Resumable c (top :: l) :=
        hG.imp_right (·.imp_right fun hG => hG _ hl)
      simp only [Resumable] at hG
      have hexec := H.execing c
      split at h
      · cases h
        exact H.refused (hent.push hl') hmain (by grind)
      · obtain ⟨s₁, hs₁, H₁⟩ := H.switched (hent.push hl') hmain (by grind)
          (H.resumeStackId_pos h0) (by grind)
        rw [hs₁] at h
        cases h
        exact H₁

theorem Inv.resume (H : s.Inv) (hG : s.Proper (.resume c)) (h : s.resume c = some s') :
    s'.Inv := by
  unfold CoThread.resume at h
  split at h
  · rename_i h0
    exact H.resumeOnStack (H.resume_cond.mp h0) hG h
  · rename_i h0
    rw [H.resume_cond] at h0
    have hrun : s.running = s.main := by grind
    cases h
    rw [← hrun]
    exact H.resume_newStack (by omega) fun hr => absurd hrun hr

/-- A resume that is not proper breaks the coherence: the resumed coroutine pushed the running one
under itself without running, or the switch saved into another context. -/
theorem Inv.resume_proper (H : s.Inv) (h : s.resume c = some s') (hs' : s'.Coherent) :
    s.Proper (.resume c) := by
  by_contra hG
  simp only [Proper, not_or, not_forall] at hG
  obtain ⟨hrun, hne, l, hl, hG⟩ := hG
  have hmain : (s.cos s.main).state ≠ .EXECING := fun h => hrun ((H.execing _).mp h).symm
  have hc : (s.cos c).state ≠ .EXECING := fun h => hne ((H.execing _).mp h)
  unfold CoThread.resume at h
  rw [if_pos (H.resume_cond.mpr (.inr hrun))] at h
  cases l with
  | nil => exact (H.coStacks _ _ hl).2.1 rfl
  | cons top l =>
    rw [resumeOnStack_some hl, finished_push] at h
    have hcos := enter_push_cos s c top l
    obtain ⟨-, hr, hm, hsaves⟩ := push_rest (s.enter c) c (top :: l)
    have hstate := (hcos c).1
    have hmstate := (hcos s.main).1
    have hlink := (hcos c).2.2.1
    simp only [Resumable] at hG
    split at h
    · have hf : s.finished c = true := by grind
      have htop : top ≠ c ∧ top = s.running := by grind
      cases h
      have := (hs'.execing s.running).mpr hr.symm
      rw [(hcos _).1, if_pos ⟨htop.1, htop.2.symm⟩] at this
      cases this
    · have hf : s.finished c = false := by grind
      obtain ⟨slot, hslot, h⟩ := switchTo_saves h
      have hslot : slot = s.running := by
        refine (hs'.saves (slot, _) ?_).trans hr
        rw [hslot]
        exact List.mem_append_right _ List.mem_cons_self
      rw [hm] at h
      change if c = s.main ∨ (((s.enter c).push c (top :: l)).cos s.main).state = _ then
        slot = s.main else _ at h
      rw [hmstate, hlink] at h
      grind

theorem Inv.resumeWithNewStack (H : s.Inv) : (s.resumeWithNewStack c).Inv := by
  unfold CoThread.resumeWithNewStack
  split
  · exact H
  · rename_i hc
    have H' := H.resume_newStack (c := c) (by omega) (by rintro - rfl; have := H.stackId_pos; grind)
    rw [H.cur]
    exact { H' with }

theorem base_cases (s : CoThread) : s.base = s.main ∨ (s.cos s.base).state = .YIELD := by
  unfold base
  split
  · split
    · exact .inr ‹_›
    · exact .inl rfl
  · exact .inl rfl

theorem base_caller (h : s.base ≠ s.main) :
    s.caller = some s.base ∧ (s.cos s.base).state = .YIELD := by
  refine ⟨?_, s.base_cases.resolve_left h⟩
  unfold base at h ⊢
  split
  · rename_i a ha
    rw [ha] at h
    dsimp only at h
    split
    · rw [ha]
    · rename_i hy
      rw [if_neg hy] at h
      exact absurd rfl h
  · rename_i hno
    rw [hno] at h
    exact absurd rfl h

/-- The switch of `yield`. -/
def yieldTo (s : CoThread) (c next : CoId) : CoThread :=
  let s := { s with cur := next }
  let s := s.setState c (if (s.cos c).state = .EXECING then .YIELD else (s.cos c).state)
  (s.setState next .EXECING).swapcontext c next

theorem yield_eq (s : CoThread) (c : CoId) :
    s.yield c = s ∧ (∀ l ∈ s.coStacks (s.cos c).stackId, l.head? ≠ some c) ∨
      s.yield c = s.yieldTo c s.base ∧ ∃ l, s.coStacks (s.cos c).stackId = some (c :: l) := by
  unfold CoThread.yield
  split
  · rename_i top l hl
    split
    · rename_i hne
      exact .inl ⟨rfl, fun l' hl' => by rw [hl] at hl'; cases hl'; simpa using Ne.symm hne⟩
    · rename_i htop
      rw [not_not] at htop
      subst htop
      exact .inr ⟨rfl, l, hl⟩
  · rename_i hno
    refine .inl ⟨rfl, fun l hl => ?_⟩
    cases l with
    | nil => simp
    | cons top l => exact absurd hl (hno top l)

theorem Inv.yield (H : s.Inv) (hG : s.Proper (.yield c)) : (s.yield c).Inv := by
  rcases yield_eq s c with ⟨h, -⟩ | ⟨h, l, hl⟩
  · rw [h]
    exact H
  have hc : c = s.running := hG.resolve_right fun hG => hG _ hl rfl
  subst hc
  rw [h]
  have hpos : s.base ≠ s.main → 0 < (s.cos s.base).stackId := fun hne => by
    refine H.started _ hne ?_
    rw [s.base_cases.resolve_left hne]
    decide
  have hS : Switched s.running s.base s (s.yieldTo s.running s.base) := by
    have hctx := H.ctx
    have hexec := H.execing s.running
    refine ⟨?_, rfl, rfl, rfl, rfl, rfl, fun x => ?_, fun x => ?_, fun x => ?_⟩ <;>
      simp only [yieldTo, swapcontext, setState, modify_cos, modify_toTls] <;> grind
  exact hS.inv H.toStacked H.saves (fun x hx => (H.execing x).mp hx) H.mainState hpos H.stackId_pos

theorem yield_proper (hs' : (s.yield c).Coherent) : s.Proper (.yield c) := by
  rcases yield_eq s c with ⟨-, h⟩ | ⟨h, -⟩
  · exact .inr h
  · rw [h] at hs'
    exact .inl (hs'.saves (c, s.running) (List.mem_append_right _ List.mem_cons_self))

/-- The end of the running coroutine, when `c` runs next. -/
structure Ended (st : Coroutine.State) (c : CoId) (s s' : CoThread) : Prop where
  running : s'.running = c
  cur : s'.cur = c
  saves : s'.saves = s.saves
  main : s'.main = s.main
  lastStackId : s'.lastStackId = s.lastStackId
  coStacks : ∀ id l, s'.coStacks id = some l → l ≠ [] ∧ ∃ l', s.coStacks id = some l' ∧ ∀ x ∈ l, x ∈ l'
  stackId : ∀ x, (s'.cos x).stackId = (s.cos x).stackId
  ctx : ∀ x, (s'.cos x).ctx = (s.cos x).ctx
  state : ∀ x, (s'.cos x).state =
    if x = c then .EXECING else if x = s.running then st else (s.cos x).state

theorem Ended.inv {st : Coroutine.State} (E : Ended st c s s') (H : s.Inv)
    (hrun : s.running ≠ s.main) (hst : st ≠ .EXECING) (hc : c ≠ s.main → 0 < (s.cos c).stackId) :
    s'.Inv where
  saves := by rw [E.saves]; exact H.saves
  cur := by rw [E.cur, E.running]
  execing x := by
    rw [E.state, E.running]
    have := H.execing x
    grind
  ids x := by
    rw [E.stackId, E.lastStackId]
    exact H.ids x
  coStacks id l hl := by
    obtain ⟨hne, l', hl', hsub⟩ := E.coStacks id l hl
    obtain ⟨h1, -, h3⟩ := H.coStacks id l' hl'
    refine ⟨h1, hne, fun x hx => ?_⟩
    rw [E.stackId]
    exact h3 x (hsub x hx)
  alone x hx h := by
    rw [E.main] at hx
    rw [E.main, E.stackId, E.stackId] at h
    rw [E.main, E.stackId]
    cases hl : s'.coStacks (s.cos s.main).stackId with
    | none => rfl
    | some l =>
      obtain ⟨-, l', hl', -⟩ := E.coStacks _ _ hl
      rw [H.alone x hx h] at hl'
      cases hl'
  started x hx h := by
    rw [E.main] at hx
    rw [E.state] at h
    rw [E.stackId]
    have h1 := H.started x hx
    have h2 := H.stackId_pos hrun
    grind
  ctx x := by rw [E.ctx, H.ctx]
  mainState := by
    rw [E.main, E.state]
    have := H.mainState
    grind

/-- The switch at the end of the running coroutine. -/
def endTo (s : CoThread) (st : Coroutine.State) (l : Option (List CoId)) (c : CoId) : CoThread :=
  let s := { (s.setState s.running st).setStack (s.cos s.running).stackId l with cur := c }
  (s.setState c .EXECING).setcontext c

theorem endTo_ended {st : Coroutine.State} {l : Option (List CoId)} (hctx : ∀ x, (s.cos x).ctx = x)
    (hl : ∀ l', l = some l' → l' ≠ [] ∧ ∃ l'', s.coStacks (s.cos s.running).stackId = some l'' ∧
      ∀ x ∈ l', x ∈ l'') (hs : ∀ id l, s.coStacks id = some l → l ≠ []) :
    Ended st c s (s.endTo st l c) := by
  refine ⟨?_, rfl, rfl, rfl, rfl, fun id l' hl' => ?_, fun x => ?_, fun x => ?_, fun x => ?_⟩
  · simp only [endTo, setcontext, setState, modify_cos, setStack]
    grind
  · change Function.update s.coStacks _ l id = some l' at hl'
    rw [Function.update_apply] at hl'
    split at hl'
    · rename_i hid
      subst hid
      exact hl l' hl'
    · exact ⟨hs _ _ hl', l', hl', fun x hx => hx⟩
  all_goals
    simp only [endTo, setcontext, setState, modify_cos, setStack]
    grind

theorem Inv.finish {except : Bool} (H : s.Inv) (h : s.finish except = some s') : s'.Inv := by
  have hst : ∀ st, st = (if except then Coroutine.State.EXCEPT else .TERMINAL) →
      st ≠ .EXECING ∧ st ≠ .YIELD := by
    cases except <;> simp
  unfold CoThread.finish at h
  simp only [Option.ite_none_left_eq_some] at h
  obtain ⟨hrun, h⟩ := h
  generalize (if except then Coroutine.State.EXCEPT else .TERMINAL) = st at h hst
  obtain ⟨hne, hny⟩ := hst st rfl
  have hid : ((s.setState s.running st).cos s.running).stackId = (s.cos s.running).stackId := by
    rw [setState_cos, if_pos rfl]
  rw [hid] at h
  have hs := fun id l hl => (H.coStacks id l hl).2.1
  split at h
  · rename_i top hl
    let s₁ := (s.setState s.running st).setStack (s.cos s.running).stackId none
    have h : s.endTo st none s₁.base = s' := Option.some.inj h
    rw [← h]
    refine (endTo_ended H.ctx (fun l' hl' => by cases hl') hs).inv H hrun hne fun hb => ?_
    have hy : (s₁.cos s₁.base).state = .YIELD := s₁.base_cases.resolve_left hb
    have hcos : ∀ x, (s₁.cos x).state = if x = s.running then st else (s.cos x).state := fun x => by
      change ((s.setState s.running st).cos x).state = _
      rw [setState_cos]
      split <;> rfl
    rw [hcos] at hy
    refine H.started _ hb ?_
    grind
  · rename_i top next l hl
    have h : s.endTo st (some (next :: l)) next = s' := Option.some.inj h
    have hl : s.coStacks (s.cos s.running).stackId = some (top :: next :: l) := hl
    rw [← h]
    refine (endTo_ended H.ctx (fun l' hl' => ?_) hs).inv H hrun hne fun _ => ?_
    · cases hl'
      exact ⟨by simp, _, hl, fun x hx => List.mem_cons_of_mem _ hx⟩
    · rw [(H.coStacks _ _ hl).2.2 next (by simp)]
      exact H.stackId_pos hrun
  · cases h

theorem Inv.step {a : Step} (H : s.Inv) (hG : s.Proper a) (h : s.step a = some s') : s'.Inv := by
  cases a with
  | resume c => exact H.resume hG h
  | resumeWithNewStack c =>
    cases h
    exact H.resumeWithNewStack
  | yield c =>
    cases h
    exact H.yield hG
  | finish except => exact H.finish h
  | setCallerCo c =>
    cases h
    exact { H with }
  | delCallerCo =>
    cases h
    exact { H with }

/-- A step keeps a thread coherent exactly when it is proper. -/
theorem Inv.coherent_iff {a : Step} (H : s.Inv) (h : s.step a = some s') :
    s'.Coherent ↔ s.Proper a := by
  refine ⟨fun hs' => ?_, fun hG => (H.step hG h).toCoherent⟩
  cases a with
  | resume c => exact H.resume_proper h hs'
  | yield c =>
    cases h
    exact yield_proper hs'
  | _ => trivial

theorem init_inv (threadId : ThreadId) (main : CoId) : (init threadId main).Inv where
  saves x hx := by simp [init] at hx
  cur := rfl
  execing c := by
    simp only [init]
    grind
  ids c := by simp [init]
  coStacks id l hl := by simp [init] at hl
  alone c _ _ := rfl
  started c hc h := by
    simp only [init] at h hc
    grind
  ctx c := rfl
  mainState := by simp [init]

/-! ## Runs -/

instance (s : CoThread) (c : CoId) (l : List CoId) : Decidable (s.Resumable c l) := by
  unfold Resumable
  split <;> infer_instance

instance (s : CoThread) (a : Step) : Decidable (s.Proper a) := by
  unfold Proper
  split <;> infer_instance

/-- **Coherence**: every state that proper steps reach is coherent, and stays so with a further
step exactly when that is proper, too. -/
theorem coherence {threadId : ThreadId} {main : CoId}
    (h : Reach step Proper (init threadId main) s) :
    s.Coherent ∧ ∀ a s', s.step a = some s' → (s'.Coherent ↔ s.Proper a) := by
  have H : s.Inv := h.inv (init_inv threadId main) Inv.step
  exact ⟨H.toCoherent, fun _ _ => H.coherent_iff⟩

/-- A coroutine that resumes two others, one over the other, and each of the three ends. -/
theorem coherence_nested : ∃ s, (Reach step Proper (init 1 0) s ∧ s.saves.length = 3) ∧
    s.Coherent ∧ ∀ a s', s.step a = some s' → (s'.Coherent ↔ s.Proper a) := by
  obtain ⟨s, h, hp⟩ := Reach.of_any step Proper (init 1 0)
    [.resume 1, .resume 2, .resume 3, .finish false, .finish true, .finish false]
    (fun s => s.saves.length = 3) (by decide)
  exact ⟨s, ⟨h, by simpa using hp⟩, coherence h⟩

/-- `Scheduler::run` of the caller thread: the caller coroutine 1 resumes the task 2, which yields
back to it, and resumes it again: the continuation of 1 goes into the main coroutine. -/
theorem caller_saved_into_main : ¬∀ s, Reach step Always (init 1 0) s → s.Coherent := by
  obtain ⟨s, h, hp⟩ := Reach.of_any step Always (init 1 0)
    [.setCallerCo 1, .resume 1, .resumeWithNewStack 2, .yield 2, .resume 2]
    (fun s => (0, 1) ∈ s.saves) (by decide)
  intro hcoh
  exact absurd ((hcoh s h).saves (0, 1) (by simpa using hp)) (by decide)

end Tigerkin.CoThread
