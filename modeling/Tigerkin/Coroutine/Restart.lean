import Tigerkin.Coroutine.Refusal

/-! # Coroutines that are reset

`reset` gives a finished coroutine a new context and a new function, and leaves it the id of the
stack that it ran on. `resumeWithNewStack` refuses every coroutine with such an id, and `resume`
looks for that stack, which is gone unless other coroutines are left on it. A new coroutine has no
id and gets a stack of its own. -/

namespace Tigerkin.CoThread

/-- A newly constructed coroutine in the place of `c`. -/
def construct (s : CoThread) (c : CoId) : CoThread := s.modify c fun _ => { ctx := c }

/-- The code of the main coroutine runs, and the thread knows it. -/
structure FromMain (s : CoThread) : Prop where
  running : s.running = s.main
  cur : s.cur = s.main
  state : (s.cos s.main).state = .EXECING

/-- The call has switched to the coroutine. -/
structure Starts (s : CoThread) (c : CoId) : Prop where
  running : s.running = c
  cur : s.cur = c
  state : (s.cos c).state = .EXECING

/-- The calls that start a coroutine. -/
inductive Starter where
  | resume
  | resumeWithNewStack
  deriving DecidableEq

def startBy (s : CoThread) (c : CoId) : Starter → Option CoThread
  | .resume => s.resume c
  | .resumeWithNewStack => some (s.resumeWithNewStack c)

/-- The call starts the coroutine, and leaves the thread as it does for a new coroutine. -/
def RunsAgain (s : CoThread) (c : CoId) (call : Starter) : Prop :=
  ∃ s', s.startBy c call = some s' ∧ s'.Starts c ∧ (s.construct c).startBy c call = some s'

variable {s s₁ s₂ s' : CoThread} {c : CoId}

/-! ## New coroutines -/

theorem construct_cos (s : CoThread) (c x : CoId) :
    (s.construct c).cos x = if x = c then { ctx := c } else s.cos x :=
  modify_cos ..

theorem FromMain.construct_resume (h : s.FromMain) :
    (s.construct c).resume c = some (((s.construct c).newStack c).start s.main c) := by
  refine if_neg ?_
  rintro (hpos | ⟨-, hne⟩)
  · rw [construct_cos, if_pos rfl] at hpos
    cases hpos
  · exact hne h.cur

theorem start_starts (hctx : (s.cos c).ctx = c) {r : CoId} (hr : r ≠ c) :
    (s.start r c).Starts c := by
  refine ⟨?_, rfl, ?_⟩
  · simp only [start, swapcontext, setState, modify_cos]
    grind
  · rw [(start_cos s r c).1, if_pos rfl]

/-- Both calls start a new coroutine. -/
theorem FromMain.construct_starts (h : s.FromMain) (hc : c ≠ s.main) (call : Starter) :
    ∃ s', (s.construct c).startBy c call = some s' ∧ s'.Starts c := by
  have hctx : (((s.construct c).newStack c).cos c).ctx = c := by
    simp only [newStack, setStack, modify_cos, construct_cos, if_true]
  cases call with
  | resume => exact ⟨_, h.construct_resume, start_starts hctx hc.symm⟩
  | resumeWithNewStack =>
    have hnew : ¬(((s.construct c).cos c).stackId ≠ 0 ∨ (s.construct c).main = c) := by
      rintro (hid | hm)
      · rw [construct_cos, if_pos rfl] at hid
        exact hid rfl
      · exact hc hm.symm
    have hcur : s.cur ≠ c := h.cur ▸ hc.symm
    obtain ⟨h1, h2, h3⟩ := start_starts hctx hcur
    refine ⟨_, rfl, ?_⟩
    rw [CoThread.resumeWithNewStack, if_neg hnew]
    exact ⟨h1, h2, h3⟩

/-! ## Coroutines as `reset` leaves them -/

/-- What `reset` leaves of a coroutine that has run. -/
structure IsReset (s : CoThread) (c : CoId) : Prop where
  state : (s.cos c).state = .INIT
  ctx : (s.cos c).ctx = c
  stackId : 0 < (s.cos c).stackId

theorem Placed.isReset (H : s.Placed) (hfin : s.finished c = true) (h : s.reset c = some s₁)
    (hsame : s₂.cos c = s₁.cos c) : s₂.IsReset c := by
  obtain ⟨hc, -, rfl⟩ := reset_cases h
  rw [modify_cos, if_pos rfl] at hsame
  have hne : (s.cos c).state ≠ .INIT := by
    intro hst
    rw [finished, hst] at hfin
    exact absurd hfin (by decide)
  refine ⟨by rw [hsame], by rw [hsame], ?_⟩
  rw [hsame]
  exact H.started c hc hne

theorem IsReset.resumeWithNewStack (h : s.IsReset c) : s.resumeWithNewStack c = s :=
  if_pos (.inl (Nat.pos_iff_ne_zero.mp h.stackId))

theorem IsReset.resume (h : s.IsReset c) : s.resume c = s.resumeOnStack c :=
  if_pos (.inl h.stackId)

theorem IsReset.resumeStackId (h : s.IsReset c) : s.resumeStackId c = (s.cos c).stackId :=
  if_pos h.stackId

/-- The switch saves into another context than the one it loads. -/
theorem leave_starts (hctx : (s.cos c).ctx = c) (hstate : (s.cos c).state = .EXECING)
    {r save : CoId} (hr : r ≠ c) (hsave : save ≠ c) : (s.leave r save c).Starts c := by
  refine ⟨?_, rfl, ?_⟩
  · simp only [leave, swapcontext, setState, modify_cos]
    grind
  · rw [(leave_cos s r save c).1, if_neg hr.symm]
    exact hstate

theorem switchTo_starts (hctx : (s.cos c).ctx = c) (hc : c ≠ s.main) (hcur : s.cur = s.main)
    (hback : (s.cos s.main).state = .EXECING ∨ ∃ l, (s.cos c).link = some l ∧ l ≠ c) :
    ∃ s', s.switchTo c = some s' ∧ s'.Starts c := by
  have hcos : (s.setState c .EXECING).cos c = { s.cos c with state := .EXECING } := by
    rw [setState_cos, if_pos rfl]
  have hmain : (s.setState c .EXECING).cos s.main = s.cos s.main := by
    rw [setState_cos, if_neg hc.symm]
  have hctx' : ((s.setState c .EXECING).cos c).ctx = c := by rw [hcos, hctx]
  have hstate : ((s.setState c .EXECING).cos c).state = .EXECING := by rw [hcos]
  unfold switchTo
  by_cases hm : (s.cos s.main).state = .EXECING
  · refine ⟨_, if_pos ?_, leave_starts hctx' hstate hc.symm hc.symm⟩
    change ((s.setState c .EXECING).cos s.main).state = _
    rw [hmain, hm]
  · obtain ⟨l, hlink, hl⟩ := hback.resolve_left hm
    have hlink' : ((s.setState c .EXECING).cos c).link = some l := by rw [hcos, hlink]
    have hm' : ¬((s.setState c .EXECING).cos (s.setState c .EXECING).main).state = .EXECING := by
      change ¬((s.setState c .EXECING).cos s.main).state = _
      rwa [hmain]
    dsimp only
    rw [if_neg hm', hlink']
    refine ⟨_, rfl, leave_starts hctx' hstate ?_ hl⟩
    exact hcur ▸ hc.symm

theorem IsReset.ne_main (h : s.IsReset c) (hmain : s.FromMain) : c ≠ s.main := by
  rintro rfl
  have hstate := hmain.state
  rw [h.state] at hstate
  cases hstate

/-- On a stack that exists, the coroutine is pushed unless it is on top, and the switch succeeds. -/
theorem IsReset.starts_of_stack (h : s.IsReset c) (hmain : s.FromMain) {l : List CoId}
    (hl : s.coStacks (s.cos c).stackId = some l) : ∃ s', s.resume c = some s' ∧ s'.Starts c := by
  have hc := h.ne_main hmain
  have hl' : s.coStacks (s.resumeStackId c) = some l := by rw [h.resumeStackId, hl]
  obtain ⟨hcur, -, hm, -⟩ := push_rest (s.enter c) c l
  have hpushed : ((((s.enter c).push c l).cos c).state = .INIT ∧
      (((s.enter c).push c l).cos c).ctx = c) ∧
      ((((s.enter c).push c l).cos s.main).state = .EXECING ∨
        ∃ top, (((s.enter c).push c l).cos c).link = some top ∧ top ≠ c) := by
    cases l with
    | nil =>
      have hself : (s.enter c).push c [] = s.enter c := rfl
      rw [hself]
      simp only [enter_cos, if_true, if_neg hc.symm]
      exact ⟨⟨h.state, h.ctx⟩, .inl hmain.state⟩
    | cons top l =>
      obtain ⟨h1, h2, h3, -⟩ := enter_push_cos s c top l c
      obtain ⟨h4, -, -, -⟩ := enter_push_cos s c top l s.main
      rw [h1, h2, h3, h4]
      by_cases htop : top = c
      · simp [htop, h.state, h.ctx, hmain.state]
      · simp [htop, Ne.symm htop, h.state, h.ctx]
  obtain ⟨⟨hstate, hctx⟩, hback⟩ := hpushed
  rw [h.resume, resumeOnStack_some hl', hstate, finished, hstate]
  refine switchTo_starts hctx ?_ ?_ ?_
  · rwa [hm]
  · rw [hcur, hm]
    exact hmain.cur
  · rwa [hm]

/-- **`resume` after `reset`**: from the main coroutine it starts the coroutine exactly where the
stack that it ran on still exists. -/
theorem IsReset.resume_starts_iff (h : s.IsReset c) (hmain : s.FromMain) :
    (∃ s', s.resume c = some s' ∧ s'.Starts c) ↔
      ∃ l, s.coStacks (s.cos c).stackId = some l := by
  constructor
  · rintro ⟨s', hs', hstarts⟩
    cases hl : s.coStacks (s.cos c).stackId with
    | none =>
      rw [h.resume, resumeOnStack_none (by rw [h.resumeStackId, hl])] at hs'
      cases hs'
      have hrun : s.running = c := hstarts.running
      exact absurd (hrun.symm.trans hmain.running) (h.ne_main hmain)
    | some l => exact ⟨l, rfl⟩
  · rintro ⟨l, hl⟩
    exact h.starts_of_stack hmain hl

/-- The stack that the coroutine gets is never a new one. -/
theorem IsReset.lastStackId (h : s.IsReset c) (hs' : s.resume c = some s') :
    s'.lastStackId = s.lastStackId := by
  rw [h.resume] at hs'
  rcases resumeOnStack_cases hs' with ⟨-, rfl⟩ | ⟨l, -, ⟨rfl, -⟩ | ⟨hswitch, -, -⟩⟩
  · rfl
  · exact push_lastStackId ..
  · rw [(switchTo_rest hswitch).2.2.1, push_lastStackId]
    rfl

theorem IsReset.not_runsAgain (h : s.IsReset c) {call : Starter}
    (hmain : call = .resume → s.FromMain) : ¬s.RunsAgain c call := by
  rintro ⟨s', hs', hstarts, hnew⟩
  cases call with
  | resume =>
    have hfresh := (hmain rfl).construct_resume (c := c)
    have hlast := h.lastStackId hs'
    change (s.construct c).resume c = some s' at hnew
    rw [hfresh] at hnew
    cases hnew
    change s.lastStackId + 1 = s.lastStackId at hlast
    omega
  | resumeWithNewStack =>
    change some (s.resumeWithNewStack c) = some s' at hs'
    rw [h.resumeWithNewStack] at hs'
    cases hs'
    have hstate := hstarts.state
    rw [h.state] at hstate
    cases hstate

/-- **A reset coroutine never runs again as a new one.** After any history of a thread in which the
coroutine has finished, and after its `reset`, in every state that has the coroutine as `reset` left
it: neither call does what it does for a new coroutine. `resumeWithNewStack` does nothing at all,
and `resume` from the main coroutine switches to it if and only if its old stack still exists. -/
theorem reset_never {threadId : ThreadId} {main : CoId} {s s₁ s₂ : CoThread} {c : CoId}
    (hs : Reach op Always (init threadId main) s) (hfin : s.finished c = true)
    (hreset : s.reset c = some s₁) (hsame : s₂.cos c = s₁.cos c) :
    (∀ call, (call = .resume → s₂.FromMain) → ¬s₂.RunsAgain c call) ∧
      s₂.resumeWithNewStack c = s₂ ∧
      (s₂.FromMain → ((∃ s', s₂.resume c = some s' ∧ s'.Starts c) ↔
        ∃ l, s₂.coStacks (s₂.cos c).stackId = some l)) := by
  have H : s.Placed := hs.inv (init_placed threadId main) fun H _ h => H.op h
  have hr := H.isReset hfin hreset hsame
  exact ⟨fun call hmain => hr.not_runsAgain hmain, hr.resumeWithNewStack, hr.resume_starts_iff⟩

/-- The coroutine 1 is resumed, ends and is reset. -/
theorem reset_never_one : ∃ s s₁ : CoThread, Reach op Always (init 1 0) s ∧ s.finished 1 = true ∧
    s.reset 1 = some s₁ ∧ ¬s₁.RunsAgain 1 .resumeWithNewStack := by
  obtain ⟨s, hs, hp⟩ := Reach.of_any op Always (init 1 0)
    [.step (.resume 1), .step (.finish false)]
    (fun s => s.finished 1 && (s.reset 1).isSome) (by decide)
  obtain ⟨hfin, hsome⟩ := Bool.and_eq_true_iff.mp hp
  obtain ⟨s₁, hreset⟩ := Option.isSome_iff_exists.mp hsome
  exact ⟨s, s₁, hs, hfin, hreset, (reset_never hs hfin hreset rfl).1 _ fun h => nomatch h⟩

/-- From the main coroutine, `resume` of the coroutine 1 finds no stack and comes back. -/
theorem reset_one : ¬∀ s s₁ : CoThread, Reach op Always (init 1 0) s → ∀ c, s.finished c = true →
    s.reset c = some s₁ → s₁.FromMain → s₁.RunsAgain c .resume := by
  obtain ⟨s, hs, hp⟩ := Reach.of_any op Always (init 1 0)
    [.step (.resume 1), .step (.finish false)]
    (fun s => s.finished 1 && ((s.reset 1).any fun s₁ => s₁.running = 0 && (s₁.main = 0 &&
      (s₁.cur = 0 && ((s₁.cos 0).state = .EXECING &&
        (s₁.resume 1).all fun s' => s'.running = 0))))) (by decide)
  intro hall
  simp only [Bool.and_eq_true, Option.any_eq_true, decide_eq_true_eq] at hp
  obtain ⟨hfin, s₁, hreset, hrun, hmain, hcur, hstate, hback⟩ := hp
  have hfrom : s₁.FromMain := ⟨hrun.trans hmain.symm, hcur.trans hmain.symm, hmain ▸ hstate⟩
  obtain ⟨s', hs', hstarts, -⟩ := hall s s₁ hs 1 hfin hreset hfrom
  change s₁.resume 1 = some s' at hs'
  rw [hs', Option.all_some, decide_eq_true_eq, hstarts.running] at hback
  exact absurd hback (by decide)

end Tigerkin.CoThread
