import Tigerkin.Coroutine.Coherence

/-! # Turns of a loop

What the coroutine operations do in a thread whose loop resumes coroutines that have a stack of
their own each: a coroutine is resumed, yields or ends, and the loop goes on (`Turn`). The loop is
the main coroutine or the caller coroutine; a caller loop's `resume` saves into the main coroutine's
context (`CoThread.caller_saved_into_main`), which no turn loads. -/

namespace Tigerkin

/-- What says where a coroutine is resumed. -/
def Coroutine.place (x : Coroutine) : Nat × ThreadId × Option CoId :=
  (x.stackId, x.threadId, x.link)

namespace CoThread

variable {t t' : CoThread} {c r : CoId}

/-- `t'` is `t` after a switch from `r`, left in the state `st`, to `c`. -/
structure Turn (r c : CoId) (st : Coroutine.State) (t t' : CoThread) : Prop where
  running : t'.running = c
  cur : t'.cur = c
  main : t'.main = t.main
  caller : t'.caller = t.caller
  state : ∀ x, (t'.cos x).state =
    if x = c then .EXECING else if x = r then st else (t.cos x).state
  ctx : ∀ x, x ≠ t.main ∨ r = t.main ∨ c = t.main → (t.cos x).ctx = x → (t'.cos x).ctx = x

/-- Coroutines stay in their places, and so do the stacks. -/
structure Kept (t t' : CoThread) : Prop where
  place : ∀ x, (t'.cos x).place = (t.cos x).place
  lastStackId : t'.lastStackId = t.lastStackId

theorem resumeWithNewStack_turn (hid : (t.cos c).stackId = 0) (hm : c ≠ t.main)
    (hcur : t.cur = t.running) (hctx : (t.cos c).ctx = c) (hc : c ≠ t.running) :
    Turn t.running c .YIELD t (t.resumeWithNewStack c) ∧
      (t.resumeWithNewStack c).coStacks =
        Function.update t.coStacks (t.lastStackId + 1) (some [c]) ∧
      (t.resumeWithNewStack c).lastStackId = t.lastStackId + 1 ∧
      ∀ x, ((t.resumeWithNewStack c).cos x).place =
        if x = c then (t.lastStackId + 1, t.threadId, some t.main) else (t.cos x).place := by
  have h : t.resumeWithNewStack c = { (t.newStack c).start t.cur c with back := some t.cur } := by
    rw [resumeWithNewStack, if_neg]
    simp [hid, Ne.symm hm]
  rw [h, hcur]
  refine ⟨⟨?_, rfl, rfl, rfl, fun x => ?_, fun x _ hx => ?_⟩, rfl, rfl, fun x => ?_⟩ <;>
    simp only [start, newStack, swapcontext, setState, setStack, modify_cos, modify_toTls,
      Coroutine.place] <;>
    grind

theorem resume_turn (hid : 0 < (t.cos c).stackId) (hstack : t.coStacks (t.cos c).stackId = some [c])
    (hlive : (t.cos c).state ≠ .EXECING ∧ t.finished c = false)
    (hlink : (t.cos c).link = some t.main) (hctx : (t.cos c).ctx = c) (hcur : t.cur = t.running)
    (hc : c ≠ t.running) (hm : c ≠ t.main)
    (hmain : t.running = t.main ∧ (t.cos t.main).state = .EXECING ∨
      (t.cos t.main).state ≠ .EXECING) :
    ∃ t', t.resume c = some t' ∧ Turn t.running c .YIELD t t' ∧ t'.coStacks = t.coStacks ∧
      Kept t t' := by
  have hrid : t.resumeStackId c = (t.cos c).stackId := if_pos hid
  have hent : t.enter c = t := by
    simp only [enter, modify, hrid]
    rw [show { t.cos c with stackId := (t.cos c).stackId } = t.cos c from rfl,
      Function.update_eq_self]
  have hres : t.resume c = t.switchTo c := by
    rw [resume, if_pos (.inl hid), resumeOnStack_some (by rw [hrid, hstack]), hent, push_self, if_neg]
    simp [hlive]
  have hcos : ∀ x, ((t.setState c .EXECING).cos x).state =
      (if x = c then .EXECING else (t.cos x).state) ∧
      ((t.setState c .EXECING).cos x).link = (t.cos x).link ∧
      ((t.setState c .EXECING).cos x).ctx = (t.cos x).ctx ∧
      ((t.setState c .EXECING).cos x).place = (t.cos x).place := by
    intro x
    rw [setState_cos]
    simp only [Coroutine.place]
    grind
  rw [hres]
  rcases hmain with ⟨hr, he⟩ | hne
  · have hm' : ((t.setState c .EXECING).cos (t.setState c .EXECING).main).state = .EXECING := by
      change ((t.setState c .EXECING).cos t.main).state = .EXECING
      rw [(hcos t.main).1]
      grind
    refine ⟨(t.setState c .EXECING).leave t.main t.main c, if_pos hm', ?_⟩
    refine ⟨⟨?_, rfl, rfl, rfl, fun x => ?_, fun x _ hx => ?_⟩, rfl, ⟨fun x => ?_, rfl⟩⟩ <;>
      simp only [leave, swapcontext, setState, modify_cos, modify_toTls, Coroutine.place] <;>
      grind
  · have hm' : ((t.setState c .EXECING).cos (t.setState c .EXECING).main).state ≠ .EXECING := by
      change ((t.setState c .EXECING).cos t.main).state ≠ .EXECING
      rw [(hcos t.main).1]
      grind
    refine ⟨(t.setState c .EXECING).leave t.cur t.main c, ?_, ?_⟩
    · simp only [switchTo, if_neg hm']
      rw [(hcos c).2.1, hlink]
      rfl
    rw [hcur]
    refine ⟨⟨?_, rfl, rfl, rfl, fun x => ?_, fun x hx hx' => ?_⟩, rfl, ⟨fun x => ?_, rfl⟩⟩ <;>
      simp only [leave, swapcontext, setState, modify_cos, modify_toTls, Coroutine.place] <;>
      grind

theorem yield_turn (hcur : t.cur = t.running)
    (hstack : t.coStacks (t.cos t.running).stackId = some [t.running])
    (hexec : (t.cos t.running).state = .EXECING) (hctx : (t.cos t.base).ctx = t.base)
    (hb : t.base ≠ t.running) :
    Turn t.running t.base .YIELD t (t.yield t.cur) ∧ (t.yield t.cur).coStacks = t.coStacks ∧
      Kept t (t.yield t.cur) := by
  rw [hcur]
  rcases yield_eq t t.running with ⟨-, h⟩ | ⟨h, -⟩
  · exact absurd rfl (h _ hstack)
  rw [h]
  refine ⟨⟨?_, rfl, rfl, rfl, fun x => ?_, fun x _ hx => ?_⟩, rfl, ⟨fun x => ?_, rfl⟩⟩ <;>
    simp only [yieldTo, swapcontext, setState, modify_cos, modify_toTls, Coroutine.place] <;>
    grind

theorem finish_turn (except : Bool) (hm : t.running ≠ t.main)
    (hstack : t.coStacks (t.cos t.running).stackId = some [t.running])
    (hctx : (t.cos t.base).ctx = t.base) (hb : t.caller ≠ some t.running) :
    ∃ t', t.finish except = some t' ∧
      Turn t.running t.base (if except then .EXCEPT else .TERMINAL) t t' ∧
      t'.coStacks = Function.update t.coStacks (t.cos t.running).stackId none ∧ Kept t t' := by
  generalize hst : (if except then Coroutine.State.EXCEPT else .TERMINAL) = st
  have hid : ((t.setState t.running st).cos t.running).stackId = (t.cos t.running).stackId := by
    rw [setState_cos, if_pos rfl]
  have hbase : ((t.setState t.running st).setStack (t.cos t.running).stackId none).base =
      t.base := by
    change (t.setState t.running st).base = t.base
    unfold base
    rw [show (t.setState t.running st).caller = t.caller from rfl]
    cases ha : t.caller with
    | none => rfl
    | some a =>
      have hne : a ≠ t.running := by
        rintro rfl
        exact hb ha
      simp only [setState_cos, if_neg hne]
      rfl
  have hfin : t.finish except = some (t.endTo st none t.base) := by
    unfold finish
    rw [if_neg hm, hst]
    have hstack' : (t.setState t.running st).coStacks (t.cos t.running).stackId = some [t.running] :=
      hstack
    simp only [hid, hstack', hbase]
    rfl
  refine ⟨_, hfin, ⟨?_, rfl, rfl, rfl, fun x => ?_, fun x _ hx => ?_⟩, rfl, ⟨fun x => ?_, rfl⟩⟩ <;>
    simp only [endTo, setcontext, setState, modify_cos, setStack, Coroutine.place] <;>
    grind

end CoThread

end Tigerkin
