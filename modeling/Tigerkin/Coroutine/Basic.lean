import Mathlib.Logic.Function.Basic
import Tigerkin.Scheduler.Task
import Tigerkin.Std.Run

/-! # Coroutines of a thread

`Coroutine` of `coroutine.cpp`, as one thread sees it: the coroutine objects, the thread-local
variables and the stacks of coroutines. A saved `ucontext_t` is a token: the coroutine whose
continuation it holds; a context made by `makecontext` holds the coroutine's own. `running` is the
coroutine whose code is running, and `saves` lists what `swapcontext` saved: the coroutine whose
`m_ctx` was written, and the one whose continuation went there. -/

namespace Tigerkin

namespace Coroutine

inductive State where
  | INIT | YIELD | READY | EXECING | TERMINAL | EXCEPT
  deriving DecidableEq

end Coroutine

open Coroutine

structure Coroutine where
  state : State := .INIT
  stackId : Nat := 0
  threadId : ThreadId := 0
  /-- `m_ctx.uc_link`, by the coroutine whose `m_ctx` it points to. -/
  link : Option CoId := none
  /-- `m_ctx`. -/
  ctx : CoId

/-- The thread-local variables. -/
structure Tls where
  /-- `t_main_co`. -/
  main : CoId
  /-- `t_cur_co`. -/
  cur : CoId
  /-- `t_back_co`. -/
  back : Option CoId := none
  /-- `t_caller_co`. -/
  caller : Option CoId := none
  /-- `t_map_co_stack`; the top comes first. -/
  coStacks : Nat → Option (List CoId) := fun _ => none
  running : CoId

structure CoThread extends Tls where
  threadId : ThreadId
  cos : CoId → Coroutine
  /-- `s_stack_id`. -/
  lastStackId : Nat := 0
  saves : List (CoId × CoId) := []

namespace CoThread

def modify (s : CoThread) (c : CoId) (f : Coroutine → Coroutine) : CoThread :=
  { s with cos := Function.update s.cos c (f (s.cos c)) }

def setState (s : CoThread) (c : CoId) (state : State) : CoThread :=
  s.modify c fun x => { x with state }

def setStack (s : CoThread) (stackId : Nat) (l : Option (List CoId)) : CoThread :=
  { s with coStacks := Function.update s.coStacks stackId l }

/-- `swapcontext(&save->m_ctx, &load->m_ctx)`. -/
def swapcontext (s : CoThread) (save load : CoId) : CoThread :=
  let s := s.modify save fun x => { x with ctx := s.running }
  { s with running := (s.cos load).ctx, saves := s.saves ++ [(save, s.running)] }

/-- `setcontext(&load->m_ctx)`. -/
def setcontext (s : CoThread) (load : CoId) : CoThread :=
  { s with running := (s.cos load).ctx }

/-- The coroutine is `TERMINAL` or `EXCEPT`. -/
def finished (s : CoThread) (c : CoId) : Bool :=
  (s.cos c).state = .TERMINAL || (s.cos c).state = .EXCEPT

/-- The stack a coroutine is resumed on: its own one, or the one of the current coroutine. -/
def resumeStackId (s : CoThread) (c : CoId) : Nat :=
  if 0 < (s.cos c).stackId then (s.cos c).stackId else (s.cos s.cur).stackId

/-- `resume` pushes a coroutine that is not on top of its stack. -/
def push (s : CoThread) (c : CoId) : List CoId → CoThread
  | [] => s
  | top :: l =>
    if top ≠ c then
      let s := s.setState top .YIELD
      let s := s.modify c fun x => { x with link := some top, threadId := s.threadId }
      s.setStack (s.cos c).stackId (some (c :: top :: l))
    else s

/-- `r->m_state = YIELD; SetThis(c); swapcontext(&save->m_ctx, &c->m_ctx)`. -/
def leave (s : CoThread) (r save c : CoId) : CoThread :=
  { s.setState r .YIELD with cur := c }.swapcontext save c

/-- The switch of `resume` to a coroutine that is on top of its stack. Without a `uc_link` the
process ends. -/
def switchTo (s : CoThread) (c : CoId) : Option CoThread :=
  let s := s.setState c .EXECING
  if (s.cos s.main).state = .EXECING then some (s.leave s.main s.main c)
  else (s.cos c).link.map fun l => s.leave s.cur l c

/-- The branches of `resume` that use a stack that exists already. -/
def resumeOnStack (s : CoThread) (c : CoId) : Option CoThread :=
  let s := s.modify c fun x => { x with stackId := s.resumeStackId c }
  match s.coStacks (s.cos c).stackId with
  | none => some s
  | some coStack =>
    let s := s.push c coStack
    -- The coroutine is already resumed, or already exited.
    if (s.cos c).state = .EXECING || s.finished c then some s
    else s.switchTo c

/-- A stack of its own for a coroutine, which returns to the main coroutine. -/
def newStack (s : CoThread) (c : CoId) : CoThread :=
  let id := s.lastStackId + 1
  let s := s.modify c fun x =>
    { x with link := some s.main, threadId := s.threadId, stackId := id }
  { s.setStack id (some [c]) with lastStackId := id }

/-- The switch from `r` to a coroutine on a new stack. -/
def start (s : CoThread) (r c : CoId) : CoThread :=
  ({ s.setState r .YIELD with cur := c }.setState c .EXECING).swapcontext r c

/-- `Coroutine::resume`; `swapcontext` does not fail. -/
def resume (s : CoThread) (c : CoId) : Option CoThread :=
  if 0 < (s.cos c).stackId ∨ (s.cos s.cur).state = .EXECING ∧ s.cur ≠ s.main then
    s.resumeOnStack c
  else some ((s.newStack c).start s.main c)

/-- `Coroutine::resumeWithNewStack`. -/
def resumeWithNewStack (s : CoThread) (c : CoId) : CoThread :=
  if (s.cos c).stackId ≠ 0 ∨ s.main = c then s
  else { (s.newStack c).start s.cur c with back := some s.cur }

/-- Where `yield` and the end of a coroutine without a stack parent return to. -/
def base (s : CoThread) : CoId :=
  match s.caller with
  | some a => if (s.cos a).state = .YIELD then a else s.main
  | none => s.main

/-- `Coroutine::yield`. -/
def yield (s : CoThread) (c : CoId) : CoThread :=
  match s.coStacks (s.cos c).stackId with
  | some (top :: _) =>
    if c ≠ top then s
    else
      let next := s.base
      let s := { s with cur := next }
      let s := s.setState c (if (s.cos c).state = .EXECING then .YIELD else (s.cos c).state)
      let s := s.setState next .EXECING
      s.swapcontext c next
  | _ => s

/-- The end of `Coroutine::MainFunc` in the running coroutine, normal or by an exception. The main
coroutine has no `MainFunc`, and `at` of a stack that does not exist ends the process. -/
def finish (s : CoThread) (except : Bool) : Option CoThread :=
  let c := s.running
  if c = s.main then none
  else
    let s := s.setState c (if except then .EXCEPT else .TERMINAL)
    match s.coStacks (s.cos c).stackId with
    | some [_] =>
      let s := s.setStack (s.cos c).stackId none
      let s := { s with cur := s.base }
      some ((s.setState s.cur .EXECING).setcontext s.cur)
    | some (_ :: top :: l) =>
      let s := s.setStack (s.cos c).stackId (some (top :: l))
      let s := { s with cur := top }
      some ((s.setState s.cur .EXECING).setcontext s.cur)
    | _ => none

/-- What the running code does with coroutines. -/
inductive Step where
  | resume (c : CoId)
  | resumeWithNewStack (c : CoId)
  | yield (c : CoId)
  | finish (except : Bool)
  | setCallerCo (c : CoId)
  | delCallerCo
  deriving DecidableEq

def step (s : CoThread) : Step → Option CoThread
  | .resume c => s.resume c
  | .resumeWithNewStack c => some (s.resumeWithNewStack c)
  | .yield c => some (s.yield c)
  | .finish except => s.finish except
  | .setCallerCo c => some { s with caller := some c }
  | .delCallerCo => some { s with caller := none }

/-- A thread with its main coroutine; every other coroutine is new. -/
def init (threadId : ThreadId) (main : CoId) : CoThread where
  threadId := threadId
  main := main
  cur := main
  running := main
  cos c := { ctx := c, state := if c = main then .EXECING else .INIT }

end CoThread

end Tigerkin
