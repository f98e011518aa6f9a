import Tigerkin.Coroutine.Refusal

/-! # Coroutines of several threads

The coroutine objects and `s_stack_id` are shared, the thread-local variables are not. A thread gets
its main coroutine with its first coroutine, or with its first `GetThis`. Each operation is one
step of a thread. -/

namespace Tigerkin

structure World where
  cos : CoId → Coroutine := fun c => { ctx := c }
  /-- How many coroutines have been constructed. -/
  made : Nat := 0
  /-- The main coroutines, those without `m_stack`, and the thread of each. -/
  mainOf : CoId → Option ThreadId := fun _ => none
  lastStackId : Nat := 0
  /-- The thread-local variables, from when `t_main_co` is set. -/
  threads : ThreadId → Option Tls := fun _ => none

namespace World

/-- What a thread does with coroutines. -/
inductive Act where
  | getThis
  | construct
  | resume (c : CoId)
  | resumeWithNewStack (c : CoId)
  | resumeStack (stackId : Nat)
  | yield (c : CoId)
  | finish (except : Bool)
  | reset (c : CoId)

/-- The coroutines as a thread sees them. -/
def thread (w : World) (t : ThreadId) (x : Tls) : CoThread :=
  { toTls := x, threadId := t, cos := w.cos, lastStackId := w.lastStackId }

/-- What a thread's operation leaves. -/
def setThread (w : World) (t : ThreadId) (s : CoThread) : World :=
  { w with
    cos := s.cos
    lastStackId := s.lastStackId
    threads := Function.update w.threads t (some s.toTls) }

/-- `Coroutine::Coroutine()`, unless the thread has its main coroutine. -/
def withMain (w : World) (t : ThreadId) : World :=
  match w.threads t with
  | some _ => w
  | none =>
    { w with
      cos := Function.update w.cos w.made { ctx := w.made, state := .EXECING }
      made := w.made + 1
      mainOf := Function.update w.mainOf w.made (some t)
      threads := Function.update w.threads t
        (some { main := w.made, cur := w.made, running := w.made }) }

/-- `Coroutine::Coroutine(cb, stackSize)`. -/
def construct (w : World) (t : ThreadId) : World :=
  let w := w.withMain t
  { w with
    cos := Function.update w.cos w.made { ctx := w.made }
    made := w.made + 1 }

/-- `Coroutine::reset`; a main coroutine has no `m_stack`. -/
def reset (w : World) (c : CoId) : Option World :=
  if (w.mainOf c).isSome then none
  else if (w.cos c).state = .INIT ∨ (w.cos c).state = .TERMINAL ∨ (w.cos c).state = .EXCEPT then
    some { w with
      cos := Function.update w.cos c
        { w.cos c with ctx := c, link := none, state := .INIT } }
  else none

/-- An operation of a thread that has its main coroutine. -/
def run (w : World) (t : ThreadId) (x : Tls) (a : CoThread.Op) : Option World :=
  ((w.thread t x).op a).map (w.setThread t)

/-- One operation of a thread. Without a main coroutine the stacks are empty: `yield` is refused, and
`resume` too if it does not look at `t_cur_co`, which is null. -/
def step (w : World) : ThreadId × Act → Option World
  | (t, .getThis) => some (w.withMain t)
  | (t, .construct) => some (w.construct t)
  | (_, .reset c) => if c < w.made then w.reset c else none
  | (t, .resume c) =>
    if c < w.made then
      match w.threads t with
      | some x => w.run t x (.step (.resume c))
      | none => if 0 < (w.cos c).stackId then some w else none
    else none
  | (t, .resumeWithNewStack c) =>
    if c < w.made then
      match w.threads t with
      | some x => w.run t x (.step (.resumeWithNewStack c))
      | none => if (w.cos c).stackId ≠ 0 then some w else none
    else none
  | (t, .resumeStack stackId) => (w.threads t).bind fun x => w.run t x (.resumeStack stackId)
  | (t, .yield c) =>
    if c < w.made then
      match w.threads t with
      | some x => w.run t x (.step (.yield c))
      | none => some w
    else none
  | (t, .finish except) =>
    (w.threads t).bind fun x =>
      if (w.mainOf x.running).isSome then none else w.run t x (.step (.finish except))

/-- The code of the coroutine runs on the thread. -/
def Runs (w : World) (t : ThreadId) (c : CoId) : Prop := ∃ x ∈ w.threads t, x.running = c

/-- Another thread's main coroutine. -/
def Foreign (w : World) (t : ThreadId) (c : CoId) : Prop := ∃ u ∈ w.mainOf c, u ≠ t

/-- `resume` looks for the stack of `t_cur_co`, and this does not exist. -/
def NoStack (w : World) (x : Tls) : Prop :=
  ((w.cos x.cur).state = .EXECING ∧ x.cur ≠ x.main) ∧ x.coStacks (w.cos x.cur).stackId = none

/-- The guard that a thread takes no other thread's main coroutine on a stack of its own: `resume`
does so for one without an id, on a new stack or on the stack of `t_cur_co` if that exists. -/
def OwnMain (w : World) : ThreadId × Act → Prop
  | (t, .resume c) => w.Foreign t c → 0 < (w.cos c).stackId ∨ ∃ x ∈ w.threads t, w.NoStack x
  | (t, .resumeWithNewStack c) => w.Foreign t c → 0 < (w.cos c).stackId
  | _ => True

instance (w : World) (t : ThreadId) (c : CoId) : Decidable (w.Runs t c) :=
  decidable_of_iff ((w.threads t).any (·.running = c) = true) (by simp [Runs, Option.any_eq_true])

instance (w : World) (t : ThreadId) (c : CoId) : Decidable (w.Foreign t c) :=
  decidable_of_iff ((w.mainOf c).any (· ≠ t) = true) (by simp [Foreign, Option.any_eq_true])

instance (w : World) (x : Tls) : Decidable (w.NoStack x) :=
  inferInstanceAs (Decidable (_ ∧ _))

instance (w : World) (t : ThreadId) : Decidable (∃ x ∈ w.threads t, w.NoStack x) :=
  decidable_of_iff ((w.threads t).any (fun x => w.NoStack x) = true)
    (by simp [Option.any_eq_true])

instance (w : World) (a : ThreadId × Act) : Decidable (w.OwnMain a) := by
  unfold OwnMain
  split <;> infer_instance

end World

end Tigerkin
