/-! # Tasks

The identities that the scheduler, the coroutines and the I/O manager share, and
`Scheduler::Task`. -/

namespace Tigerkin

abbrev ThreadId := Nat
abbrev CoId := Nat
abbrev CbId := Nat

/-- `Scheduler::Task`. -/
structure Task where
  co : Option CoId := none
  cb : Option CbId := none
  threadId : ThreadId := 0
  deriving DecidableEq

end Tigerkin
