import StopTheWorld.Ident

namespace StopTheWorld

/-- Why an operation on a manager or on an interruptible wait was refused. -/
inductive Failure
  /-- The caller is itself inside the pause that it would have to wait for. -/
  | reentrantPause
  /-- The token at hand is no longer that of the current epoch. -/
  | epochInvalidated
  /-- The wait was cut short by an interrupt, or for the sake of a pending pause. -/
  | interrupted
  /-- The thread is not a member of the registry. -/
  | notRegistered (thread : ThreadId)
  deriving DecidableEq

namespace Failure

/-- A fatal failure is an error in the caller's logic; trying again cannot help. -/
def isFatal : Failure → Bool
  | reentrantPause => true
  | _ => false

def kind : Failure → String
  | reentrantPause => "ReentrantPause"
  | epochInvalidated => "EpochInvalidated"
  | interrupted => "Interrupted"
  | notRegistered _ => "NotRegistered"

def message (nameOf : ThreadId → String) : Failure → String
  | reentrantPause => "safepoint manager re-entered by the thread driving the current pause"
  | epochInvalidated => "epoch token has been invalidated"
  | interrupted => "blocking operation was interrupted"
  | notRegistered thread => "thread " ++ nameOf thread ++ " is not registered for safepoints"

/-- The kind, followed by the thread it names, if any. -/
def describe (nameOf : ThreadId → String) : Failure → String
  | notRegistered thread => "NotRegistered(" ++ nameOf thread ++ ")"
  | failure => failure.kind

theorem isFatal_iff (failure : Failure) : failure.isFatal = true ↔ failure = reentrantPause := by
  cases failure <;> simp [isFatal]

end Failure

end StopTheWorld
