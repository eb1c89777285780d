import StopTheWorld.Ident

namespace StopTheWorld

/-- What a manager tells its subscribers. -/
inductive Event
  | entered (thread : ThreadId)
  | left (thread : ThreadId)
  | pauseStarted (driver : ThreadId)
  | pauseCompleted (driver : ThreadId) (participants : Nat) (duration : Nat)
  deriving DecidableEq

/-- The thread an event names. -/
def Event.thread : Event → ThreadId
  | entered thread => thread
  | left thread => thread
  | pauseStarted driver => driver
  | pauseCompleted driver _ _ => driver

end StopTheWorld
