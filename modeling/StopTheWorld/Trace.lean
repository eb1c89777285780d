import StopTheWorld.Ident

namespace StopTheWorld

/-- How severe a trace event is. -/
inductive Level
  | error
  | warn
  | debug
  | trace
  deriving DecidableEq

namespace Level

def rank : Level → Nat
  | error => 0
  | warn => 1
  | debug => 2
  | trace => 3

def name : Level → String
  | error => "error"
  | warn => "warn"
  | debug => "debug"
  | trace => "trace"

/-- A log kept at some level also holds everything more severe. -/
def admits (kept level : Level) : Bool := level.rank ≤ kept.rank

end Level

/-- What an operation writes to the log of the thread it runs on. -/
inductive Trace
  | alreadyRegistered (identity : ThreadId)
  | entered (identity : ThreadId) (interruptible : Bool)
  | leaveIgnored (identity : ThreadId)
  | left (identity : ThreadId)
  | reentrantPause (driver : ThreadId)
  | pausing (driver : ThreadId) (participants : Nat)
  | slowPause (driver : ThreadId) (participants : Nat)
  | resumed (driver : ThreadId)
  | unregisteredPoll (identity : ThreadId)
  | joining (identity : ThreadId) (holdsGlobal : Bool)
  | ranDeferred (identity : ThreadId) (ran : Nat)
  | foreignLeave (thread : ThreadId) (owner : Option ThreadId)
  deriving DecidableEq

/-- The value of a field of a trace event. -/
inductive Trace.Value
  | truth (value : Bool)
  | count (value : Nat)
  | thread (value : ThreadId)
  | owner (value : Option ThreadId)

namespace Trace

def level : Trace → Level
  | reentrantPause _ => .error
  | leaveIgnored _ | slowPause _ _ | unregisteredPoll _ | foreignLeave _ _ => .warn
  | joining _ _ | ranDeferred _ _ => .trace
  | alreadyRegistered _ | entered _ _ | left _ | pausing _ _ | resumed _ => .debug

def message : Trace → String
  | alreadyRegistered _ => "thread already registered"
  | entered _ _ => "thread entered safepoint manager"
  | leaveIgnored _ => "leave_thread called from inside a pause; ignored"
  | left _ => "thread left safepoint manager"
  | reentrantPause _ => "re-entrant safepoint pause"
  | pausing _ _ => "pausing all threads"
  | slowPause _ _ => "slow safepoint pause"
  | resumed _ => "all threads resumed"
  | unregisteredPoll _ => "safepoint poll from an unregistered thread"
  | joining _ _ => "joining safepoint"
  | ranDeferred _ _ => "ran deferred safepoint actions"
  | foreignLeave _ _ => "leaving a global lock the thread does not hold"

def fields : Trace → List (String × Value)
  | alreadyRegistered identity | leaveIgnored identity | left identity
  | unregisteredPoll identity => [("identity", .thread identity)]
  | entered identity interruptible =>
    [("identity", .thread identity), ("interruptible", .truth interruptible)]
  | reentrantPause driver | resumed driver => [("driver", .thread driver)]
  | pausing driver participants | slowPause driver participants =>
    [("driver", .thread driver), ("participants", .count participants)]
  | joining identity holds =>
    [("identity", .thread identity), ("holds_global_lock", .truth holds)]
  | ranDeferred identity ran => [("identity", .thread identity), ("ran", .count ran)]
  | foreignLeave thread owner => [("thread", .thread thread), ("owner", .owner owner)]

end Trace

end StopTheWorld
