import StopTheWorld.Ident

namespace StopTheWorld

/-- A lock with a recorded owner, built from a critical section and a waiting room.

The owner is whoever took the lock last and has not given it back. `inside` is the thread that is
in the critical section between two of its steps; a section of a single step needs no mark. A
thread in `waiting` sleeps until somebody notifies the waiting room. -/
structure OwnedLock where
  owner : Option ThreadId := none
  inside : Option ThreadId := none
  waiting : List ThreadId := []
  deriving DecidableEq, Inhabited

namespace OwnedLock

/-- Nobody owns the lock. -/
def IsFree (lock : OwnedLock) : Prop := lock.owner = none

/-- The critical section can be entered. -/
def IsOpen (lock : OwnedLock) : Prop := lock.inside = none

instance (lock : OwnedLock) : Decidable lock.IsFree :=
  inferInstanceAs (Decidable (lock.owner = none))

instance (lock : OwnedLock) : Decidable lock.IsOpen :=
  inferInstanceAs (Decidable (lock.inside = none))

def isHeldBy (lock : OwnedLock) (thread : ThreadId) : Bool := decide (lock.owner = some thread)

def take (lock : OwnedLock) (owner : ThreadId) : OwnedLock := { lock with owner := some owner }

def clear (lock : OwnedLock) : OwnedLock := { lock with owner := none }

def notify (lock : OwnedLock) : OwnedLock := { lock with waiting := [] }

def enter (lock : OwnedLock) (thread : ThreadId) : OwnedLock := { lock with inside := some thread }

def exit (lock : OwnedLock) : OwnedLock := { lock with inside := none }

/-- Going to sleep opens the critical section in the same instant. -/
def await (lock : OwnedLock) (thread : ThreadId) : OwnedLock :=
  { lock with inside := none, waiting := lock.waiting ++ [thread] }

/-- Wakes one thread without a reason, as waiting rooms may. -/
def rouse (lock : OwnedLock) (thread : ThreadId) : OwnedLock :=
  { lock with waiting := lock.waiting.filter (· ≠ thread) }

/-- The lock is given back, and the waiting room told, if `thread` owns it. -/
def leave (lock : OwnedLock) (thread : ThreadId) : OwnedLock :=
  if lock.owner = some thread then lock.clear.notify else lock

@[simp] theorem take_owner (lock : OwnedLock) (owner : ThreadId) :
    (lock.take owner).owner = some owner := rfl

@[simp] theorem clear_owner (lock : OwnedLock) : lock.clear.owner = none := rfl

@[simp] theorem notify_owner (lock : OwnedLock) : lock.notify.owner = lock.owner := rfl

@[simp] theorem enter_owner (lock : OwnedLock) (thread : ThreadId) :
    (lock.enter thread).owner = lock.owner := rfl

@[simp] theorem exit_owner (lock : OwnedLock) : lock.exit.owner = lock.owner := rfl

@[simp] theorem await_owner (lock : OwnedLock) (thread : ThreadId) :
    (lock.await thread).owner = lock.owner := rfl

/-- Giving back a lock that somebody else owns changes nothing. -/
theorem leave_eq_self {lock : OwnedLock} {thread : ThreadId} (h : lock.owner ≠ some thread) :
    lock.leave thread = lock := if_neg h

end OwnedLock

end StopTheWorld
