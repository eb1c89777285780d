import StopTheWorld.Failure
import StopTheWorld.Record

namespace StopTheWorld

/-! What threads can be told to do. A thread that is not named is the one that performs the
operation. -/

/-- One call of the action that an interruptible blocking operation tries until it is not
interrupted any more. -/
inductive Attempt
  | succeed
  | sleep
  | nap
  | park
  | check
  | interruptSelf
  | unwind
  | reentrantPause
  | epochInvalidated
  | interrupted
  | notRegistered
  deriving DecidableEq

/-- An operation that is over after a single access to what threads share. -/
inductive Access
  /-- Several views of a manager and of the first global lock, taken by a pause action. -/
  | observe (manager : ManagerId) (thread : Option ThreadId)
  | isRegistered (manager : ManagerId) (thread : Option ThreadId)
  | managedThread (manager : ManagerId) (thread : Option ThreadId)
  | settings (manager : ManagerId)
  | statistics (manager : ManagerId)
  | describeManager (manager : ManagerId)
  | subscribe (manager : ManagerId) (name : String)
  | unsubscribe (name : String)
  | globalTryEnter (lock : GlobalId) (owner : Option ThreadId)
  | globalLeave (lock : GlobalId) (owner : Option ThreadId)
  | globalHeldBy (lock : GlobalId) (thread : Option ThreadId)
  | globalOwner (lock : GlobalId)
  | phaserRegister (phaser : PhaserId)
  | phaserDepart (phaser : PhaserId)
  | phaserState (phaser : PhaserId)
  /-- Sets what the interruptible waiters of a lock take for a pending pause, and wakes none. -/
  | setPending (lock : LockId) (pending : Bool)
  | registryGet (registry : RegistryId) (thread : Option ThreadId)
  | registryContains (registry : RegistryId) (thread : Option ThreadId)
  | describeRegistry (registry : RegistryId)
  | describeRegistration (registry : RegistryId) (thread : Option ThreadId)
  | take (thread : Option ThreadId)
  | isInterrupted (thread : Option ThreadId)
  | check (thread : Option ThreadId)
  /-- Drops the oldest guard kept under the tag, which puts back the callback it keeps. -/
  | unblock (tag : Tag)
  | currentInterrupter (thread : Option ThreadId)
  | describeInterrupter (thread : Option ThreadId)
  | setStatus (thread : Option ThreadId) (status : Status)
  | record (thread : Option ThreadId)
  | describeRecord (thread : Option ThreadId)
  /-- Gives the thread a new record; whatever holds the old one goes on holding it. -/
  | freshRecord
  deriving DecidableEq

/-- An operation. Those that take a script run it through whoever comes to it. -/
inductive Op
  | access (access : Access)
  | log (tag : Tag)
  | unwind (message : String)
  | seq (ops : List Op)
  | replicate (times : Nat) (op : Op)
  /-- In a script, an operation for some threads only. -/
  | only (threads : List ThreadId) (op : Op)
  | enter (manager : ManagerId)
  | enterWith (manager : ManagerId) (managed interruptible : Bool)
  | leave (manager : ManagerId)
  | poll (manager : ManagerId)
  | pollFree (manager : ManagerId)
  | acquire (manager : ManagerId)
  | release (manager : ManagerId)
  | pause (manager : ManagerId) (action : List Op)
  | pauseWith (manager : ManagerId) (holdsGlobal : Bool) (action : List Op)
  | pauseForeign (manager : ManagerId) (action : List Op)
  | runBlocking (manager : ManagerId) (holdsGlobal : Bool) (attempts : List Attempt)
  | defer (thread : Option ThreadId) (tag : Tag) (script : List Op)
  | deferLookup (manager : ManagerId) (thread : Option ThreadId) (tag : Tag) (script : List Op)
  | globalEnter (lock : GlobalId) (owner : Option ThreadId)
  | globalEnterInterruptibly (lock : GlobalId) (owner interrupter : Option ThreadId)
  | phaserArrive (phaser : PhaserId)
  | lock (lock : LockId)
  | lockInterruptibly (lock : LockId) (interrupter : Option ThreadId)
  /-- Drops the guard of the lock, whoever obtained it. -/
  | unlock (lock : LockId)
  | wakeWaiters (lock : LockId)
  | register (registry : RegistryId) (thread record : Option ThreadId) (interruptible : Bool)
  | deregister (registry : RegistryId) (thread : Option ThreadId)
  | visit (registry : RegistryId) (interrupt : Bool)
  | registryArrive (registry : RegistryId)
  | interrupt (thread : Option ThreadId)
  | sleep (span : Nat)
  | park
  | blockOn (thread : Option ThreadId) (tag : Tag) (script : List Op)

/-- The callback of an interrupter. -/
inductive Wake
  /-- Wakes everybody who waits for a lock. -/
  | notify (lock : LockRef)
  | script (tag : Tag) (ops : List Op)

/-- An action queued on a record. -/
structure Deferred where
  tag : Tag
  script : List Op

/-- The operation is left out by this thread when it comes up in a script. -/
def Op.skippedBy (thread : ThreadId) : Op → Bool
  | only threads _ => !threads.contains thread
  | _ => false

/-- What an operation is once it is known to be for the thread at hand. -/
def Op.unguarded : Op → Op
  | only _ op => op
  | op => op

/-- Marks in a log leave no trace of their result. -/
def Op.isSilent (op : Op) : Bool :=
  match op.unguarded with
  | log _ => true
  | _ => false

def Attempt.failure? (self : ThreadId) : Attempt → Option Failure
  | reentrantPause => some .reentrantPause
  | epochInvalidated => some .epochInvalidated
  | interrupted => some .interrupted
  | notRegistered => some (.notRegistered self)
  | _ => none

end StopTheWorld
