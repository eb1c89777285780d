import StopTheWorld.Manager
import StopTheWorld.Reply
import StopTheWorld.Trace

namespace StopTheWorld

/-- What can be observed of a step. The first group is what user code and the log of a thread show;
the second marks the accesses to what threads share that the meaning of a run depends on. -/
inductive Note
  | log (tag : Tag)
  /-- A pause action starts, given this record. -/
  | action (manager : ManagerId) (record : RecordId) (thread : ThreadId)
  /-- A deferred action starts, with this thread owning the first global lock. -/
  | deferred (record : RecordId) (tag : Tag) (globalOwner : Option ThreadId)
  /-- A callback starts. -/
  | wake (tag : Tag)
  /-- An operation of a script returned. -/
  | returned (op : Op) (reply : Reply)
  /-- An attempt of a blocking operation starts, with this thread owning the first global lock. -/
  | attempt (number : Nat) (how : Attempt) (globalOwner : Option ThreadId)
  | trace (trace : Trace)
  /-- The operation that the thread was told to perform is over. -/
  | completed (reply : Reply)
  | took (lock : LockRef) (owner : ThreadId)
  | cleared (lock : LockRef)
  | notified (lock : LockRef)
  | registered (phaser : PhaserRef)
  | departed (phaser : PhaserRef)
  | arrived (phaser : PhaserRef) (phase : Nat)
  | advanced (phaser : PhaserRef) (phase : Nat)
  | inserted (registry : RegistryRef) (identity : ThreadId)
  | removed (registry : RegistryRef) (identity : ThreadId)
  | interrupted (target : ThreadId)
  | slowPoll (manager : ManagerId)
  | joined (manager : ManagerId) (drives : Bool)
  | finished (manager : ManagerId) (drives : Bool)
  | invalidated (manager : ManagerId) (generation : Nat)
  | republished (manager : ManagerId) (generation : Nat)
  | published (manager : ManagerId) (event : Event)
  | queued (record : RecordId) (tag : Tag)
  | drained (record : RecordId) (taken : Nat)

end StopTheWorld
