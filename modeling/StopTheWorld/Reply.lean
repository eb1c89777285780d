import StopTheWorld.Epoch
import StopTheWorld.Phaser
import StopTheWorld.Record
import StopTheWorld.Settings
import StopTheWorld.Statistics

namespace StopTheWorld

/-- A record as others see it. -/
structure RecordView where
  thread : ThreadId
  name : Option String
  status : Status
  deferred : Nat
  deriving DecidableEq

/-- An entry of a registry as others see it. -/
structure RegistrationView where
  identity : ThreadId
  interrupted : Bool
  record : Option RecordView
  interruptible : Bool
  deriving DecidableEq

/-- A registry as others see it. -/
structure RegistryView where
  members : List ThreadId
  parties : Nat
  deriving DecidableEq

/-- A manager as others see it. -/
structure ManagerView where
  epoch : Epoch
  registry : RegistryView
  pausing : Bool
  settings : Settings
  deriving DecidableEq

/-- What a pause action can find out about its surroundings. -/
structure Observation where
  self : ThreadId
  registered : List ThreadId
  generation : Nat
  pausing : Bool
  globalOwner : Option ThreadId
  isRegistered : Bool
  record : Option RecordView
  deriving DecidableEq

/-- What an operation tells its caller. -/
inductive Reply
  | nothing
  | truth (value : Bool)
  | count (value : Nat)
  | word (value : String)
  | thread (thread : ThreadId)
  | owner (thread : Option ThreadId)
  | threads (threads : List ThreadId)
  | replies (replies : List Reply)
  | succeeded (reply : Reply)
  | failed (failure : Failure)
  /-- The operation did not return: it unwound with this message. -/
  | unwound (message : String)
  | phaser (phaser : Phaser)
  | settings (settings : Settings)
  | statistics (statistics : Statistics)
  | observation (observation : Observation)
  | registration (entry : Option RegistrationView)
  | record (record : RecordView)
  /-- The record bound to a thread, and whether it is still the thread's own. -/
  | managed (entry : Option (RecordView × Bool))
  | interrupter (thread : ThreadId) (same : Bool)
  /-- Of a fresh record: is it the old one, is its copy the same record, is its thread the same. -/
  | renewed (sameRecord sameCopy sameThread : Bool)
  | managerText (view : ManagerView)
  | registryText (view : RegistryView)
  | registrationText (view : Option RegistrationView)
  | interrupterText (thread : ThreadId) (interrupted : Bool)
  | recordText (view : RecordView)

instance : Inhabited Reply := ⟨.nothing⟩

end StopTheWorld
