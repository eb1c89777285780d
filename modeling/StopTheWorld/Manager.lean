import StopTheWorld.Epoch
import StopTheWorld.Event
import StopTheWorld.EventBus
import StopTheWorld.Operation
import StopTheWorld.OwnedLock
import StopTheWorld.Registry
import StopTheWorld.Settings
import StopTheWorld.Statistics

namespace StopTheWorld

/-- What the threads that use a manager of pauses share. -/
structure Manager where
  epoch : Epoch := {}
  registry : Registry := {}
  /-- Held by the driver of a pause, and by a thread while it registers. -/
  pauseLock : OwnedLock := {}
  /-- What every participant of the pause in progress is to run. -/
  action : Option (List Op) := none
  globalLock : GlobalId := 0
  /-- Whether waiting for the global lock can be cut short by an interrupt. -/
  globalInterruptible : Bool := true
  settings : Settings := {}
  statistics : Statistics := {}
  bus : EventBus Event := {}

namespace Manager

instance : Inhabited Manager := ⟨{}⟩

def isPauseInProgress (manager : Manager) : Bool := !decide manager.pauseLock.IsFree

end Manager

end StopTheWorld
