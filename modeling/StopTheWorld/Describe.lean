import StopTheWorld.Reply
import StopTheWorld.Text.Quoted

namespace StopTheWorld

/-! How values are written for a reader. Threads are written by the names given for them. -/

def Epoch.describe (epoch : Epoch) : String :=
  Text.fields "EpochToken"
    [("generation", toString epoch.generation), ("valid", Text.bool epoch.valid)]

def Settings.describe (settings : Settings) : String :=
  Text.fields "SafepointConfig"
    [("interrupt_blocked_threads", Text.bool settings.interruptBlocked),
      ("slow_pause_threshold", Text.optional (settings.slowThreshold.map Duration.describe))]

/-- The members in the order of their names. -/
def RegistryView.describe (nameOf : ThreadId → String) (view : RegistryView) : String :=
  let names := (view.members.map nameOf).mergeSort (fun a b => decide (a ≤ b))
  Text.fields "ThreadRegistry"
    [("threads", Text.list names), ("parties", toString view.parties)]

def ManagerView.describe (nameOf : ThreadId → String) (view : ManagerView) : String :=
  Text.fields "SafepointManager"
    [("epoch", view.epoch.describe), ("registry", view.registry.describe nameOf),
      ("pause_in_progress", Text.bool view.pausing), ("config", view.settings.describe)]

def Interrupter.describe (thread : String) (interrupted : Bool) : String :=
  Text.fields "Interrupter" [("thread", thread), ("interrupted", Text.bool interrupted)]

def RecordView.describe (nameOf : ThreadId → String) (view : RecordView) : String :=
  Text.fields "ManagedThread"
    [("id", nameOf view.thread), ("name", Text.optional (view.name.map Text.quote)),
      ("status", view.status.describe)]

def RegistrationView.describe (nameOf : ThreadId → String) (view : RegistrationView) : String :=
  Text.fields "RegisteredThread"
    [("interrupter", Interrupter.describe (nameOf view.identity) view.interrupted),
      ("managed", Text.optional (view.record.map (·.describe nameOf))),
      ("interruptible", Text.bool view.interruptible)]

end StopTheWorld
