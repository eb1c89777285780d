import StopTheWorld.Ident

namespace StopTheWorld

/-- What a thread is doing, as its runtime sees it. -/
inductive Status
  | run
  | sleep
  | aborting
  | dead
  deriving DecidableEq, Inhabited

def Status.describe : Status → String
  | run => "Run"
  | sleep => "Sleep"
  | aborting => "Aborting"
  | dead => "Dead"

/-- The runtime record of a thread, with the actions queued for it. Only the thread itself runs
them, the whole queue at a time. -/
structure Record (α : Type) where
  thread : ThreadId := 0
  name : Option String := none
  status : Status := .run
  deferred : List α := []

namespace Record

variable {α : Type}

instance : Inhabited (Record α) := ⟨{}⟩

/-- An aborting thread takes part in pauses but runs no pause action. -/
def isAborting (record : Record α) : Bool := record.status = .aborting

def setStatus (record : Record α) (status : Status) : Record α := { record with status := status }

def defer (record : Record α) (action : α) : Record α :=
  { record with deferred := record.deferred ++ [action] }

/-- What is left of the record when its queue has been taken. Actions queued from now on belong to
the next drain. -/
def drained (record : Record α) : Record α := { record with deferred := [] }

@[simp] theorem defer_deferred (record : Record α) (action : α) :
    (record.defer action).deferred = record.deferred ++ [action] := rfl

@[simp] theorem drained_deferred (record : Record α) : record.drained.deferred = [] := rfl

@[simp] theorem setStatus_deferred (record : Record α) (status : Status) :
    (record.setStatus status).deferred = record.deferred := rfl

end Record

end StopTheWorld
