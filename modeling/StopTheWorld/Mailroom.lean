import StopTheWorld.EventBus

namespace StopTheWorld

/-- A bus together with the names under which receivers are kept. Two names may share a
subscription. -/
structure Mailroom (ε : Type) where
  bus : EventBus ε := {}
  names : List (String × Nat) := []

namespace Mailroom

variable {ε : Type}

instance : Inhabited (Mailroom ε) := ⟨{}⟩

def key? (room : Mailroom ε) (name : String) : Option Nat := room.names.lookup name

/-- Gives up the receiver kept under a name, if there is one. -/
def drop (room : Mailroom ε) (name : String) : Mailroom ε :=
  match room.key? name with
  | none => room
  | some key =>
    { bus := room.bus.dropReceiver key, names := room.names.filter (·.1 ≠ name) }

/-- Keeps a receiver under a name, in the place of the one kept there before. -/
def keep (room : Mailroom ε) (name : String) (key : Nat) : Mailroom ε :=
  let room := room.drop name
  { room with names := room.names ++ [(name, key)] }

def subscribe (room : Mailroom ε) (name : String) : Mailroom ε :=
  let (bus, key) := room.bus.subscribe
  { room with bus := bus }.keep name key

def clone (room : Mailroom ε) (name new : String) : Mailroom ε :=
  match room.key? name with
  | none => room
  | some key => { room with bus := room.bus.cloneReceiver key }.keep new key

def publish (room : Mailroom ε) (event : ε) : Mailroom ε :=
  { room with bus := room.bus.publish event }

def take (room : Mailroom ε) (name : String) : Option ε × Mailroom ε :=
  match room.key? name with
  | none => (none, room)
  | some key =>
    let (event, bus) := room.bus.take key
    (event, { room with bus := bus })

def drain (room : Mailroom ε) (name : String) : List ε × Mailroom ε :=
  match room.key? name with
  | none => ([], room)
  | some key =>
    let (events, bus) := room.bus.drain key
    (events, { room with bus := bus })

def size (room : Mailroom ε) (name : String) : Nat :=
  match room.key? name with
  | none => 0
  | some key => (room.bus.queued key).length

end Mailroom

end StopTheWorld
