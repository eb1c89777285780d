namespace StopTheWorld

/-- A subscription as the bus sees it: the number of its live receivers and the events that none of
them has taken yet. All its receivers take from the one queue. -/
structure Channel (ε : Type) where
  key : Nat
  receivers : Nat := 1
  queue : List ε := []

/-- A fan-out of events to subscriptions. Nothing is dropped: a queue has no bound, and a
subscription goes away only at the first event that finds it without receivers. -/
structure EventBus (ε : Type) where
  channels : List (Channel ε) := []
  next : Nat := 0

namespace Channel

variable {ε : Type}

def isLive (channel : Channel ε) : Bool := 0 < channel.receivers

def push (channel : Channel ε) (event : ε) : Channel ε :=
  { channel with queue := channel.queue ++ [event] }

end Channel

namespace EventBus

variable {ε : Type}

instance : Inhabited (EventBus ε) := ⟨{}⟩

/-- A new subscription with one receiver, which is known by the key returned. -/
def subscribe (bus : EventBus ε) : EventBus ε × Nat :=
  ({ channels := bus.channels ++ [{ key := bus.next }], next := bus.next + 1 }, bus.next)

def publish (bus : EventBus ε) (event : ε) : EventBus ε :=
  { bus with channels := (bus.channels.filter (·.isLive)).map (·.push event) }

/-- Changes one subscription and no other. -/
def onChannel (bus : EventBus ε) (key : Nat) (f : Channel ε → Channel ε) : EventBus ε :=
  { bus with
    channels := bus.channels.map fun channel => if channel.key = key then f channel else channel }

/-- One receiver more for a subscription. -/
def cloneReceiver (bus : EventBus ε) (key : Nat) : EventBus ε :=
  bus.onChannel key fun channel => { channel with receivers := channel.receivers + 1 }

/-- One receiver less; with the last one go the events it has not taken. -/
def dropReceiver (bus : EventBus ε) (key : Nat) : EventBus ε :=
  bus.onChannel key fun channel =>
    { channel with
      receivers := channel.receivers - 1
      queue := if channel.receivers ≤ 1 then [] else channel.queue }

/-- The events waiting for the receivers of a subscription, oldest first. -/
def queued (bus : EventBus ε) (key : Nat) : List ε :=
  match bus.channels.find? (·.key = key) with
  | none => []
  | some channel => channel.queue

/-- The oldest event, taken off the queue. -/
def take (bus : EventBus ε) (key : Nat) : Option ε × EventBus ε :=
  ((bus.queued key).head?,
    bus.onChannel key fun channel => { channel with queue := channel.queue.tail })

def drain (bus : EventBus ε) (key : Nat) : List ε × EventBus ε :=
  (bus.queued key, bus.onChannel key fun channel => { channel with queue := [] })

/-- The keys of the subscriptions that the bus still knows. -/
def subscribers (bus : EventBus ε) : List Nat := bus.channels.map (·.key)

/-- Publishing keeps exactly the subscriptions with a receiver. -/
theorem subscribers_publish (bus : EventBus ε) (event : ε) :
    (bus.publish event).subscribers = (bus.channels.filter (·.isLive)).map (·.key) := by
  simp [publish, subscribers, Channel.push, Function.comp_def]

@[simp] theorem publish_next (bus : EventBus ε) (event : ε) :
    (bus.publish event).next = bus.next := rfl

end EventBus

end StopTheWorld
