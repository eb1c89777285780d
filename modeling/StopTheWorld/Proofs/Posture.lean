import StopTheWorld.Machine.Step

namespace StopTheWorld

/-! Where a thread stands with regard to the pauses of a manager, read off its stack. -/

/-- What a thread is doing about the pauses of a manager. -/
inductive Posture
  /-- It takes part in no pause and has nothing that a pause depends on. -/
  | outside
  /-- It has seen the epoch invalidated and is on its way to the pause. -/
  | called
  /-- It owns the pause lock while no pause is under way. -/
  | owning
  /-- It owns the pause lock and is registering: its party is counted, its entry not yet there. -/
  | claiming
  /-- It is deregistering: its entry is gone, its party still counted. -/
  | departing
  /-- It drives a pause with this action, and is not in the phases of it. -/
  | driving (action : List Op) (point : Pausing.Point)
  /-- It is in the phases of a pause, which it drives if it leads with an action. The point is the
  one it goes on from. `arrival` is there while it is at the phaser: with the phase recorded once it
  has arrived. -/
  | meeting (leads : Option (List Op)) (point : Phases.Point) (arrival : Option (Option Nat))

/-- From the taking of the pause lock until just before its release. -/
def Pausing.Point.drives : Pausing.Point → Bool
  | gate | lookup | lock | poll | announceEnd | resume => false
  | _ => true

/-- The driver is yet to come out of the phases, and counts on being registered. -/
def Pausing.Point.relies : Pausing.Point → Bool
  | gate | lookup | clear | account | unlock | announceEnd | resume | abandon => false
  | _ => true

/-- The poll has seen the epoch invalidated and has not reached the phases. -/
def Polling.Point.isCalled : Polling.Point → Bool
  | check | exitPhases => false
  | _ => true

/-- The poll counts on the thread being registered. -/
def Polling.Point.relies : Polling.Point → Bool
  | leaveGlobal | enterPhases | exitPhases => true
  | _ => false

/-- From the taking of the pause lock until just before its release. -/
def Entering.Point.owns : Entering.Point → Bool
  | gate | lookup | lock => false
  | _ => true

namespace Frame

/-- What a frame makes of the posture that comes from the frames below it. User code changes
nothing, so that an operation within a pause action still is in the phases. -/
def posture (m : ManagerId) (frame : Frame) (below : Posture) : Posture :=
  match frame with
  | arrival a =>
    match below with
    | .meeting leads point none =>
      if a.phaser = .registry (.manager m) then .meeting leads point (some a.recorded) else below
    | _ => below
  | phases p =>
    match below with
    | .driving action _ => .meeting (some action) p.point none
    | _ => .meeting none p.point none
  | pausing p => if p.point.drives then .driving p.action p.point else below
  | polling p => if p.point.isCalled then .called else below
  | entering e => if e.point.owns then .owning else below
  | acquisition a => if a.lock = .pause m ∧ a.point ≠ .restore true then .outside else below
  | release lock point => if lock = .pause m ∧ point = .clear then .owning else below
  | enrolment e => if e.registry = .manager m ∧ e.point = .insert then .claiming else below
  | withdrawal x => if x.registry = .manager m ∧ x.point = .depart then .departing else below
  | _ => below

section Others

/-! Frames about the locks, phasers and registries of others. -/

variable {m : ManagerId}

theorem posture_arrival {a : Arrival} (other : a.phaser ≠ .registry (.manager m))
    (below : Posture) : (arrival a).posture m below = below := by
  cases below with
  | meeting leads point arrival =>
    cases arrival with
    | none => exact if_neg other
    | some => rfl
  | _ => rfl

theorem posture_acquisition {a : Acquisition} (other : a.lock ≠ .pause m) (below : Posture) :
    (acquisition a).posture m below = below :=
  if_neg fun bound => other bound.1

theorem posture_release {lock : LockRef} {point : Release.Point} (other : lock ≠ .pause m)
    (below : Posture) : (release lock point).posture m below = below :=
  if_neg fun bound => other bound.1

theorem posture_enrolment {e : Enrolment} (other : e.registry ≠ .manager m) (below : Posture) :
    (enrolment e).posture m below = below :=
  if_neg fun bound => other bound.1

theorem posture_withdrawal {x : Withdrawal} (other : x.registry ≠ .manager m) (below : Posture) :
    (withdrawal x).posture m below = below :=
  if_neg fun bound => other bound.1

end Others

/-- The frame has set the mark of being inside the phases, and will take it down. -/
def marks : Frame → Bool
  | polling p => p.point = .exitPhases
  | pausing p => p.point = .exitPhases
  | _ => false

/-- Above this frame runs a callback. -/
def isInterruption : Frame → Bool
  | interruption _ => true
  | _ => false

def isPausing : Frame → Bool
  | pausing _ => true
  | _ => false

def isPhases : Frame → Bool
  | phases _ => true
  | _ => false

/-- The record under which the frame counts on its thread being registered, if it does. -/
def bond? : Frame → Option (Option RecordId)
  | pausing p => if p.point.relies then some p.record else none
  | polling p => if p.point.relies then some p.record else none
  | _ => none

end Frame

/-- The posture of a thread with this stack. -/
def posture (m : ManagerId) : List Frame → Posture
  | [] => .outside
  | frame :: rest => frame.posture m (posture m rest)

def isMarked (stack : List Frame) : Bool := stack.any (·.marks)

def inCallback (stack : List Frame) : Bool := stack.any (·.isInterruption)

def bonds (stack : List Frame) : List (Option RecordId) := stack.filterMap (·.bond?)

@[simp] theorem posture_nil (m : ManagerId) : posture m [] = .outside := rfl

@[simp] theorem posture_cons (m : ManagerId) (frame : Frame) (rest : List Frame) :
    posture m (frame :: rest) = frame.posture m (posture m rest) := rfl

@[simp] theorem isMarked_nil : isMarked [] = false := rfl

@[simp] theorem isMarked_cons (frame : Frame) (rest : List Frame) :
    isMarked (frame :: rest) = (frame.marks || isMarked rest) := rfl

@[simp] theorem inCallback_nil : inCallback [] = false := rfl

@[simp] theorem inCallback_cons (frame : Frame) (rest : List Frame) :
    inCallback (frame :: rest) = (frame.isInterruption || inCallback rest) := rfl

@[simp] theorem bonds_nil : bonds [] = [] := rfl

@[simp] theorem bonds_cons (frame : Frame) (rest : List Frame) :
    bonds (frame :: rest) = frame.bond?.toList ++ bonds rest := by
  cases h : frame.bond? <;> simp [bonds, h]

namespace World

def stack (w : World) (thread : ThreadId) : List Frame := (w.thread thread).stack

def posture (m : ManagerId) (w : World) (thread : ThreadId) : Posture :=
  StopTheWorld.posture m (w.stack thread)

end World

end StopTheWorld
