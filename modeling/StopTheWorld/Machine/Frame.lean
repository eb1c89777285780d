import StopTheWorld.Manager
import StopTheWorld.Reply

namespace StopTheWorld

/-! Procedures in progress. A thread performs an operation by a stack of frames, one for each
procedure that it is inside of. A frame holds the procedure's locals and the point it has reached;
the frame on top is about to take the step of its point, each frame below waits for the one above
it and goes on from its point when that one is done.

A step is one access to what threads share, or several between which nothing that others do would
show. -/

/-- What makes an interruptible waiter give up besides its own interrupt. -/
inductive Yield
  | never
  | pending (lock : LockId)
  | staleEpoch (manager : ManagerId)
  deriving DecidableEq

/-- Whether a wait for an owned lock can be cut short, through whose interrupter, and what else
ends it. -/
inductive Patience
  | uninterruptible
  | interruptible (interrupter : ThreadId) (yields : Yield)
  deriving DecidableEq

inductive Acquisition.Point
  /-- Installs the callback that wakes the waiting room. -/
  | install
  /-- Enters the critical section and takes the lock if it is free. -/
  | test
  /-- In the critical section of a lock that is owned: looks at the interrupter's flag. -/
  | checkFlag
  | checkYield
  /-- Leaves the critical section for the waiting room. -/
  | await
  /-- Puts back the callback found at `install`. -/
  | restore (acquired : Bool)
  deriving DecidableEq

/-- Taking an owned lock. -/
structure Acquisition where
  lock : LockRef
  owner : ThreadId
  patience : Patience
  saved : Option Wake := none
  point : Acquisition.Point

/-- An acquisition at its beginning; one that cannot be interrupted needs no callback. -/
def Acquisition.begin (lock : LockRef) (owner : ThreadId) (patience : Patience) : Acquisition where
  lock := lock
  owner := owner
  patience := patience
  point := match patience with
    | .uninterruptible => .test
    | .interruptible _ _ => .install

/-- Giving up the guard of a pause lock: the owner is cleared first and the waiting room notified
after that. -/
inductive Release.Point
  | clear
  | notify
  deriving DecidableEq

/-- Arriving at a phaser, and once arrived waiting for the recorded phase to be over. -/
structure Arrival where
  phaser : PhaserRef
  recorded : Option Nat := none

inductive Interruption.Point
  | raise
  | look
  | unpark
  deriving DecidableEq

/-- Interrupting a thread: its flag is raised before its callback runs, and it is unparked last. -/
structure Interruption where
  target : ThreadId
  point : Interruption.Point := .raise

inductive Sleeping.Point
  | begin
  | check
  | look
  | doze
  deriving DecidableEq

/-- Sleeping until a deadline or an interrupt, whichever is first. -/
structure Sleeping where
  span : Nat
  deadline : Nat := 0
  point : Sleeping.Point := .begin

inductive Parking.Point
  | check
  | parked
  | recheck
  deriving DecidableEq

inductive Enrolment.Point
  | claim
  | insert
  deriving DecidableEq

/-- Adding an entry to a registry. -/
structure Enrolment where
  registry : RegistryRef
  entry : Registration
  point : Enrolment.Point := .claim

inductive Withdrawal.Point
  | remove
  | depart
  deriving DecidableEq

/-- Removing an entry from a registry. -/
structure Withdrawal where
  registry : RegistryRef
  identity : ThreadId
  removed : Option RegistrationView := none
  point : Withdrawal.Point := .remove

inductive Visit.Point
  | begin
  | next
  /-- Goes on from a member that has been interrupted. -/
  | release (identity : ThreadId)
  /-- Goes on from a member whose callback unwound, and out of the visit. -/
  | abandon (identity : ThreadId) (message : String)
  deriving DecidableEq

/-- Going through the interruptible members of a registry, one excepted, and interrupting each if
so desired. A member is held while it is interrupted. -/
structure Visit where
  registry : RegistryRef
  except : Option ThreadId := none
  interrupt : Bool
  todo : List ThreadId := []
  seen : List ThreadId := []
  point : Visit.Point := .begin

/-- Running a script: the operation just done, with its reply, and those that are left. -/
structure Script where
  last : Option (Op × Reply) := none
  rest : List Op

/-- Running operations for the list of their replies, which is kept with the last one first. -/
structure Sequence where
  replies : List Reply := []
  rest : List Op

inductive Drain.Point
  | take
  | run
  deriving DecidableEq

/-- Running the actions queued on a record. The queue is taken as a whole. -/
structure Drain where
  record : RecordId
  queue : List Deferred := []
  ran : Nat := 0
  point : Drain.Point := .take

inductive Phases.Point
  | first
  | republish
  | second
  | choose
  | third
  | finish
  deriving DecidableEq

/-- The three phases of a pause, as one participant goes through them: everybody has stopped; the
driver has published a fresh epoch; everybody has run the action. -/
structure Phases where
  manager : ManagerId
  record : Option RecordId
  drives : Bool
  /-- How the action unwound on this thread. -/
  outcome : Option String := none
  point : Phases.Point := .first

inductive Resuming.Point
  | reacquire
  | settle
  | drained
  deriving DecidableEq

/-- Coming back from the phases of a pause: the global lock is taken again if it was left, an
unwound action goes on unwinding, and otherwise the deferred actions run. -/
structure Resuming where
  manager : ManagerId
  record : Option RecordId
  holdsGlobal : Bool
  outcome : Option String
  ran : Nat := 0
  point : Resuming.Point := .reacquire

inductive Polling.Point
  | check
  | count
  | lookup
  | leaveGlobal
  | enterPhases
  | exitPhases
  deriving DecidableEq

/-- A safepoint check, which joins the pause in progress if there is one. -/
structure Polling where
  manager : ManagerId
  holdsGlobal : Bool
  record : Option RecordId := none
  outcome : Option String := none
  point : Polling.Point := .check

inductive Entering.Point
  | gate
  | lookup
  | lock
  | enrol
  | announce
  | unlock
  deriving DecidableEq

/-- Registering the thread itself with a manager. -/
structure Entering where
  manager : ManagerId
  record : Option RecordId
  interruptible : Bool
  added : Bool := false
  point : Entering.Point := .gate

inductive Leaving.Point
  | gate
  | lookup
  | poll
  | withdraw
  | announce
  deriving DecidableEq

/-- Deregistering the thread itself from a manager, after joining any pause that waits for it. -/
structure Leaving where
  manager : ManagerId
  left : Bool := false
  point : Leaving.Point := .gate

inductive Pausing.Point
  | gate
  | lookup
  | lock
  /-- The wait for the pause lock was cut short: joins the pause it was cut short for. -/
  | poll
  | open
  | announceStart
  | store
  | invalidate
  | wakeWaiters
  | interrupt
  | leaveGlobal
  | enterPhases
  | exitPhases
  | clear
  | account
  | unlock
  | announceEnd
  | resume
  /-- A callback unwound while the pause lock was held. -/
  | abandon
  deriving DecidableEq

/-- Driving a pause. -/
structure Pausing where
  manager : ManagerId
  holdsGlobal : Bool
  action : List Op
  record : Option RecordId := none
  started : Nat := 0
  participants : Nat := 0
  duration : Nat := 0
  outcome : Option String := none
  point : Pausing.Point := .gate

inductive Foreign.Point
  | register
  | pause
  | leave
  /-- Leaves on the way out of a pause that unwound. -/
  | abandon
  deriving DecidableEq

/-- Driving a pause from a thread that is registered for the duration of the call only. -/
structure Foreign where
  manager : ManagerId
  action : List Op
  added : Bool := false
  reply : Reply := .nothing
  message : String := ""
  point : Foreign.Point := .register

inductive Acquiring.Point
  | enter
  | poll
  | done
  deriving DecidableEq

/-- Taking the global lock of a manager, joining pauses meanwhile. -/
structure Acquiring where
  manager : ManagerId
  point : Acquiring.Point := .enter

inductive Blocking.Point
  | release
  | attempt
  | judge
  | reacquire
  deriving DecidableEq

/-- Trying a blocking action outside the global lock until it ends other than by an interrupt. -/
structure Blocking where
  manager : ManagerId
  holdsGlobal : Bool
  attempts : List Attempt
  made : Nat := 0
  reply : Reply := .nothing
  point : Blocking.Point := .release

inductive Trial.Point
  | log
  | act
  | check
  deriving DecidableEq

/-- One attempt at the blocking action. -/
structure Trial where
  number : Nat
  how : Attempt
  point : Trial.Point := .log

inductive Frame
  /-- An operation about to begin. -/
  | start (op : Op)
  /-- Replies whatever comes back from above. -/
  | answer (reply : Reply)
  /-- Replies nothing on success, and a failure as it is. -/
  | discard
  /-- Replies the word on success, and a failure as it is. -/
  | word (word : String)
  /-- Unwinds whatever comes back from above. -/
  | rethrow (message : String)
  /-- Keeps the guard of a lock just taken, and replies; a failure is replied as it is. -/
  | keepGuard (lock : LockId) (reply : Reply)
  | acquisition (acquisition : Acquisition)
  | release (lock : LockRef) (point : Release.Point)
  | notify (lock : LockRef)
  | arrival (arrival : Arrival)
  | interruption (interruption : Interruption)
  | sleeping (sleeping : Sleeping)
  | parking (point : Parking.Point)
  | enrolment (enrolment : Enrolment)
  | withdrawal (withdrawal : Withdrawal)
  | visit (visit : Visit)
  | script (script : Script)
  | sequence (sequence : Sequence)
  | drain (drain : Drain)
  | phases (phases : Phases)
  | resuming (resuming : Resuming)
  | polling (polling : Polling)
  | entering (entering : Entering)
  | leaving (leaving : Leaving)
  | pausing (pausing : Pausing)
  | foreign (foreign : Foreign)
  | acquiring (acquiring : Acquiring)
  | blocking (blocking : Blocking)
  | trial (trial : Trial)

instance : Inhabited Frame := ⟨.answer .nothing⟩

/-- What becomes of the stack after a step of its top frame. -/
inductive Control
  /-- The frame goes on as another. -/
  | goto (frame : Frame)
  /-- A frame is put on top, and this one goes on from `back` when that one is done. -/
  | call (frame back : Frame)
  /-- The frame is done. -/
  | reply (reply : Reply)
  /-- The frame unwinds. -/
  | unwind (message : String)

namespace Frame

/-- How a waiting frame takes up the reply of the frame above it. A frame that does not care for
the reply goes on from its point as it is. -/
def resume (frame : Frame) (reply : Reply) : Frame :=
  match frame, reply with
  | discard, .succeeded _ => answer (.succeeded .nothing)
  | discard, reply => answer reply
  | word w, .succeeded _ => answer (.succeeded (.word w))
  | word _, reply => answer reply
  | keepGuard _ _, .failed failure => answer (.failed failure)
  | script s, reply =>
    script { s with last := s.last.map fun entry => (entry.1, reply) }
  | sequence s, reply => sequence { s with replies := reply :: s.replies }
  | phases p, .unwound message => phases { p with outcome := some message }
  | polling p, .unwound message => polling { p with outcome := some message }
  | pausing p, .unwound message => pausing { p with outcome := some message }
  | pausing p, .failed _ => pausing { p with point := .poll }
  | resuming r, .count ran => resuming { r with ran := ran }
  | entering e, .truth added => entering { e with added := added }
  | leaving l, .registration entry => leaving { l with left := entry.isSome }
  | foreign f, reply =>
    match f.point, reply with
    | .pause, .failed failure => answer (.failed failure)
    | .pause, .succeeded (.truth added) => foreign { f with added := added }
    | _, reply => foreign { f with reply := reply }
  | acquiring a, .failed _ => acquiring { a with point := .poll }
  | blocking b, reply => blocking { b with reply := reply }
  | frame, _ => frame

/-- What a waiting frame does about an unwinding from above: a visit releases the member that it
stands at, a rendezvous keeps the message until its phases are over, the driver of a pause gives the
pause lock back, and a thread registered for one call deregisters. Any other frame is dropped. -/
def catch? (frame : Frame) (message : String) : Option Frame :=
  match frame with
  | visit v =>
    match v.point with
    | .release identity => some (visit { v with point := .abandon identity message })
    | _ => none
  | phases p =>
    if p.point = .third then some (phases { p with outcome := some message }) else none
  | pausing p =>
    if p.point = .leaveGlobal then some (pausing { p with point := .abandon, outcome := some message })
    else none
  | foreign f =>
    if f.point = .leave ∧ f.added then some (foreign { f with point := .abandon, message := message })
    else none
  | _ => none

/-- The stack left by an unwinding that starts above it. -/
def unwind (message : String) : List Frame → List Frame
  | [] => []
  | frame :: rest =>
    match frame.catch? message with
    | some handler => handler :: rest
    | none => unwind message rest

end Frame

end StopTheWorld
