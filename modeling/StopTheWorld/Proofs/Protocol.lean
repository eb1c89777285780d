import Mathlib.Data.Finset.Card
import Mathlib.Data.Finset.Insert
import StopTheWorld.Proofs.Posture

namespace StopTheWorld

/-! The protocol of pauses: what threads do to a manager, and how it takes them from one posture to
the next. -/

/-- What the pauses of a manager depend on. -/
structure Core where
  epoch : Epoch
  owner : Option ThreadId
  action : Option (List Op)
  pauses : Nat
  members : List Registration
  phaser : Phaser

def Manager.core (manager : Manager) : Core where
  epoch := manager.epoch
  owner := manager.pauseLock.owner
  action := manager.action
  pauses := manager.statistics.pauses
  members := manager.registry.members
  phaser := manager.registry.phaser

/-- What a thread does to a manager in one step. -/
inductive Deed
  | nothing
  | take
  | free
  | claim
  | insert (entry : Registration)
  | remove
  | depart
  | store (action : List Op)
  | invalidate
  | republish
  | clear
  | account
  | arrive
  | join (drives : Bool)
  | start (record : RecordId) (thread : ThreadId)
  | decline
  | finish (drives : Bool)
  | count
  | announce (event : Event)

namespace Core

def identities (core : Core) : List ThreadId := core.members.map (·.identity)

/-- The entry of a thread. -/
def lookup (core : Core) (thread : ThreadId) : Option Registration :=
  core.members.find? (·.identity = thread)

/-- What becomes of the core when a thread does something. -/
def after (core : Core) (self : ThreadId) : Deed → Core
  | .take => { core with owner := some self }
  | .free => { core with owner := none }
  | .claim => { core with phaser := core.phaser.register }
  | .insert entry => { core with members := core.members ++ [entry] }
  | .remove => { core with members := core.members.filter (·.identity ≠ self) }
  | .depart => { core with phaser := core.phaser.depart }
  | .store action => { core with action := some action }
  | .invalidate => { core with epoch := core.epoch.invalidate }
  | .republish => { core with epoch := core.epoch.successor }
  | .clear => { core with action := none }
  | .account => { core with pauses := core.pauses + 1 }
  | .arrive => { core with phaser := core.phaser.arrive }
  | _ => core

/-- What is observed of a deed. -/
def notes (m : ManagerId) (core : Core) (self : ThreadId) : Deed → List Note
  | .take => [.took (.pause m) self]
  | .free => [.cleared (.pause m)]
  | .claim => [.registered (.registry (.manager m))]
  | .insert entry => [.inserted (.manager m) entry.identity]
  | .remove => [.removed (.manager m) self]
  | .depart =>
    .departed (.registry (.manager m)) ::
      if core.phaser.depart.phase = core.phaser.phase then []
      else [.advanced (.registry (.manager m)) core.phaser.depart.phase]
  | .invalidate => [.invalidated m core.epoch.generation]
  | .republish => [.republished m core.epoch.successor.generation]
  | .arrive =>
    .arrived (.registry (.manager m)) core.phaser.phase ::
      if core.phaser.IsLast then
        [.advanced (.registry (.manager m)) (core.phaser.phase + 1)]
      else []
  | .join drives => [.joined m drives]
  | .start record thread => [.action m record thread]
  | .finish drives => [.finished m drives]
  | .count => [.slowPoll m]
  | .announce event => [.published m event]
  | .nothing | .store _ | .clear | .account | .decline => []

end Core

/-- The note tells of a deed done to the manager. -/
def Note.tellsOf (m : ManagerId) : Note → Bool
  | took lock _ | cleared lock => lock = .pause m
  | registered phaser | departed phaser | arrived phaser _ | advanced phaser _ =>
    phaser = .registry (.manager m)
  | inserted registry _ | removed registry _ => registry = .manager m
  | invalidated n _ | republished n _ | joined n _ | action n _ _ | finished n _ | slowPoll n
  | published n _ => n = m
  | _ => false

/-- The steps of a driver that change nothing. -/
inductive Pausing.Point.Passes : Pausing.Point → Pausing.Point → Prop
  | open : Passes .open .announceStart
  | wake : Passes .wakeWaiters .interrupt
  | wakeOnly : Passes .wakeWaiters .leaveGlobal
  | interrupt : Passes .interrupt .leaveGlobal
  | leaveGlobal : Passes .leaveGlobal .enterPhases

/-- Where a participant goes on from once the arrival that begins at a point is over. -/
inductive Phases.Point.Arrives (leads : Option (List Op)) : Phases.Point → Phases.Point → Prop
  | drives (h : leads.isSome) : Arrives leads .first .republish
  | follows (h : leads = none) : Arrives leads .first .second
  | second : Arrives leads .second .choose
  | third : Arrives leads .third .finish

/-- The protocol: in one step a thread does something to the manager and goes from one posture to
another. -/
inductive Advances (core : Core) (self : ThreadId) : Posture → Deed → Posture → Prop
  | stay (posture : Posture) : Advances core self posture .nothing posture
  | announce (event : Event) : Advances core self .outside (.announce event) .outside
  -- Joining a pause.
  | heed (stale : core.epoch.valid = false) : Advances core self .outside .nothing .called
  | count : Advances core self .called .count .called
  | pass (absent : self ∉ core.identities) : Advances core self .called .nothing .outside
  | join (present : self ∈ core.identities) :
      Advances core self .called (.join false) (.meeting none .first none)
  -- The phases.
  | approach {leads : Option (List Op)} {point next : Phases.Point} (h : point.Arrives leads next) :
      Advances core self (.meeting leads point none) .nothing (.meeting leads next (some none))
  | wait {leads : Option (List Op)} {point : Phases.Point} (early : ¬ core.phaser.IsLast) :
      Advances core self (.meeting leads point (some none)) .arrive
        (.meeting leads point (some (some core.phaser.phase)))
  | complete {leads : Option (List Op)} {point : Phases.Point} (last : core.phaser.IsLast) :
      Advances core self (.meeting leads point (some none)) .arrive (.meeting leads point none)
  | wake {leads : Option (List Op)} {point : Phases.Point} {phase : Nat}
      (ended : core.phaser.phase ≠ phase) :
      Advances core self (.meeting leads point (some (some phase))) .nothing
        (.meeting leads point none)
  | republish {action : List Op} :
      Advances core self (.meeting (some action) .republish none) .republish
        (.meeting (some action) .second none)
  | start {leads : Option (List Op)} {entry : Registration} {record : RecordId} (thread : ThreadId)
      (found : core.lookup self = some entry)
      (bound : entry.record = some record) :
      Advances core self (.meeting leads .choose none) (.start record thread)
        (.meeting leads .third none)
  | decline {leads : Option (List Op)} :
      Advances core self (.meeting leads .choose none) .decline (.meeting leads .third none)
  | part : Advances core self (.meeting none .finish none) .nothing .outside
  | close {action : List Op} :
      Advances core self (.meeting (some action) .finish none) .nothing
        (.driving action .exitPhases)
  | finish (present : self ∈ core.identities) : Advances core self .outside (.finish false) .outside
  -- Driving a pause.
  | drive {action : List Op} (free : core.owner = none) (present : self ∈ core.identities) :
      Advances core self .outside .take (.driving action .open)
  | proceed {action : List Op} {point next : Pausing.Point} (h : point.Passes next) :
      Advances core self (.driving action point) .nothing (.driving action next)
  | announceStart {action : List Op} (event : Event) :
      Advances core self (.driving action .announceStart) (.announce event)
        (.driving action .store)
  | store {action : List Op} :
      Advances core self (.driving action .store) (.store action) (.driving action .invalidate)
  | invalidate {action : List Op} :
      Advances core self (.driving action .invalidate) .invalidate (.driving action .wakeWaiters)
  | lead {action : List Op} :
      Advances core self (.driving action .enterPhases) (.join true)
        (.meeting (some action) .first none)
  | conclude {action : List Op} :
      Advances core self (.driving action .exitPhases) (.finish true) (.driving action .clear)
  | clear {action : List Op} :
      Advances core self (.driving action .clear) .clear (.driving action .account)
  | account {action : List Op} :
      Advances core self (.driving action .account) .account (.driving action .unlock)
  | unlock {action : List Op} : Advances core self (.driving action .unlock) .nothing .owning
  -- The pause lock of a thread that registers, and the registry.
  | own (free : core.owner = none) : Advances core self .outside .take .owning
  | announceEntry (event : Event) : Advances core self .owning (.announce event) .owning
  | free : Advances core self .owning .free .outside
  | claim (absent : self ∉ core.identities) : Advances core self .owning .claim .claiming
  | insert {entry : Registration} (own : entry.identity = self) :
      Advances core self .claiming (.insert entry) .owning
  | remove (present : self ∈ core.identities) : Advances core self .outside .remove .departing
  | depart : Advances core self .departing .depart .outside

/-- A manager and the postures of all threads towards it. -/
structure Scene where
  core : Core
  posture : ThreadId → Posture

/-- One thread does something, and the others stay as they are. -/
structure Scene.Moves (s : Scene) (thread : ThreadId) (deed : Deed) (s' : Scene) : Prop where
  advances : Advances s.core thread (s.posture thread) deed (s'.posture thread)
  core : s'.core = s.core.after thread deed
  others : ∀ other, other ≠ thread → s'.posture other = s.posture other

def World.core (m : ManagerId) (w : World) : Core := (w.manager m).core

def World.scene (m : ManagerId) (w : World) : Scene := ⟨w.core m, w.posture m⟩

end StopTheWorld
