import StopTheWorld.Interrupter
import StopTheWorld.Machine.Frame
import StopTheWorld.Machine.Note
import StopTheWorld.Table

namespace StopTheWorld

/-- A thread: the procedures that it is inside of, the innermost first, and what belongs to it
alone. A thread without procedures is idle. -/
structure Thread where
  name : Option String := none
  record : RecordId := 0
  stack : List Frame := []
  /-- Set while the thread goes through the phases of a pause, of whichever manager. -/
  inPause : Bool := false
  interrupter : Interrupter Wake := {}

instance : Inhabited Thread := ⟨{}⟩

/-- A guard kept for the user: dropping it puts `saved` back as the callback of `target`. -/
structure KeptBlocker where
  tag : Tag
  target : ThreadId
  saved : Option Wake

/-- A subscription kept under a name of the user's choice. -/
structure Subscription where
  name : String
  manager : ManagerId
  key : Nat
  deriving DecidableEq

/-- Everything there is: the threads and all that they share, at one moment. -/
structure World where
  now : Nat := 0
  threads : Table ThreadId Thread := {}
  records : Table RecordId (Record Deferred) := {}
  nextRecord : RecordId := 0
  globals : Table GlobalId OwnedLock := {}
  managers : Table ManagerId Manager := {}
  phasers : Table PhaserId Phaser := {}
  registries : Table RegistryId Registry := {}
  locks : Table LockId OwnedLock := {}
  /-- What the interruptible waiters of a lock take for a pending pause. -/
  pending : Table LockId Bool := {}
  /-- The locks whose guard is kept. -/
  guards : List LockId := []
  blockers : List KeptBlocker := []
  subscriptions : List Subscription := []

namespace World

/-! Reading. -/

def thread (world : World) (thread : ThreadId) : Thread := world.threads.get thread

def interrupter (world : World) (thread : ThreadId) : Interrupter Wake :=
  (world.thread thread).interrupter

def record (world : World) (record : RecordId) : Record Deferred := world.records.get record

/-- The record that a thread has now. -/
def recordOf (world : World) (thread : ThreadId) : RecordId := (world.thread thread).record

def manager (world : World) (manager : ManagerId) : Manager := world.managers.get manager

def lock (world : World) : LockRef → OwnedLock
  | .global lock => world.globals.get lock
  | .pause manager => (world.manager manager).pauseLock
  | .loose lock => world.locks.get lock

def registry (world : World) : RegistryRef → Registry
  | .manager manager => (world.manager manager).registry
  | .loose registry => world.registries.get registry

def phaser (world : World) : PhaserRef → Phaser
  | .registry registry => (world.registry registry).phaser
  | .loose phaser => world.phasers.get phaser

def globalOwner (world : World) : Option ThreadId := (world.lock (.global 0)).owner

/-! Writing. -/

def modifyThread (world : World) (thread : ThreadId) (f : Thread → Thread) : World :=
  { world with threads := world.threads.modify thread f }

def setStack (world : World) (thread : ThreadId) (stack : List Frame) : World :=
  world.modifyThread thread fun t => { t with stack := stack }

def setInPause (world : World) (thread : ThreadId) (inPause : Bool) : World :=
  world.modifyThread thread fun t => { t with inPause := inPause }

def modifyInterrupter (world : World) (thread : ThreadId)
    (f : Interrupter Wake → Interrupter Wake) : World :=
  world.modifyThread thread fun t => { t with interrupter := f t.interrupter }

def modifyRecord (world : World) (record : RecordId)
    (f : Record Deferred → Record Deferred) : World :=
  { world with records := world.records.modify record f }

def modifyManager (world : World) (manager : ManagerId) (f : Manager → Manager) : World :=
  { world with managers := world.managers.modify manager f }

def modifyLock (world : World) (lock : LockRef) (f : OwnedLock → OwnedLock) : World :=
  match lock with
  | .global lock => { world with globals := world.globals.modify lock f }
  | .pause manager =>
    world.modifyManager manager fun m => { m with pauseLock := f m.pauseLock }
  | .loose lock => { world with locks := world.locks.modify lock f }

def modifyRegistry (world : World) (registry : RegistryRef) (f : Registry → Registry) : World :=
  match registry with
  | .manager manager =>
    world.modifyManager manager fun m => { m with registry := f m.registry }
  | .loose registry => { world with registries := world.registries.modify registry f }

def setPhaser (world : World) (phaser : PhaserRef) (value : Phaser) : World :=
  match phaser with
  | .registry registry => world.modifyRegistry registry (·.setPhaser value)
  | .loose phaser => { world with phasers := world.phasers.set phaser value }

/-! Views. A view of several things is taken at one moment. -/

def viewRecord (world : World) (record : RecordId) : RecordView :=
  let r := world.record record
  { thread := r.thread, name := r.name, status := r.status, deferred := r.deferred.length }

def viewRegistration (world : World) (entry : Registration) : RegistrationView where
  identity := entry.identity
  interrupted := (world.interrupter entry.identity).interrupted
  record := entry.record.map world.viewRecord
  interruptible := entry.interruptible

def viewRegistry (world : World) (registry : RegistryRef) : RegistryView :=
  let r := world.registry registry
  { members := r.identities, parties := r.phaser.parties }

def viewManager (world : World) (manager : ManagerId) : ManagerView :=
  let m := world.manager manager
  { epoch := m.epoch
    registry := world.viewRegistry (.manager manager)
    pausing := m.isPauseInProgress
    settings := m.settings }

/-- Whether the reason is there for which a waiter gives up. -/
def yields (world : World) : Yield → Bool
  | .never => false
  | .pending lock => world.pending.get lock
  | .staleEpoch manager => !(world.manager manager).epoch.valid

end World

/-- The outcome of a step of the top frame of a thread: the world with the stack not yet updated,
what becomes of the stack, and what is observed. -/
structure Effect where
  world : World
  control : Control
  notes : List Note := []

namespace Effect

/-- The frame goes on as another. -/
def goto (world : World) (frame : Frame) (notes : List Note := []) : Option Effect :=
  some { world, control := .goto frame, notes }

def call (world : World) (frame back : Frame) (notes : List Note := []) : Option Effect :=
  some { world, control := .call frame back, notes }

def reply (world : World) (value : Reply) (notes : List Note := []) : Option Effect :=
  some { world, control := .reply value, notes }

def unwind (world : World) (message : String) (notes : List Note := []) : Option Effect :=
  some { world, control := .unwind message, notes }

end Effect

end StopTheWorld
