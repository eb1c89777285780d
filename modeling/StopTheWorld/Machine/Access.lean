import StopTheWorld.Machine.Barrier
import StopTheWorld.Machine.Interrupting
import StopTheWorld.Machine.Locking

namespace StopTheWorld

/-! Operations of a single step. -/

namespace World

/-- Gives up the receiver of a subscription. -/
def unsubscribe (w : World) (name : String) : World :=
  match w.subscriptions.find? (·.name = name) with
  | none => w
  | some s =>
    { w.modifyManager s.manager fun m => { m with bus := m.bus.dropReceiver s.key } with
      subscriptions := w.subscriptions.filter (·.name ≠ name) }

/-- A new subscription takes the place of one of the same name. -/
def subscribe (w : World) (manager : ManagerId) (name : String) : World :=
  let w := w.unsubscribe name
  let (bus, key) := (w.manager manager).bus.subscribe
  { w.modifyManager manager fun m => { m with bus := bus } with
    subscriptions := w.subscriptions ++ [{ name := name, manager := manager, key := key }] }

/-- The record bound to a thread when it registered. -/
def boundRecord? (w : World) (manager : ManagerId) (thread : ThreadId) : Option RecordId :=
  ((w.manager manager).registry.get? thread).bind (·.record)

def renewRecord (w : World) (thread : ThreadId) : World :=
  let fresh : Record Deferred := { thread := thread, name := (w.thread thread).name }
  { w.modifyThread thread fun t => { t with record := w.nextRecord } with
    records := w.records.set w.nextRecord fresh
    nextRecord := w.nextRecord + 1 }

end World

/-- An access that names no thread is about the one that performs it. -/
def Access.advance (access : Access) (self : ThreadId) (w : World) : Option Effect :=
  let whom (thread : Option ThreadId) : ThreadId := thread.getD self
  match access with
  | .observe manager thread =>
    let m := w.manager manager
    Effect.reply w <| .observation
      { self := self
        registered := m.registry.identities
        generation := m.epoch.generation
        pausing := m.isPauseInProgress
        globalOwner := w.globalOwner
        isRegistered := m.registry.contains (whom thread)
        record := (w.boundRecord? manager (whom thread)).map w.viewRecord }
  | .isRegistered manager thread =>
    Effect.reply w (.truth ((w.manager manager).registry.contains (whom thread)))
  | .managedThread manager thread =>
    Effect.reply w <| .managed <| (w.boundRecord? manager (whom thread)).map fun record =>
      (w.viewRecord record, decide (record = w.recordOf (whom thread)))
  | .settings manager => Effect.reply w (.settings (w.manager manager).settings)
  | .statistics manager => Effect.reply w (.statistics (w.manager manager).statistics)
  | .describeManager manager => Effect.reply w (.managerText (w.viewManager manager))
  | .subscribe manager name => Effect.reply (w.subscribe manager name) .nothing
  | .unsubscribe name =>
    Effect.reply (w.unsubscribe name) (.truth (w.subscriptions.any (·.name = name)))
  | .globalTryEnter lock owner =>
    let ref := LockRef.global lock
    if (w.lock ref).IsOpen then
      if (w.lock ref).IsFree then
        Effect.reply (w.modifyLock ref (·.take (whom owner))) (.truth true)
          [.took ref (whom owner)]
      else Effect.reply w (.truth false)
    else none
  | .globalLeave lock owner =>
    (w.leaveGlobal lock (whom owner)).bind fun (w, notes) =>
      Effect.reply w (.thread (whom owner)) notes
  | .globalHeldBy lock thread =>
    Effect.reply w (.truth ((w.lock (.global lock)).isHeldBy (whom thread)))
  | .globalOwner lock => Effect.reply w (.owner (w.lock (.global lock)).owner)
  | .phaserRegister phaser =>
    let p := w.phaser (.loose phaser)
    Effect.reply (w.setPhaser (.loose phaser) p.register) (.count p.phase)
      [.registered (.loose phaser)]
  | .phaserDepart phaser =>
    match w.depart (.loose phaser) with
    | .error message => Effect.unwind w message
    | .ok (w, phase, notes) => Effect.reply w (.count phase) notes
  | .phaserState phaser => Effect.reply w (.phaser (w.phaser (.loose phaser)))
  | .setPending lock pending =>
    Effect.reply { w with pending := w.pending.set lock pending } .nothing
  | .registryGet registry thread =>
    Effect.reply w <| .registration <|
      ((w.registry (.loose registry)).get? (whom thread)).map w.viewRegistration
  | .registryContains registry thread =>
    Effect.reply w (.truth ((w.registry (.loose registry)).contains (whom thread)))
  | .describeRegistry registry =>
    Effect.reply w (.registryText (w.viewRegistry (.loose registry)))
  | .describeRegistration registry thread =>
    Effect.reply w <| .registrationText <|
      ((w.registry (.loose registry)).get? (whom thread)).map w.viewRegistration
  | .take thread =>
    Effect.reply (w.modifyInterrupter (whom thread) (·.lower))
      (.truth (w.interrupter (whom thread)).interrupted)
  | .isInterrupted thread => Effect.reply w (.truth (w.interrupter (whom thread)).interrupted)
  | .check thread =>
    let (w, reply) := w.checkInterrupt (whom thread)
    Effect.reply w reply
  | .unblock tag =>
    match w.blockers.find? (·.tag = tag) with
    | none => Effect.reply w (.truth false)
    | some guard =>
      Effect.reply
        { w.modifyInterrupter guard.target (·.install guard.saved) with
          blockers := w.blockers.eraseP (·.tag = tag) }
        (.truth true)
  | .currentInterrupter thread => Effect.reply w (.interrupter self (self = whom thread))
  | .describeInterrupter thread =>
    Effect.reply w (.interrupterText (whom thread) (w.interrupter (whom thread)).interrupted)
  | .setStatus thread status =>
    Effect.reply (w.modifyRecord (w.recordOf (whom thread)) (·.setStatus status)) .nothing
  | .record thread => Effect.reply w (.record (w.viewRecord (w.recordOf (whom thread))))
  | .describeRecord thread =>
    Effect.reply w (.recordText (w.viewRecord (w.recordOf (whom thread))))
  | .freshRecord =>
    let old := w.recordOf self
    let fresh := w.nextRecord
    let next := w.renewRecord self
    Effect.reply next <|
      .renewed (fresh = old) (fresh = fresh) ((next.record fresh).thread = (w.record old).thread)

end StopTheWorld
