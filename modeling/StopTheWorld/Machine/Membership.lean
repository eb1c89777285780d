import StopTheWorld.Machine.World

namespace StopTheWorld

/-! Joining and leaving a manager. -/

namespace World

/-- The thread would have to wait for itself: it drives a pause of this manager, is registering
with it, or is inside the phases of a pause. -/
def isReentrant (w : World) (manager : ManagerId) (self : ThreadId) : Bool :=
  (w.manager manager).pauseLock.isHeldBy self || (w.thread self).inPause

def publish (w : World) (manager : ManagerId) (event : Event) : World :=
  w.modifyManager manager fun m => { m with bus := m.bus.publish event }

end World

/-- A thread that is already registered is turned away before it waits for the pause lock, since a
pause in progress may be waiting for it. -/
def Entering.advance (e : Entering) (self : ThreadId) (w : World) : Option Effect :=
  match e.point with
  | .gate =>
    if w.isReentrant e.manager self then Effect.reply w (.failed .reentrantPause)
    else Effect.goto w (.entering { e with point := .lookup })
  | .lookup =>
    if (w.manager e.manager).registry.contains self then
      Effect.reply w (.succeeded (.truth false)) [.trace (.alreadyRegistered self)]
    else Effect.goto w (.entering { e with point := .lock })
  | .lock =>
    Effect.call w (.acquisition (.begin (.pause e.manager) self .uninterruptible))
      (.entering { e with point := .enrol })
  | .enrol =>
    let entry : Registration :=
      { identity := self, record := e.record, interruptible := e.interruptible }
    Effect.call w (.enrolment { registry := .manager e.manager, entry := entry })
      (.entering { e with point := .announce })
  | .announce =>
    let unlock := Frame.entering { e with point := .unlock }
    if e.added then
      Effect.goto (w.publish e.manager (.entered self)) unlock
        [.trace (.entered self e.interruptible), .published e.manager (.entered self)]
    else Effect.goto w unlock [.trace (.alreadyRegistered self)]
  | .unlock =>
    Effect.call w (.release (.pause e.manager) .clear) (.answer (.succeeded (.truth e.added)))

/-- The poll on the way out joins a pause that has already counted on this thread. A pause that
begins after it finds one party less. -/
def Leaving.advance (l : Leaving) (self : ThreadId) (w : World) : Option Effect :=
  match l.point with
  | .gate =>
    if (w.thread self).inPause then Effect.reply w .nothing [.trace (.leaveIgnored self)]
    else Effect.goto w (.leaving { l with point := .lookup })
  | .lookup =>
    if (w.manager l.manager).registry.contains self then
      Effect.goto w (.leaving { l with point := .poll })
    else Effect.reply w .nothing
  | .poll =>
    Effect.call w (.polling { manager := l.manager, holdsGlobal := false })
      (.leaving { l with point := .withdraw })
  | .withdraw =>
    Effect.call w (.withdrawal { registry := .manager l.manager, identity := self })
      (.leaving { l with point := .announce })
  | .announce =>
    if l.left then
      Effect.reply (w.publish l.manager (.left self)) .nothing
        [.trace (.left self), .published l.manager (.left self)]
    else Effect.reply w .nothing

end StopTheWorld
