import StopTheWorld.Machine.Locking
import StopTheWorld.Machine.Membership

namespace StopTheWorld

/-! Driving a pause. -/

/-- The order of the steps matters. The action is stored before the epoch is invalidated, so that
whoever sees the invalidation finds it. The epoch is invalidated before anybody is woken or
interrupted, so that a woken thread joins the pause instead of waiting again. The pause lock is
given back before the global lock is taken again, since whoever owns the global lock may be waiting
for the pause lock. -/
def Pausing.advance (p : Pausing) (self : ThreadId) (w : World) : Option Effect :=
  let manager := w.manager p.manager
  let next (point : Pausing.Point) := Frame.pausing { p with point := point }
  match p.point with
  | .gate =>
    if w.isReentrant p.manager self then
      Effect.reply w (.failed .reentrantPause) [.trace (.reentrantPause self)]
    else Effect.goto w (next .lookup)
  | .lookup =>
    match manager.registry.get? self with
    | none => Effect.reply w (.failed (.notRegistered self))
    | some entry => Effect.goto w (.pausing { p with record := entry.record, point := .lock })
  | .lock =>
    let patience := Patience.interruptible self (.staleEpoch p.manager)
    Effect.call w (.acquisition (.begin (.pause p.manager) self patience)) (next .open)
  | .poll =>
    Effect.call w (.polling { manager := p.manager, holdsGlobal := p.holdsGlobal }) (next .lock)
  | .open =>
    let participants := manager.registry.size
    Effect.goto w
      (.pausing { p with started := w.now, participants := participants, point := .announceStart })
      [.trace (.pausing self participants)]
  | .announceStart =>
    Effect.goto (w.publish p.manager (.pauseStarted self)) (next .store)
      [.published p.manager (.pauseStarted self)]
  | .store =>
    Effect.goto (w.modifyManager p.manager fun m => { m with action := some p.action })
      (next .invalidate)
  | .invalidate =>
    Effect.goto (w.modifyManager p.manager fun m => { m with epoch := m.epoch.invalidate })
      (next .wakeWaiters) [.invalidated p.manager manager.epoch.generation]
  | .wakeWaiters =>
    let after := if manager.settings.interruptBlocked then Pausing.Point.interrupt else .leaveGlobal
    Effect.call w (.notify (.pause p.manager)) (next after)
  | .interrupt =>
    let visit : Visit :=
      { registry := .manager p.manager, except := some self, interrupt := true }
    Effect.call w (.visit visit) (next .leaveGlobal)
  | .leaveGlobal =>
    if p.holdsGlobal then
      (w.leaveGlobal manager.globalLock self).bind fun (w, notes) =>
        Effect.goto w (next .enterPhases) notes
    else Effect.goto w (next .enterPhases)
  | .enterPhases =>
    Effect.call (w.setInPause self true)
      (.phases { manager := p.manager, record := p.record, drives := true })
      (next .exitPhases) [.joined p.manager true]
  | .exitPhases =>
    Effect.goto (w.setInPause self false) (next .clear) [.finished p.manager true]
  | .clear =>
    Effect.goto (w.modifyManager p.manager fun m => { m with action := none }) (next .account)
  | .account =>
    let duration := w.now - p.started
    let notes := if manager.settings.isSlow duration then
      [.trace (.slowPause self p.participants)] else []
    Effect.goto
      (w.modifyManager p.manager fun m =>
        { m with statistics := m.statistics.recordPause duration })
      (.pausing { p with duration := duration, point := .unlock }) notes
  | .unlock => Effect.call w (.release (.pause p.manager) .clear) (next .announceEnd)
  | .announceEnd =>
    let event := Event.pauseCompleted self p.participants p.duration
    Effect.goto (w.publish p.manager event) (next .resume)
      [.trace (.resumed self), .published p.manager event]
  | .resume =>
    Effect.call w
      (.resuming
        { manager := p.manager
          record := p.record
          holdsGlobal := p.holdsGlobal
          outcome := p.outcome })
      (.answer (.succeeded .nothing))
  | .abandon =>
    Effect.call w (.release (.pause p.manager) .clear) (.rethrow (p.outcome.getD ""))

/-- The thread leaves again on every way out, unless it was registered before. -/
def Foreign.advance (f : Foreign) (w : World) : Option Effect :=
  let leaving := Frame.leaving { manager := f.manager }
  match f.point with
  | .register =>
    Effect.call w
      (.entering { manager := f.manager, record := none, interruptible := false })
      (.foreign { f with point := .pause })
  | .pause =>
    Effect.call w
      (.pausing { manager := f.manager, holdsGlobal := false, action := f.action })
      (.foreign { f with point := .leave })
  | .leave =>
    if f.added then Effect.call w leaving (.answer f.reply) else Effect.reply w f.reply
  | .abandon => Effect.call w leaving (.rethrow f.message)

end StopTheWorld
