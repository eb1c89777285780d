import StopTheWorld.Machine.Locking

namespace StopTheWorld

/-! The meeting of all participants of a pause, and how each comes to it and back. -/

/-- Every participant arrives three times, whether its action unwinds or not. The action is the one
found after the second arrival; a thread without a record, or an aborting one, has none to run. -/
def Phases.advance (p : Phases) (w : World) : Option Effect :=
  let manager := w.manager p.manager
  let arrive (next : Phases.Point) :=
    Effect.call w (.arrival { phaser := .registry (.manager p.manager) })
      (.phases { p with point := next })
  match p.point with
  | .first => arrive (if p.drives then .republish else .second)
  | .republish =>
    Effect.goto (w.modifyManager p.manager fun m => { m with epoch := m.epoch.successor })
      (.phases { p with point := .second })
      [.republished p.manager manager.epoch.successor.generation]
  | .second => arrive .choose
  | .choose =>
    let act := Frame.phases { p with point := .third }
    match p.record, manager.action with
    | some record, some action =>
      let r := w.record record
      if r.isAborting then Effect.goto w act
      else Effect.call w (.script { rest := action }) act [.action p.manager record r.thread]
    | _, _ => Effect.goto w act
  | .third => arrive .finish
  | .finish => Effect.reply w ((p.outcome.map Reply.unwound).getD .nothing)

/-- An action that unwound keeps the deferred actions from running. -/
def Resuming.advance (r : Resuming) (self : ThreadId) (w : World) : Option Effect :=
  match r.point with
  | .reacquire =>
    let settle := Frame.resuming { r with point := .settle }
    if r.holdsGlobal then
      let lock := LockRef.global (w.manager r.manager).globalLock
      Effect.call w (.acquisition (.begin lock self .uninterruptible)) settle
    else Effect.goto w settle
  | .settle =>
    match r.outcome, r.record with
    | some message, _ => Effect.unwind w message
    | none, none => Effect.reply w .nothing
    | none, some record =>
      Effect.call w (.drain { record := record }) (.resuming { r with point := .drained })
  | .drained =>
    let notes := if r.ran = 0 then [] else [.trace (.ranDeferred self r.ran)]
    Effect.reply w .nothing notes

/-- Only a poll that finds the epoch invalidated does more than look. It counts as slow even if the
thread turns out not to be registered. -/
def Polling.advance (p : Polling) (self : ThreadId) (w : World) : Option Effect :=
  let manager := w.manager p.manager
  match p.point with
  | .check =>
    if manager.epoch.valid then Effect.reply w .nothing
    else Effect.goto w (.polling { p with point := .count })
  | .count =>
    Effect.goto
      (w.modifyManager p.manager fun m => { m with statistics := m.statistics.recordSlowPoll })
      (.polling { p with point := .lookup }) [.slowPoll p.manager]
  | .lookup =>
    match manager.registry.get? self with
    | none => Effect.reply w .nothing [.trace (.unregisteredPoll self)]
    | some entry =>
      let next := if p.holdsGlobal then Polling.Point.leaveGlobal else .enterPhases
      Effect.goto w (.polling { p with record := entry.record, point := next })
        [.trace (.joining self p.holdsGlobal)]
  | .leaveGlobal =>
    (w.leaveGlobal manager.globalLock self).bind fun (w, notes) =>
      Effect.goto w (.polling { p with point := .enterPhases }) notes
  | .enterPhases =>
    Effect.call (w.setInPause self true)
      (.phases { manager := p.manager, record := p.record, drives := false })
      (.polling { p with point := .exitPhases }) [.joined p.manager false]
  | .exitPhases =>
    Effect.goto (w.setInPause self false)
      (.resuming
        { manager := p.manager
          record := p.record
          holdsGlobal := p.holdsGlobal
          outcome := p.outcome })
      [.finished p.manager false]

end StopTheWorld
