import StopTheWorld.Machine.Access

namespace StopTheWorld

namespace World

/-- Installs a callback, and keeps the guard that can take it out again. -/
def blockOn (w : World) (target : ThreadId) (tag : Tag) (script : List Op) : World :=
  let saved := (w.interrupter target).callback
  { w.modifyInterrupter target (·.install (some (.script tag script))) with
    blockers := w.blockers ++ [{ tag := tag, target := target, saved := saved }] }

def defer (w : World) (record : RecordId) (tag : Tag) (script : List Op) : World :=
  w.modifyRecord record (·.defer { tag := tag, script := script })

end World

/-- The first step of an operation: either all there is to it, or the procedure that performs it. -/
def Op.advance (op : Op) (self : ThreadId) (w : World) : Option Effect :=
  let whom (thread : Option ThreadId) : ThreadId := thread.getD self
  let entering (manager : ManagerId) (record : Option RecordId) (interruptible : Bool) :=
    Effect.call w
      (.entering { manager := manager, record := record, interruptible := interruptible }) .discard
  match op with
  | .access a => a.advance self w
  | .log tag => Effect.reply w .nothing [.log tag]
  | .unwind message => Effect.unwind w message
  | .seq ops => Effect.goto w (.sequence { rest := ops })
  | .replicate times op => Effect.goto w (.sequence { rest := List.replicate times op })
  | .only _ op => Effect.goto w (.start op)
  | .enter manager => entering manager (some (w.recordOf self)) true
  | .enterWith manager managed interruptible =>
    entering manager (if managed then some (w.recordOf self) else none) interruptible
  | .leave manager => Effect.goto w (.leaving { manager := manager })
  | .poll manager => Effect.goto w (.polling { manager := manager, holdsGlobal := true })
  | .pollFree manager => Effect.goto w (.polling { manager := manager, holdsGlobal := false })
  | .acquire manager => Effect.goto w (.acquiring { manager := manager })
  | .release manager =>
    (w.leaveGlobal (w.manager manager).globalLock self).bind fun (w, notes) =>
      Effect.reply w .nothing notes
  | .pause manager action =>
    Effect.goto w (.pausing { manager := manager, holdsGlobal := true, action := action })
  | .pauseWith manager holdsGlobal action =>
    Effect.goto w (.pausing { manager := manager, holdsGlobal := holdsGlobal, action := action })
  | .pauseForeign manager action =>
    Effect.goto w (.foreign { manager := manager, action := action })
  | .runBlocking manager holdsGlobal attempts =>
    Effect.goto w
      (.blocking { manager := manager, holdsGlobal := holdsGlobal, attempts := attempts })
  | .defer thread tag script =>
    let record := w.recordOf (whom thread)
    Effect.reply (w.defer record tag script) .nothing [.queued record tag]
  | .deferLookup manager thread tag script =>
    match w.boundRecord? manager (whom thread) with
    | none => Effect.reply w (.truth false)
    | some record => Effect.reply (w.defer record tag script) (.truth true) [.queued record tag]
  | .globalEnter l owner =>
    Effect.call w (.acquisition (.begin (.global l) (whom owner) .uninterruptible))
      (.answer .nothing)
  | .globalEnterInterruptibly l owner interrupter =>
    let patience := Patience.interruptible (whom interrupter) .never
    Effect.goto w (.acquisition (.begin (.global l) (whom owner) patience))
  | .phaserArrive phaser => Effect.goto w (.arrival { phaser := .loose phaser })
  | .lock l =>
    Effect.call w (.acquisition (.begin (.loose l) self .uninterruptible)) (.keepGuard l .nothing)
  | .lockInterruptibly l interrupter =>
    let patience := Patience.interruptible (whom interrupter) (.pending l)
    Effect.call w (.acquisition (.begin (.loose l) self patience))
      (.keepGuard l (.succeeded .nothing))
  | .unlock l =>
    if w.guards.contains l then
      Effect.call { w with guards := w.guards.erase l } (.release (.loose l) .clear)
        (.answer (.truth true))
    else Effect.reply w (.truth false)
  | .wakeWaiters l => Effect.goto w (.notify (.loose l))
  | .register registry thread record interruptible =>
    let entry : Registration :=
      { identity := whom thread, record := record.map w.recordOf, interruptible := interruptible }
    Effect.goto w (.enrolment { registry := .loose registry, entry := entry })
  | .deregister registry thread =>
    Effect.goto w (.withdrawal { registry := .loose registry, identity := whom thread })
  | .visit registry interrupts =>
    Effect.goto w (.visit { registry := .loose registry, interrupt := interrupts })
  | .registryArrive registry => Effect.goto w (.arrival { phaser := .registry (.loose registry) })
  | .interrupt thread => Effect.goto w (.interruption { target := whom thread })
  | .sleep span => Effect.goto w (.sleeping { span := span })
  | .park => Effect.goto w (.parking .check)
  | .blockOn thread tag script => Effect.reply (w.blockOn (whom thread) tag script) .nothing

end StopTheWorld
