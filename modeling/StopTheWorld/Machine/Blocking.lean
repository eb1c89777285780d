import StopTheWorld.Machine.Interrupting
import StopTheWorld.Machine.Locking

namespace StopTheWorld

/-! Waiting without holding up pauses. -/

/-- Every failure to take the lock is followed by a poll. -/
def Acquiring.advance (a : Acquiring) (self : ThreadId) (w : World) : Option Effect :=
  let manager := w.manager a.manager
  match a.point with
  | .enter =>
    let patience := if manager.globalInterruptible then Patience.interruptible self .never
      else .uninterruptible
    Effect.call w (.acquisition (.begin (.global manager.globalLock) self patience))
      (.acquiring { a with point := .done })
  | .poll =>
    Effect.call w (.polling { manager := a.manager, holdsGlobal := false })
      (.acquiring { a with point := .enter })
  | .done => Effect.reply w .nothing

/-- When the list of attempts is used up, every further one succeeds. The global lock is taken again
only if the action returns. -/
def Blocking.advance (b : Blocking) (self : ThreadId) (w : World) : Option Effect :=
  match b.point with
  | .release =>
    let attempt := Frame.blocking { b with point := .attempt }
    if b.holdsGlobal then
      (w.leaveGlobal (w.manager b.manager).globalLock self).bind fun (w, notes) =>
        Effect.goto w attempt notes
    else Effect.goto w attempt
  | .attempt =>
    Effect.call w
      (.trial { number := b.made + 1, how := b.attempts.headD .succeed })
      (.blocking { b with attempts := b.attempts.tail, made := b.made + 1, point := .judge })
  | .judge =>
    match b.reply with
    | .failed .interrupted =>
      Effect.call w (.polling { manager := b.manager, holdsGlobal := false })
        (.blocking { b with point := .attempt })
    | _ => Effect.goto w (.blocking { b with point := .reacquire })
  | .reacquire =>
    if b.holdsGlobal then
      Effect.call w (.acquiring { manager := b.manager }) (.answer b.reply)
    else Effect.reply w b.reply

def Trial.advance (t : Trial) (self : ThreadId) (w : World) : Option Effect :=
  match t.point with
  | .log =>
    Effect.goto w (.trial { t with point := .act }) [.attempt t.number t.how w.globalOwner]
  | .act =>
    match t.how with
    | .succeed => Effect.reply w (.succeeded (.count t.number))
    | .sleep => Effect.call w (.sleeping { span := 60 * Duration.second }) (.word "slept")
    | .nap => Effect.call w (.sleeping { span := 0 }) (.word "napped")
    | .park => Effect.call w (.parking .check) (.word "parked")
    | .interruptSelf =>
      Effect.call w (.interruption { target := self }) (.trial { t with point := .check })
    | .unwind => Effect.unwind w "attempt panicked"
    | .check | .reentrantPause | .epochInvalidated | .interrupted | .notRegistered =>
      match t.how.failure? self with
      | some failure => Effect.reply w (.failed failure)
      | none => Effect.goto w (.trial { t with point := .check })
  | .check =>
    match w.checkInterrupt self with
    | (w, .succeeded _) => Effect.reply w (.succeeded (.word "checked"))
    | (w, reply) => Effect.reply w reply

end StopTheWorld
