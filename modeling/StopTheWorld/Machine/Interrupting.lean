import StopTheWorld.Machine.World

namespace StopTheWorld

/-! Interrupting a thread, and the two waits that only an interrupt or the clock ends. -/

/-- A callback that unwinds keeps the thread from being unparked. -/
def Interruption.advance (i : Interruption) (w : World) : Option Effect :=
  let unpark := Frame.interruption { i with point := .unpark }
  match i.point with
  | .raise =>
    Effect.goto (w.modifyInterrupter i.target (·.raise))
      (.interruption { i with point := .look }) [.interrupted i.target]
  | .look =>
    match (w.interrupter i.target).callback with
    | none => Effect.goto w unpark
    | some (.notify lock) => Effect.call w (.notify lock) unpark
    | some (.script tag ops) => Effect.call w (.script { rest := ops }) unpark [.wake tag]
  | .unpark => Effect.reply (w.modifyInterrupter i.target (·.unpark)) .nothing

/-- The flag is looked at before every wait and is down again once seen. -/
def World.checkInterrupt (w : World) (thread : ThreadId) : World × Reply :=
  if (w.interrupter thread).interrupted then
    (w.modifyInterrupter thread (·.lower), .failed .interrupted)
  else (w, .succeeded .nothing)

/-- Waking up before the deadline, for whatever reason, only leads to another look at the flag and
the clock. A token is used up by a sleep that really waits, but does not end it. A deadline that no
clock can show is an error in the caller's logic, found before the flag is looked at. -/
def Sleeping.advance (s : Sleeping) (self : ThreadId) (w : World) : Option Effect :=
  match s.point with
  | .begin =>
    let deadline := w.now + s.span
    if deadline < Duration.clockLimit then
      Effect.goto w (.sleeping { s with deadline := deadline, point := .check })
    else Effect.unwind w "overflow when adding duration to instant"
  | .check =>
    match w.checkInterrupt self with
    | (w, .succeeded _) => Effect.goto w (.sleeping { s with point := .look })
    | (w, failure) => Effect.reply w failure
  | .look =>
    if s.deadline ≤ w.now then Effect.reply w (.succeeded .nothing)
    else Effect.goto w (.sleeping { s with point := .doze })
  | .doze =>
    let awake := Frame.sleeping { s with point := .check }
    if (w.interrupter self).token then
      Effect.goto (w.modifyInterrupter self (·.consume)) awake
    else if s.deadline ≤ w.now then Effect.goto w awake
    else none

/-- A token lets a park end at once; the flag is looked at on both sides of it. -/
def Parking.advance (point : Parking.Point) (self : ThreadId) (w : World) : Option Effect :=
  match point with
  | .check =>
    match w.checkInterrupt self with
    | (w, .succeeded _) => Effect.goto w (.parking .parked)
    | (w, failure) => Effect.reply w failure
  | .parked =>
    if (w.interrupter self).token then
      Effect.goto (w.modifyInterrupter self (·.consume)) (.parking .recheck)
    else none
  | .recheck =>
    let (w, reply) := w.checkInterrupt self
    Effect.reply w reply

end StopTheWorld
