import StopTheWorld.Machine.Blocking
import StopTheWorld.Machine.Driving
import StopTheWorld.Machine.Rendezvous
import StopTheWorld.Machine.Scripts
import StopTheWorld.Machine.Start

namespace StopTheWorld

/-! Steps of a world: a thread's next step, and what happens to a world from outside. -/

/-- The step of a frame that is on top of the stack of `self`; none if it has to wait. -/
def Frame.advance (frame : Frame) (self : ThreadId) (w : World) : Option Effect :=
  match frame with
  | start op => op.advance self w
  | answer reply => Effect.reply w reply
  | discard => Effect.reply w .nothing
  | word text => Effect.reply w (.succeeded (.word text))
  | rethrow message => Effect.unwind w message
  | keepGuard lock reply => Effect.reply { w with guards := w.guards ++ [lock] } reply
  | acquisition a => a.advance self w
  | release lock point => Release.advance lock point w
  | notify lock => OwnedLock.advanceNotify lock w
  | arrival a => a.advance w
  | interruption i => i.advance w
  | sleeping s => s.advance self w
  | parking point => Parking.advance point self w
  | enrolment e => e.advance w
  | withdrawal x => x.advance w
  | visit v => v.advance w
  | script s => s.advance self w
  | sequence s => s.advance w
  | drain d => d.advance w
  | phases p => p.advance w
  | resuming r => r.advance self w
  | polling p => p.advance self w
  | entering e => e.advance self w
  | leaving l => l.advance self w
  | pausing p => p.advance self w
  | foreign f => f.advance w
  | acquiring a => a.advance self w
  | blocking b => b.advance self w
  | trial t => t.advance self w

/-- The stack after a step of its top frame, with `rest` below. -/
def Control.stack (control : Control) (rest : List Frame) : List Frame :=
  match control with
  | goto frame => frame :: rest
  | call frame back => frame :: back :: rest
  | reply value =>
    match rest with
    | [] => []
    | frame :: rest => frame.resume value :: rest
  | unwind message => Frame.unwind message rest

/-- An operation is over when its last frame is gone. -/
def Control.completion (control : Control) (rest : List Frame) : List Note :=
  match control with
  | goto _ | call _ _ => []
  | reply value => if rest.isEmpty then [.completed value] else []
  | unwind message =>
    if (Frame.unwind message rest).isEmpty then [.completed (.unwound message)] else []

namespace World

/-- The next step of a thread. An idle thread has none, and neither has one that waits for
something only others can provide. -/
def step (w : World) (self : ThreadId) : Option (World × List Note) :=
  match (w.thread self).stack with
  | [] => none
  | frame :: rest =>
    (frame.advance self w).map fun effect =>
      (effect.world.setStack self (effect.control.stack rest),
        effect.notes ++ effect.control.completion rest)

def isIdle (w : World) (thread : ThreadId) : Bool := (w.thread thread).stack.isEmpty

/-- Tells an idle thread what to do. -/
def submit (w : World) (thread : ThreadId) (op : Op) : Option World :=
  if w.isIdle thread then some (w.setStack thread [.start op]) else none

/-- Time passes. -/
def elapse (w : World) (span : Nat) : World := { w with now := w.now + span }

/-- Wakes a waiting thread without a reason. Waiting rooms and parked threads allow for that, and
whoever is woken looks again at what it waits for. -/
def rouse (w : World) (thread : ThreadId) : World :=
  match (w.thread thread).stack with
  | .acquisition a :: _ => w.modifyLock a.lock (·.rouse thread)
  | .parking .parked :: rest => w.setStack thread (.parking .recheck :: rest)
  | .sleeping s :: rest =>
    if s.point = .doze then w.setStack thread (.sleeping { s with point := .check } :: rest) else w
  | _ => w

end World

/-- What can happen next in a world. -/
inductive Move
  | run (thread : ThreadId)
  | submit (thread : ThreadId) (op : Op)
  | elapse (span : Nat)
  | rouse (thread : ThreadId)

/-- The world after a move and what is observed of it, if the move is possible. -/
def World.move (w : World) : Move → Option (World × List Note)
  | .run thread => w.step thread
  | .submit thread op => (w.submit thread op).map fun w => (w, [])
  | .elapse span => some (w.elapse span, [])
  | .rouse thread => some (w.rouse thread, [])

end StopTheWorld
