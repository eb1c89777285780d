import StopTheWorld.Machine.World

namespace StopTheWorld

/-! Running user code. -/

/-- The operations run in order, those that are not for this thread left out. What each replies is
noted before the next one begins. -/
def Script.advance (s : Script) (self : ThreadId) (w : World) : Option Effect :=
  match s.last, s.rest with
  | some (op, reply), rest =>
    let notes := if op.isSilent then [] else [.returned op reply]
    Effect.goto w (.script { rest := rest }) notes
  | none, [] => Effect.reply w .nothing
  | none, op :: rest =>
    if op.skippedBy self then Effect.goto w (.script { rest := rest })
    else Effect.call w (.start op.unguarded) (.script { last := some (op, .nothing), rest := rest })

def Sequence.advance (s : Sequence) (w : World) : Option Effect :=
  match s.rest with
  | [] => Effect.reply w (.replies s.replies.reverse)
  | op :: rest => Effect.call w (.start op.unguarded) (.sequence { s with rest := rest })

/-- Only the actions found in the queue at the start are run. If one unwinds, the rest of them are
gone with the frame. -/
def Drain.advance (d : Drain) (w : World) : Option Effect :=
  match d.point, d.queue with
  | .take, _ =>
    let queue := (w.record d.record).deferred
    Effect.goto (w.modifyRecord d.record (·.drained))
      (.drain { d with queue := queue, point := .run }) [.drained d.record queue.length]
  | .run, [] => Effect.reply w (.count d.ran)
  | .run, action :: rest =>
    Effect.call w (.script { rest := action.script })
      (.drain { d with queue := rest, ran := d.ran + 1 })
      [.deferred d.record action.tag w.globalOwner]

end StopTheWorld
