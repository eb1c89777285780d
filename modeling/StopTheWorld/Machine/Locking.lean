import StopTheWorld.Machine.World

namespace StopTheWorld

/-! Taking and giving back owned locks. Whatever changes a lock needs its critical section open;
reading the owner does not, because nobody changes the owner while another is inside. -/

namespace Acquisition

/-- Takes a lock in the step that finds it free. -/
def took (a : Acquisition) (w : World) : Option Effect :=
  let w := w.modifyLock a.lock (·.take a.owner)
  let notes := [.took a.lock a.owner]
  match a.patience with
  | .uninterruptible => Effect.reply w (.succeeded .nothing) notes
  | .interruptible _ _ =>
    Effect.goto w (.acquisition { a with point := .restore true }) notes

/-- Gives up: the critical section is left before the callback is put back. -/
def gaveUp (a : Acquisition) (w : World) : Option Effect :=
  Effect.goto (w.modifyLock a.lock (·.exit)) (.acquisition { a with point := .restore false })

/-- A waiter goes on when it has been notified and the critical section is open. It takes a free
lock before it looks at anything else; otherwise an interruptible one looks at the flag and at its
other reason to give up without leaving the critical section, so that a notification cannot fall
between the look and the wait. -/
def advance (a : Acquisition) (self : ThreadId) (w : World) : Option Effect :=
  let lock := w.lock a.lock
  match a.patience, a.point with
  | .uninterruptible, .test =>
    if lock.IsOpen ∧ self ∉ lock.waiting then
      if lock.IsFree then a.took w
      else Effect.goto (w.modifyLock a.lock (·.await self)) (.acquisition a)
    else none
  | .interruptible interrupter _, .install =>
    let saved := (w.interrupter interrupter).callback
    Effect.goto (w.modifyInterrupter interrupter (·.install (some (.notify a.lock))))
      (.acquisition { a with saved := saved, point := .test })
  | .interruptible _ _, .test =>
    if lock.IsOpen ∧ self ∉ lock.waiting then
      if lock.IsFree then a.took w
      else
        Effect.goto (w.modifyLock a.lock (·.enter self))
          (.acquisition { a with point := .checkFlag })
    else none
  | .interruptible interrupter _, .checkFlag =>
    if (w.interrupter interrupter).interrupted then
      a.gaveUp (w.modifyInterrupter interrupter (·.lower))
    else Effect.goto w (.acquisition { a with point := .checkYield })
  | .interruptible _ yields, .checkYield =>
    if w.yields yields then a.gaveUp w
    else Effect.goto w (.acquisition { a with point := .await })
  | .interruptible _ _, .await =>
    Effect.goto (w.modifyLock a.lock (·.await self)) (.acquisition { a with point := .test })
  | .interruptible interrupter _, .restore acquired =>
    Effect.reply (w.modifyInterrupter interrupter (·.install a.saved))
      (if acquired then .succeeded .nothing else .failed .interrupted)
  | .uninterruptible, _ => none

end Acquisition

/-- Giving back a pause lock by dropping its guard. The waiting room is notified from outside the
critical section. -/
def Release.advance (lock : LockRef) (point : Release.Point) (w : World) : Option Effect :=
  match point with
  | .clear =>
    if (w.lock lock).IsOpen then
      Effect.goto (w.modifyLock lock (·.clear)) (.release lock .notify) [.cleared lock]
    else none
  | .notify => Effect.reply (w.modifyLock lock (·.notify)) .nothing [.notified lock]

/-- Wakes the waiting room from inside the critical section. -/
def OwnedLock.advanceNotify (lock : LockRef) (w : World) : Option Effect :=
  if (w.lock lock).IsOpen then
    Effect.reply (w.modifyLock lock (·.notify)) .nothing [.notified lock]
  else none

/-- Gives back a global lock for `owner`. A lock that is somebody else's is left alone, which the
log tells. -/
def World.leaveGlobal (w : World) (lock : GlobalId) (owner : ThreadId) :
    Option (World × List Note) :=
  let ref := LockRef.global lock
  let before := w.lock ref
  if before.IsOpen then
    let notes :=
      if before.owner = some owner then [.cleared ref, .notified ref]
      else [.trace (.foreignLeave owner before.owner)]
    some (w.modifyLock ref (·.leave owner), notes)
  else none

end StopTheWorld
