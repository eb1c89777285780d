import StopTheWorld.Proofs.Custody
import StopTheWorld.Proofs.Setup
import StopTheWorld.Proofs.Tenure

namespace StopTheWorld

/-! What user code that a driver runs within its own pause can come to: the calls of the manager that it
makes are turned away, and it leaves the barrier that the driver waits at as it is. -/

/-- What the participants of a pause meet at, and what is counted of it. -/
def Manager.barrier (manager : Manager) : Registry × Epoch × Statistics :=
  (manager.registry, manager.epoch, manager.statistics)

namespace Frame

/-- The frame is that of a safepoint check, or of a call that makes one on its way. -/
def isReentry : Frame → Bool
  | polling _ | leaving _ | resuming _ => true
  | _ => false

/-- The frame can be on top of the user code that a driver runs within its own pause, in the action of
that pause or else in a callback. Calls of the manager have got no further than their first step, unless
they are safepoint checks that a callback makes. -/
def isBarred (m : ManagerId) (acts : Bool) : Frame → Bool
  | acquisition a => a.lock ≠ .pause m
  | release lock _ => lock ≠ .pause m
  | arrival a => a.phaser ≠ .registry (.manager m)
  | enrolment e => e.registry ≠ .manager m
  | withdrawal x => x.registry ≠ .manager m
  | visit v => v.registry ≠ .manager m
  | polling p => !acts || (p.manager = m && p.point = .check)
  | leaving l => !acts || (l.manager = m && l.point = .gate)
  | resuming _ => !acts
  | entering e => e.manager = m && e.point = .gate
  | pausing p => p.manager = m && p.point = .gate
  | foreign f => f.manager = m
  | acquiring a => a.manager = m
  | blocking b => b.manager = m
  | phases _ | drain _ => false
  | _ => true

end Frame

/-- What a barred frame comes to is barred again, or part of a safepoint check that a callback makes. -/
def Control.IsBarred (m : ManagerId) (acts : Bool) : Control → Prop
  | goto frame => frame.isBarred m acts = true
  | call child back =>
    back.isBarred m acts = true ∧
      (child.isBarred m acts = true ∨ acts = false ∧ back.isReentry = true)
  | _ => True

/-- The manager turns the thread away: it owns the pause lock. In the action of its pause it is marked,
and the epoch is valid. -/
structure World.Bars (m : ManagerId) (acts : Bool) (w : World) (thread : ThreadId) : Prop where
  held : (w.manager m).pauseLock.owner = some thread
  marked : acts = true → (w.thread thread).inPause = true
  valid : acts = true → (w.manager m).epoch.valid = true

section

variable {m : ManagerId} {acts : Bool} {w v : World} {self : ThreadId} {frame parent : Frame}
  {effect : Effect}

namespace Frame

theorem isBarred_entering {e : Entering} :
    (entering e).isBarred m acts = true ↔ e.manager = m ∧ e.point = .gate := by
  show (e.manager = m && e.point = .gate) = true ↔ _
  simp

theorem isBarred_pausing {p : Pausing} :
    (pausing p).isBarred m acts = true ↔ p.manager = m ∧ p.point = .gate := by
  show (p.manager = m && p.point = .gate) = true ↔ _
  simp

/-- In the action of its pause, a driver has got no further with a safepoint check than the look at the
epoch, and with leaving than the look at its mark. -/
theorem isBarred_polling {p : Polling} :
    (polling p).isBarred m true = true ↔ p.manager = m ∧ p.point = .check := by
  show (!true || (p.manager = m && p.point = .check)) = true ↔ _
  simp

theorem isBarred_leaving {l : Leaving} :
    (leaving l).isBarred m true = true ↔ l.manager = m ∧ l.point = .gate := by
  show (!true || (l.manager = m && l.point = .gate)) = true ↔ _
  simp

theorem isBarred_resume (barred : frame.isBarred m acts = true)
    (waits : ∀ p, frame = .pausing p → p.point ≠ .gate) (value : Reply) :
    (frame.resume value).isBarred m acts = true := by
  cases frame with
  | pausing p => exact absurd (isBarred_pausing.mp barred).2 (waits p rfl)
  | foreign f =>
    unfold resume
    dsimp only
    split <;> first | rfl | exact barred
  | phases | drain => exact absurd barred Bool.false_ne_true
  | _ => cases value <;> first | rfl | exact barred

theorem isBarred_catch {message : String} {handler : Frame} (barred : frame.isBarred m acts = true)
    (caught : frame.catch? message = some handler) : handler.isBarred m acts = true := by
  cases frame with
  | visit | foreign =>
    simp only [catch?] at caught
    split at caught
    · obtain rfl := Option.some.inj caught
      exact barred
    · simp at caught
  | phases => exact absurd barred Bool.false_ne_true
  | pausing p => simp [catch?, (isBarred_pausing.mp barred).2] at caught
  | _ => simp [catch?] at caught

theorem isBarred_rouse {frame' : Frame} (rouses : frame.Rouses frame') :
    frame'.isBarred m acts = true := by
  cases rouses <;> rfl

/-- A barred frame gives no hold on the pause lock, and takes none away. -/
theorem hold_of_isBarred (barred : frame.isBarred m acts = true) (below : Option Hold) :
    frame.hold m below = below := by
  cases frame with
  | entering e => simp [hold, (isBarred_entering.mp barred).2, Entering.Point.owns]
  | pausing p => simp [hold, (isBarred_pausing.mp barred).2, Pausing.Point.drives]
  | phases => exact absurd barred Bool.false_ne_true
  | acquisition | release =>
    have other := of_decide_eq_true barred
    simp [hold, other]
  | _ => rfl

/-- In the action of a pause, a barred frame is not one that takes the mark down. -/
theorem marks_of_isBarred (barred : frame.isBarred m true = true) : frame.marks = false := by
  cases frame with
  | pausing p => simp [marks, (isBarred_pausing.mp barred).2]
  | polling p => simp [marks, (isBarred_polling.mp barred).2]
  | _ => rfl

/-- A script calls nothing but operations. -/
theorem start_of_script {child : Frame} {s : Script} (step : frame.advance self w = some effect)
    (control : effect.control = .call child (.script s)) : ∃ op, child = .start op := by
  cases frame with
  | start op =>
    cases op with
    | access a =>
      obtain ⟨-, -, ⟨_, same⟩ | ⟨_, same⟩⟩ := Access.agrees (m := 0) step <;> simp [same] at control
    | release n =>
      obtain ⟨_, -, replies⟩ := Option.bind_eq_some_iff.mp step
      obtain rfl := Option.some.inj replies
      simp at control
    | deferLookup | unlock =>
      simp only [advance, Op.advance] at step
      split at step <;> obtain rfl := Option.some.inj step <;> simp at control
    | _ =>
      obtain rfl := Option.some.inj step
      simp at control
  | _ =>
    simp only [advance, Acquisition.advance, Acquisition.took, Acquisition.gaveUp, Release.advance,
      OwnedLock.advanceNotify, Arrival.advance, Sleeping.advance, Parking.advance,
      Interruption.advance, Enrolment.advance, Withdrawal.advance, Visit.advance, Script.advance,
      Sequence.advance, Drain.advance, Phases.advance, Resuming.advance, Polling.advance,
      Entering.advance, Leaving.advance, Pausing.advance, Foreign.advance, Acquiring.advance,
      Blocking.advance, Trial.advance] at step
    repeat' split at step
    all_goals first
      | (obtain rfl := Option.some.inj step
         first
           | (simp at control; done)
           | exact ⟨_, (Control.call.inj control).1.symm⟩)
      | (obtain ⟨v, notes, leaves, rfl⟩ := World.leaves_of_bind step
         simp at control)
      | simp at step

end Frame

theorem Op.isBarred_step {op : Op} (single : op.calls? = none ∨ op.calls? = some m)
    (step : op.advance self w = some effect) : effect.control.IsBarred m acts := by
  cases op with
  | access a =>
    obtain ⟨-, -, ⟨value, control⟩ | ⟨message, control⟩⟩ := Access.agrees (m := m) step <;>
      exact control ▸ trivial
  | release n =>
    obtain ⟨_, -, replies⟩ := Option.bind_eq_some_iff.mp step
    obtain rfl := Option.some.inj replies
    trivial
  | deferLookup | unlock =>
    simp only [advance] at step
    split at step <;> obtain rfl := Option.some.inj step <;>
      simp [Control.IsBarred, Frame.isBarred]
  | _ =>
    obtain rfl := Option.some.inj step
    simp_all [Control.IsBarred, Frame.isBarred, calls?, Acquisition.begin]

/-- The calls of the manager that are turned away, from the action or else from a callback. -/
def Frame.isCaller (acts : Bool) : Frame → Bool
  | entering _ | pausing _ => true
  | polling _ | leaving _ => acts
  | _ => false

/-- A call that is turned away replies at once and changes nothing. -/
theorem Frame.turned_away (barred : frame.isBarred m acts = true) (bars : w.Bars m acts self)
    (calls : frame.isCaller acts = true) :
    ∃ value notes, frame.advance self w = some ⟨w, .reply value, notes⟩ := by
  have held : (w.manager m).pauseLock.isHeldBy self = true := decide_eq_true bars.held
  cases frame with
  | entering e =>
    obtain ⟨rfl, gate⟩ := isBarred_entering.mp barred
    simp [advance, Entering.advance, gate, World.isReentrant, held, Effect.reply]
  | pausing p =>
    obtain ⟨rfl, gate⟩ := isBarred_pausing.mp barred
    simp [advance, Pausing.advance, gate, World.isReentrant, held, Effect.reply]
  | polling p =>
    obtain rfl : acts = true := calls
    obtain ⟨rfl, check⟩ := isBarred_polling.mp barred
    simp [advance, Polling.advance, check, bars.valid rfl, Effect.reply]
  | leaving l =>
    obtain rfl : acts = true := calls
    obtain ⟨rfl, gate⟩ := isBarred_leaving.mp barred
    simp [advance, Leaving.advance, gate, bars.marked rfl, Effect.reply]
  | _ => simp [isCaller] at calls

theorem Frame.isBarred_step (barred : frame.isBarred m acts = true) (bars : w.Bars m acts self)
    (single : ∀ op, frame = .start op → op.calls? = none ∨ op.calls? = some m)
    (step : frame.advance self w = some effect) : effect.control.IsBarred m acts := by
  by_cases calls : frame.isCaller acts = true
  · obtain ⟨value, notes, replies⟩ := Frame.turned_away barred bars calls
    obtain rfl := Option.some.inj (step.symm.trans replies)
    trivial
  cases frame with
  | start op => exact Op.isBarred_step (single op rfl) step
  | phases | drain => exact absurd barred Bool.false_ne_true
  | entering | pausing => simp [isCaller] at calls
  | _ =>
    simp only [advance, Acquisition.advance, Acquisition.took, Acquisition.gaveUp, Release.advance,
      OwnedLock.advanceNotify, Arrival.advance, Sleeping.advance, Parking.advance,
      Interruption.advance, Enrolment.advance, Withdrawal.advance, Visit.advance, Script.advance,
      Sequence.advance, Resuming.advance, Polling.advance, Leaving.advance, Foreign.advance,
      Acquiring.advance, Blocking.advance, Trial.advance] at step
    repeat' split at step
    all_goals first
      | (obtain rfl := Option.some.inj step
         first
           | trivial
           | exact barred
           | exact ⟨rfl, .inl rfl⟩
           | exact ⟨barred, .inl rfl⟩
           | simp_all [Control.IsBarred, isBarred, isReentry, isCaller])
      | (obtain ⟨v, notes, leaves, rfl⟩ := World.leaves_of_bind step
         first
           | exact barred
           | simp_all [Control.IsBarred, isBarred, isCaller])
      | simp at step

section Barrier

namespace World

theorem barrier_modifyLock (lock : LockRef) (f : OwnedLock → OwnedLock) :
    ((w.modifyLock lock f).manager m).barrier = (w.manager m).barrier := by
  rw [manager_modifyLock]
  split <;> rfl

theorem manager_modifyRegistry_of_ne {registry : RegistryRef} (other : registry ≠ .manager m)
    (f : Registry → Registry) : (w.modifyRegistry registry f).manager m = w.manager m := by
  rw [manager_modifyRegistry, if_neg other]

end World

/-- Who withdraws from another registry leaves the manager alone. -/
theorem Withdrawal.manager_step {x : Withdrawal} (other : x.registry ≠ .manager m)
    (step : x.advance w = some effect) : effect.world.manager m = w.manager m := by
  simp only [advance] at step
  repeat' split at step
  all_goals first
    | obtain rfl := Option.some.inj step
    | simp at step
  · rfl
  · exact World.manager_modifyRegistry_of_ne other _
  · rfl
  · exact World.manager_depart (fun same => other (PhaserRef.registry.inj same)) ‹_›

/-- Who arrives at another phaser leaves the manager alone. -/
theorem Arrival.manager_step {a : Arrival} (other : a.phaser ≠ .registry (.manager m))
    (step : a.advance w = some effect) : effect.world.manager m = w.manager m := by
  simp only [advance] at step
  repeat' split at step
  all_goals first
    | (obtain rfl := Option.some.inj step
       first
         | rfl
         | exact World.manager_setPhaser other _)
    | simp at step

/-- A step of a barred frame leaves the barrier as it is, unless it is part of a safepoint check that a
callback makes. -/
theorem Frame.barrier_of_isBarred (barred : frame.isBarred m acts = true)
    (out : acts = true ∨ frame.isReentry = false) (bars : w.Bars m acts self)
    (step : frame.advance self w = some effect) :
    (effect.world.manager m).barrier = (w.manager m).barrier := by
  have checking {thread : ThreadId} {reply : Reply} {u : World}
      (checks : w.checkInterrupt thread = (u, reply)) :
      (u.manager m).barrier = (w.manager m).barrier := by
    have kept := World.manager_checkInterrupt (w := w) (m := m) thread
    rw [checks] at kept
    rw [kept]
  by_cases calls : frame.isCaller acts = true
  · obtain ⟨value, notes, replies⟩ := Frame.turned_away barred bars calls
    obtain rfl := Option.some.inj (step.symm.trans replies)
    rfl
  cases frame with
  | start op =>
    obtain ⟨bus, same⟩ := Op.advance_manager (m := m) step
    rw [same]
    rfl
  | phases | drain => exact absurd barred Bool.false_ne_true
  | entering | pausing => simp [isCaller] at calls
  | polling | leaving | resuming => simp_all [isBarred, isCaller, isReentry]
  | withdrawal x => rw [x.manager_step (of_decide_eq_true barred) step]
  | arrival a => rw [a.manager_step (of_decide_eq_true barred) step]
  | _ =>
    simp only [advance, Acquisition.advance, Acquisition.took, Acquisition.gaveUp, Release.advance,
      OwnedLock.advanceNotify, Sleeping.advance, Parking.advance, Interruption.advance,
      Enrolment.advance, Visit.advance, Script.advance, Sequence.advance, Foreign.advance,
      Acquiring.advance, Blocking.advance, Trial.advance] at step
    repeat' split at step
    all_goals first
      | (obtain rfl := Option.some.inj step
         first
           | rfl
           | exact World.barrier_modifyLock _ _
           | exact checking ‹_›
           | exact checking (Prod.eta _).symm
           | exact congrArg _ (World.manager_modifyRegistry_of_ne (of_decide_eq_true barred) _))
      | (obtain ⟨v, notes, leaves, rfl⟩ := World.leaves_of_bind step
         exact congrArg _ (World.manager_leaveGlobal leaves))
      | simp at step

end Barrier

end

end StopTheWorld
