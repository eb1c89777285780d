import StopTheWorld.Proofs.Locks
import StopTheWorld.Proofs.Released

namespace StopTheWorld

/-! The events that a manager publishes, and where its pauses stand meanwhile. -/

/-- The event of the manager that the note tells of. -/
def Note.event? (m : ManagerId) : Note → Option Event
  | published n event => if n = m then some event else none
  | _ => none

/-- The start of the pause is announced, and its end is not. -/
def Pausing.Point.isAnnounced : Pausing.Point → Bool
  | gate | lookup | lock | poll | «open» | announceStart | resume | abandon => false
  | _ => true

/-- The pause is counted, and its end is not announced. -/
def Pausing.Point.isCounted : Pausing.Point → Bool
  | unlock | announceEnd => true
  | _ => false

/-- The frame drives a pause of the manager, at a point that passes the check. -/
def Frame.drivesAt (m : ManagerId) (check : Pausing.Point → Bool) : Frame → Bool
  | pausing p => p.manager = m && check p.point
  | _ => false

/-- A frame that is begun or gone on with drives a pause of the manager, at such a point. -/
def Control.drivesAt (m : ManagerId) (check : Pausing.Point → Bool) : Control → Bool
  | goto frame => frame.drivesAt m check
  | call frame back => frame.drivesAt m check || back.drivesAt m check
  | reply _ | unwind _ => false

/-- What a step has to do with the events of a manager. -/
inductive Effect.Announces (m : ManagerId) (self : ThreadId) (frame : Frame) (effect : Effect) :
    Prop
  | silent (quiet : effect.notes.filterMap (Note.event? m) = [])
      (same : effect.control.drivesAt m Pausing.Point.isAnnounced =
        frame.drivesAt m Pausing.Point.isAnnounced)
  | enters {e : Entering} (top : frame = .entering e) (manager : e.manager = m)
      (point : e.point = .announce) (added : e.added = true)
      (event : effect.notes.filterMap (Note.event? m) = [.entered self])
      (control : effect.control = .goto (.entering { e with point := .unlock }))
  | leaves {l : Leaving} (top : frame = .leaving l) (manager : l.manager = m)
      (point : l.point = .announce) (left : l.left = true)
      (event : effect.notes.filterMap (Note.event? m) = [.left self])
      (control : effect.control = .reply .nothing)
  | starts {p : Pausing} (top : frame = .pausing p) (manager : p.manager = m)
      (point : p.point = .announceStart)
      (event : effect.notes.filterMap (Note.event? m) = [.pauseStarted self])
      (control : effect.control = .goto (.pausing { p with point := .store }))
  | completes {p : Pausing} (top : frame = .pausing p) (manager : p.manager = m)
      (point : p.point = .announceEnd)
      (event : effect.notes.filterMap (Note.event? m) =
        [.pauseCompleted self p.participants p.duration])
      (control : effect.control = .goto (.pausing { p with point := .resume }))

section

variable {m : ManagerId} {self thread : ThreadId} {w v : World} {frame frame' parent : Frame}
  {rest : List Frame} {effect : Effect} {notes : List Note} {check : Pausing.Point → Bool}

theorem World.silent_leaveGlobal {lock : GlobalId} {owner : ThreadId}
    (leaves : w.leaveGlobal lock owner = some (v, notes)) :
    notes.filterMap (Note.event? m) = [] := by
  simp only [World.leaveGlobal] at leaves
  split at leaves
  · obtain ⟨rfl, rfl⟩ := Prod.mk.inj (Option.some.inj leaves)
    split <;> rfl
  · simp at leaves

theorem World.silent_depart {phaser : PhaserRef} {phase : Nat}
    (departs : w.depart phaser = .ok (v, phase, notes)) :
    notes.filterMap (Note.event? m) = [] := by
  unfold World.depart at departs
  dsimp only at departs
  split at departs
  · simp at departs
  · simp only [Except.ok.injEq, Prod.mk.injEq] at departs
    obtain ⟨-, -, rfl⟩ := departs
    split <;> rfl

theorem Access.announces {access : Access} (step : access.advance self w = some effect) :
    effect.Announces m self (.start (.access access)) := by
  cases access with
  | globalLeave lock owner =>
    obtain ⟨v, notes, leaves, rfl⟩ := World.leaves_of_bind step
    exact .silent (World.silent_leaveGlobal leaves) rfl
  | phaserDepart phaser =>
    simp only [advance] at step
    split at step <;> obtain rfl := Option.some.inj step
    · exact .silent rfl rfl
    · exact .silent (World.silent_depart ‹_›) rfl
  | globalTryEnter | unblock =>
    simp only [advance] at step
    repeat' split at step
    all_goals first
      | (obtain rfl := Option.some.inj step
         exact .silent rfl rfl)
      | simp at step
  | _ =>
    obtain rfl := Option.some.inj step
    exact .silent rfl rfl

theorem Op.announces {op : Op} (step : op.advance self w = some effect) :
    effect.Announces m self (.start op) := by
  cases op with
  | access a => exact Access.announces step
  | release n =>
    obtain ⟨v, notes, leaves, rfl⟩ := World.leaves_of_bind step
    exact .silent (World.silent_leaveGlobal leaves) rfl
  | deferLookup | unlock =>
    simp only [advance] at step
    split at step <;> obtain rfl := Option.some.inj step <;> exact .silent rfl rfl
  | pause | pauseWith =>
    obtain rfl := Option.some.inj step
    exact .silent rfl (by simp [Control.drivesAt, Frame.drivesAt, Pausing.Point.isAnnounced])
  | _ =>
    obtain rfl := Option.some.inj step
    exact .silent rfl rfl

theorem Entering.announces {e : Entering} (step : e.advance self w = some effect) :
    effect.Announces m self (.entering e) := by
  cases point : e.point <;> simp only [advance, point] at step
  case announce =>
    split at step <;> obtain rfl := Option.some.inj step
    · by_cases manager : e.manager = m
      · exact .enters rfl manager point ‹_› (by simp [List.filterMap_cons, Note.event?, manager]) rfl
      · exact .silent (by simp [List.filterMap_cons, Note.event?, manager]) rfl
    · exact .silent rfl rfl
  all_goals
    repeat' split at step
    all_goals
      obtain rfl := Option.some.inj step
      exact .silent rfl rfl

theorem Leaving.announces {l : Leaving} (step : l.advance self w = some effect) :
    effect.Announces m self (.leaving l) := by
  cases point : l.point <;> simp only [advance, point] at step
  case announce =>
    split at step <;> obtain rfl := Option.some.inj step
    · by_cases manager : l.manager = m
      · exact .leaves rfl manager point ‹_› (by simp [List.filterMap_cons, Note.event?, manager]) rfl
      · exact .silent (by simp [List.filterMap_cons, Note.event?, manager]) rfl
    · exact .silent rfl rfl
  all_goals
    repeat' split at step
    all_goals
      obtain rfl := Option.some.inj step
      exact .silent rfl rfl

theorem Pausing.announces {p : Pausing} (step : p.advance self w = some effect) :
    effect.Announces m self (.pausing p) := by
  cases point : p.point <;> simp only [advance, point] at step
  case announceStart =>
    obtain rfl := Option.some.inj step
    by_cases manager : p.manager = m
    · exact .starts rfl manager point (by simp [Note.event?, manager]) rfl
    · exact .silent (by simp [Note.event?, manager])
        (by simp [Control.drivesAt, Frame.drivesAt, manager])
  case announceEnd =>
    obtain rfl := Option.some.inj step
    by_cases manager : p.manager = m
    · exact .completes rfl manager point (by simp [List.filterMap_cons, Note.event?, manager]) rfl
    · exact .silent (by simp [List.filterMap_cons, Note.event?, manager])
        (by simp [Control.drivesAt, Frame.drivesAt, manager])
  case leaveGlobal =>
    split at step
    · obtain ⟨v, notes, leaves, rfl⟩ := World.leaves_of_bind step
      exact .silent (World.silent_leaveGlobal leaves)
        (by simp [Control.drivesAt, Frame.drivesAt, Pausing.Point.isAnnounced, point])
    · obtain rfl := Option.some.inj step
      exact .silent rfl
        (by simp [Control.drivesAt, Frame.drivesAt, Pausing.Point.isAnnounced, point])
  case wakeWaiters =>
    obtain rfl := Option.some.inj step
    refine .silent rfl ?_
    split <;> simp [Control.drivesAt, Frame.drivesAt, Pausing.Point.isAnnounced, point]
  all_goals
    repeat' split at step
    all_goals
      obtain rfl := Option.some.inj step
      exact .silent (by simp [Note.event?])
        (by simp [Control.drivesAt, Frame.drivesAt, Pausing.Point.isAnnounced, point])

/-- Threads enter and leave and pauses start and end with an event each, and nothing else is
published. -/
theorem Frame.announces (step : frame.advance self w = some effect) :
    effect.Announces m self frame := by
  cases frame with
  | start op => exact Op.announces step
  | entering e => exact e.announces step
  | leaving l => exact l.announces step
  | pausing p => exact p.announces step
  | withdrawal x =>
    simp only [advance, Withdrawal.advance] at step
    repeat' split at step
    all_goals first
      | obtain rfl := Option.some.inj step
      | simp at step
    all_goals first
      | exact .silent rfl rfl
      | exact .silent (World.silent_depart ‹_›) rfl
  | foreign f =>
    simp only [advance, Foreign.advance] at step
    repeat' split at step
    all_goals
      obtain rfl := Option.some.inj step
      exact .silent rfl
        (by simp [Control.drivesAt, Frame.drivesAt, Pausing.Point.isAnnounced])
  | _ =>
    simp only [advance, Acquisition.advance, Acquisition.took, Acquisition.gaveUp, Release.advance,
      OwnedLock.advanceNotify, Arrival.advance, Sleeping.advance, Parking.advance,
      Interruption.advance, Enrolment.advance, Visit.advance, Script.advance, Sequence.advance,
      Drain.advance, Phases.advance, Resuming.advance, Polling.advance, Acquiring.advance,
      Blocking.advance, Trial.advance] at step
    repeat' split at step
    all_goals first
      | (obtain rfl := Option.some.inj step
         exact .silent rfl rfl)
      | (obtain ⟨v, notes, leaves, rfl⟩ := World.leaves_of_bind step
         exact .silent (World.silent_leaveGlobal leaves) rfl)
      | simp at step

namespace Frame

theorem drivesAt_resume (within : ∀ point, check point = true → point.isAnnounced = true)
    (value : Reply)
    (pausing : ∀ p, parent = .pausing p → p.point.isAnnounced = true →
      ∀ failure, value ≠ .failed failure) :
    (parent.resume value).drivesAt m check = parent.drivesAt m check := by
  cases parent with
  | pausing p =>
    cases value with
    | failed failure =>
      have away : check p.point = false := Bool.eq_false_iff.mpr fun passes =>
        pausing p rfl (within _ passes) failure rfl
      have poll : check .poll = false := Bool.eq_false_iff.mpr fun passes => by
        simpa [Pausing.Point.isAnnounced] using within _ passes
      simp [resume, drivesAt, away, poll]
    | _ => rfl
  | foreign f =>
    unfold resume
    dsimp only
    split <;> rfl
  | _ => cases value <;> rfl

/-- Nothing that the driver of an announced pause waits for fails. -/
theorem Heads.succeeds {p : Pausing} {value : Reply} (heads : frame.Heads (.pausing p))
    (announced : p.point.isAnnounced = true) (step : frame.advance self w = some effect)
    (replies : effect.control = .reply value) (failure : Failure) : value ≠ .failed failure := by
  rintro rfl
  cases frame with
  | polling | resuming =>
    simp only [Heads] at heads
    simp [heads, Pausing.Point.isAnnounced] at announced
  | acquisition =>
    simp only [Heads] at heads
    simp [heads.1, Pausing.Point.isAnnounced] at announced
  | phases q =>
    simp only [advance, Phases.advance] at step
    repeat' split at step
    all_goals
      obtain rfl := Option.some.inj step
      simp at replies
    cases outcome : q.outcome <;> simp [outcome] at replies
  | notify | release | visit =>
    simp only [advance, OwnedLock.advanceNotify, Release.advance, Visit.advance] at step
    repeat' split at step
    all_goals first
      | (obtain rfl := Option.some.inj step
         simp at replies)
      | simp at step
  | _ => exact heads.elim

end Frame

namespace Straight

/-- No unwinding passes by the driver of an announced pause, unless it comes from a callback that runs
for a pause of the thread's own. -/
theorem drivesAt_unwind (within : ∀ point, check point = true → point.isAnnounced = true)
    {message : String} (straight : Straight m self rest)
    (stands : frame.Stands rest) (slow : frame.isFast = false)
    (away : ∀ v p below, frame = .visit v → rest ≠ .pausing p :: below) :
    (Frame.unwind message rest).any (·.drivesAt m check) = rest.any (·.drivesAt m check) := by
  induction rest generalizing frame with
  | nil => rfl
  | cons parent below ih =>
    have through (same : parent.drivesAt m check = false) (slow : parent.isFast = false)
        (away : ∀ v p rest, parent = .visit v → below ≠ .pausing p :: rest)
        (dropped : parent.catch? message = none) :
        (Frame.unwind message (parent :: below)).any (·.drivesAt m check) =
          (parent :: below).any (·.drivesAt m check) := by
      simp only [Frame.unwind, dropped]
      rw [ih straight.tail straight.2.1 slow away, List.any_cons, same, Bool.false_or]
    cases parent with
    | start | acquisition | release | notify | arrival | enrolment | withdrawal | sleeping | parking =>
      exact stands.elim
    | visit v =>
      obtain ⟨identity, point⟩ : ∃ identity, v.point = .release identity := by
        simp only [Frame.Stands] at stands
        cases frame <;> first
          | exact stands
          | exact stands.elim
      simp [Frame.unwind, Frame.catch?, point, Frame.drivesAt]
    | phases p =>
      have third : p.point = .third := by
        simp only [Frame.Stands] at stands
        cases frame <;> first
          | exact stands
          | exact stands.elim
          | simp [Frame.isFast] at slow
      simp [Frame.unwind, Frame.catch?, third, Frame.drivesAt]
    | polling | entering =>
      simp only [Frame.Stands] at stands
      cases frame <;> first
        | exact stands.elim
        | simp [Frame.isFast] at slow
    | pausing p =>
      have lock : p.point = .lock := by
        simp only [Frame.Stands] at stands
        cases frame <;> first
          | exact stands
          | exact stands.elim
          | exact absurd rfl (away _ p below rfl)
          | simp [Frame.isFast] at slow
      have passes : check .lock = false := Bool.eq_false_iff.mpr fun passes => by
        simpa [Pausing.Point.isAnnounced] using within _ passes
      exact through (by simp [Frame.drivesAt, lock, passes]) rfl (by simp)
        (by simp [Frame.catch?, lock])
    | foreign f =>
      by_cases leaves : f.point = .leave ∧ f.added
      · simp [Frame.unwind, Frame.catch?, leaves, Frame.drivesAt]
      · exact through rfl rfl (by simp) (by simp [Frame.catch?, leaves])
    | _ => exact through rfl rfl (by simp) rfl

/-- A frame that unwinds is no fast one, and no visit on behalf of a driver. -/
theorem slow_of_unwind {message : String} (straight : Straight m self (frame :: rest))
    (step : frame.advance self w = some effect) (unwinds : effect.control = .unwind message) :
    frame.isFast = false ∧ ∀ v p below, frame = .visit v → rest ≠ .pausing p :: below := by
  constructor
  · cases frame with
    | acquisition | release | notify | arrival | enrolment | phases | entering =>
      simp only [Frame.advance, Acquisition.advance, Acquisition.took, Acquisition.gaveUp,
        Release.advance, OwnedLock.advanceNotify, Arrival.advance, Enrolment.advance, Phases.advance,
        Entering.advance] at step
      repeat' split at step
      all_goals first
        | (obtain rfl := Option.some.inj step
           simp at unwinds)
        | simp at step
    | _ => rfl
  · rintro v p below rfl rfl
    have whole := straight.1
    simp only [Frame.advance, Visit.advance] at step
    repeat' split at step
    all_goals
      obtain rfl := Option.some.inj step
      simp at unwinds
    rename_i point
    simp [Frame.Suits, isShaken, point, Visit.Point.isAbandon] at whole

/-- Whether the thread drives a pause that is announced, or counted, is decided by the step of its top
frame. -/
theorem drivesAt_stack (within : ∀ point, check point = true → point.isAnnounced = true)
    (straight : Straight m self (frame :: rest)) (step : frame.advance self w = some effect) :
    (effect.control.stack rest).any (·.drivesAt m check) =
      (effect.control.drivesAt m check || rest.any (·.drivesAt m check)) := by
  cases control : effect.control with
  | goto | call => simp [Control.stack, Control.drivesAt, Bool.or_assoc]
  | reply value =>
    cases rest with
    | nil => rfl
    | cons parent below =>
      have same : (parent.resume value).drivesAt m check = parent.drivesAt m check :=
        Frame.drivesAt_resume within value fun p is_pausing announced =>
          Frame.Heads.succeeds (is_pausing ▸ straight.2.1) announced step control
      simp [Control.stack, Control.drivesAt, same]
  | unwind message =>
    obtain ⟨slow, away⟩ := straight.slow_of_unwind step control
    simpa [Control.stack, Control.drivesAt] using
      straight.tail.drivesAt_unwind within straight.2.1 slow away

end Straight

end

end StopTheWorld
