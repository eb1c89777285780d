import StopTheWorld.Proofs.Interrupts
import StopTheWorld.Proofs.Summoning

namespace StopTheWorld

/-! Whom a pause interrupts: the interruptible members of its manager, save the driver, each once. -/

/-- The driver has invalidated the epoch, and is not in the phases yet. -/
def Pausing.Point.isCalling (point : Pausing.Point) : Bool := point.stage = 1

/-- Only user code begins such a procedure, or another one of the kind. -/
def Frame.isUserCall : Frame → Bool
  | sequence _ | blocking _ | trial _ | pausing _ | foreign _ => true
  | _ => false

/-- Whom the drivers of a manager's pauses interrupt, and when. -/
structure Summons (m : ManagerId) (moments : List Moment) : Prop where
  /-- While a driver interrupts a thread, all that a woken thread looks at is as it has to be, and the
  thread is a member that can be interrupted, other than the driver. -/
  stale : ∀ {moment driver above i x p below}, moment ∈ moments →
    moment.world.stack driver = above ++ .interruption i :: .visit x :: .pausing p :: below →
    p.manager = m →
    (moment.world.manager m).epoch.valid = false ∧
      (moment.world.manager m).action = some p.action ∧
      (moment.world.manager m).pauseLock.owner = some driver ∧
      (moment.world.manager m).settings.interruptBlocked = true ∧
      i.target ≠ driver ∧ i.target ∈ (moment.world.manager m).registry.interruptible
  /-- The driver has invalidated the epoch, and not come to the phases since. -/
  within : ∀ {pre moment post driver target}, moments = pre ++ moment :: post →
    moment.summons m driver target = true → ∃ before first mid k, pre = before ++ first :: mid ∧
      (driver, .invalidated m k) ∈ first.observed ∧
      (driver, .joined m true) ∉ observations mid
  /-- Nobody is interrupted twice by a pause, and only those who were to be when it began. -/
  once : ∀ {pre first mid post driver k}, moments = pre ++ first :: (mid ++ post) →
    (driver, .invalidated m k) ∈ first.observed → (driver, .joined m true) ∉ observations mid →
    ∀ target, mid.countP (·.summons m driver target) ≤ 1 ∧
      (mid.countP (·.summons m driver target) ≠ 0 → target ∈ first.world.summoned m driver)
  /-- By the time the driver comes to the phases, each of them has been interrupted, but for those who
  have been taken out meanwhile. -/
  all : ∀ {pre first mid last post driver k}, moments = pre ++ first :: (mid ++ last :: post) →
    (driver, .invalidated m k) ∈ first.observed → (driver, .joined m true) ∉ observations mid →
    (driver, .joined m true) ∈ last.observed → ∀ target ∈ first.world.summoned m driver,
      mid.countP (·.summons m driver target) = 1 ∨
        ∃ thread, (thread, .removed (.manager m) target) ∈ observations mid
  /-- From its beginning to its end, whatever a driver does outside of user code, it raises no other flag
  and runs no other callback. -/
  others : ∀ {moment next driver above p below}, moment ∈ moments → moment.move = .run driver →
    moment.world.stack driver = above ++ .pausing p :: below → p.manager = m →
    (∀ s, .script s ∉ above) → moment.world.move moment.move = some (next, moment.notes) →
    (∀ i inner, above = .interruption i :: inner → ∃ x, inner = [.visit x]) ∧
    (∀ thread, (next.interrupter thread).interrupted = true →
      (moment.world.interrupter thread).interrupted = true ∨
        moment.summons m driver thread = true) ∧
    ∀ tag, .wake tag ∈ moment.notes → ∃ i x ops, above = [.interruption i, .visit x] ∧
      (moment.world.interrupter i.target).callback = some (.script tag ops)

section

variable {m : ManagerId} {self thread driver target : ThreadId} {w v u : World} {frame : Frame}
  {rest below : List Frame} {effect : Effect} {notes : List Note} {moments : List Moment}
  {called pending : List ThreadId}

theorem Pausing.Point.isPressing_of_isCalling {point : Pausing.Point}
    (calling : point.isCalling = true) : point.isPressing = true := by
  cases point <;> simp_all [isCalling, stage, isPressing]

/-- A driver comes to call the others to its pause by invalidating the epoch. -/
theorem Frame.invalidates (step : frame.advance self w = some effect)
    (before : frame.drivesAt m Pausing.Point.isCalling = false)
    (after : effect.control.drivesAt m Pausing.Point.isCalling = true) :
    ∃ k, .invalidated m k ∈ effect.notes := by
  have announced : effect.control.drivesAt m Pausing.Point.isAnnounced = true := by
    have announced {frame : Frame} (drives : frame.drivesAt m Pausing.Point.isCalling = true) :
        frame.drivesAt m Pausing.Point.isAnnounced = true := by
      cases frame <;> simp only [drivesAt, Bool.and_eq_true, Bool.false_eq_true] at drives ⊢
      exact ⟨drives.1, Pausing.Point.isAnnounced_of_isPressing
        (Pausing.Point.isPressing_of_isCalling drives.2)⟩
    cases control : effect.control <;>
      simp only [control, Control.drivesAt, Bool.or_eq_true, Bool.false_eq_true] at after ⊢
    · exact announced after
    · exact after.imp announced announced
  cases Frame.announces (m := m) step with
  | silent _ same =>
    rw [same] at announced
    cases frame <;> simp only [drivesAt, Bool.and_eq_true, Bool.false_eq_true] at announced
    rename_i p
    obtain ⟨manager, past⟩ := announced
    have manager : p.manager = m := by simpa using manager
    simp only [drivesAt, manager, decide_true, Bool.true_and] at before
    cases point : p.point <;>
      simp only [point, Pausing.Point.isAnnounced, Pausing.Point.isCalling, Pausing.Point.stage,
        decide_true, Bool.true_eq_false, Bool.false_eq_true] at past before <;>
      simp only [advance, Pausing.advance, point] at step <;> obtain rfl := Option.some.inj step
    case invalidate => exact ⟨_, by simp [manager]; rfl⟩
    all_goals
      simp [Control.drivesAt, drivesAt, Pausing.Point.isCalling, Pausing.Point.stage] at after
  | enters _ _ _ _ _ control | leaves _ _ _ _ _ control => simp [control, Control.drivesAt, drivesAt] at after
  | starts _ _ _ _ control | completes _ _ _ _ control =>
    simp [control, Control.drivesAt, drivesAt, Pausing.Point.isCalling, Pausing.Point.stage] at after

/-- A thread that calls the others to a pause of its own has invalidated the epoch, and has not come to
the phases since. -/
theorem Course.calling_since (fresh : w.IsFresh m) (course : Course Tame w moments v)
    (calling : (v.stack driver).any (·.drivesAt m Pausing.Point.isCalling) = true) :
    ∃ before first mid k, moments = before ++ first :: mid ∧
      (driver, .invalidated m k) ∈ first.observed ∧
      (driver, .joined m true) ∉ observations mid := by
  induction course with
  | nil => simp [fresh.idle] at calling
  | @snoc moments v u move notes course tame moves ih =>
    have warranted := course.warranted fresh
    by_cases own : move = .run driver
    · subst own
      obtain ⟨frame, rest, effect, stack, step, rfl, rfl⟩ := World.step_eq_some moves
      have straight : Straight m driver (frame :: rest) := stack ▸ warranted.tended.straight driver
      rw [World.stack_setStack, if_pos rfl, straight.drivesAt_stack
        (fun point calling => Pausing.Point.isAnnounced_of_isPressing
          (Pausing.Point.isPressing_of_isCalling calling)) step] at calling
      by_cases before : (frame :: rest).any (·.drivesAt m Pausing.Point.isCalling) = true
      · obtain ⟨early, first, mid, k, rfl, begins, on⟩ := ih (stack ▸ before)
        refine ⟨early, first, mid ++ [_], k, by simp; rfl, begins, ?_⟩
        rw [observations_append, List.mem_append, not_or]
        refine ⟨on, fun joins => ?_⟩
        have told : .joined m true ∈ effect.notes :=
          Effect.told (by simpa using joins) (by simp)
        obtain ⟨_, _, _, _, drives⟩ | ⟨q, rfl, manager, point, -⟩ := Frame.joining step told
        · simp at drives
        simp only [Frame.advance, Pausing.advance, point] at step
        obtain rfl := Option.some.inj step
        simp only [Control.drivesAt, Frame.drivesAt, Pausing.Point.isCalling, Pausing.Point.stage,
          Bool.or_eq_true, List.any_eq_true] at calling
        obtain calling | ⟨inner, mem, calling⟩ := calling
        · simp at calling
        cases inner <;> simp only [Bool.and_eq_true, decide_eq_true_eq, Bool.false_eq_true] at calling
        rename_i inner
        have pressing : inner.point.isPressing = true :=
          Pausing.Point.isPressing_of_isCalling calling.2
        rw [straight.no_inner manager (by simp [point]) mem calling.1] at pressing
        simp at pressing
      · rw [List.any_cons, Bool.or_eq_true, not_or, Bool.not_eq_true] at before
        obtain ⟨k, told⟩ := Frame.invalidates step before.1 <|
          (Bool.or_eq_true _ _ ▸ calling).resolve_right before.2
        exact ⟨moments, _, [], k, rfl, by simp [told], by simp⟩
    · rw [World.drivesAt_other _ moves own] at calling
      obtain ⟨before, first, mid, k, rfl, begins, on⟩ := ih calling
      refine ⟨before, first, mid ++ [⟨v, move, notes⟩], k, by simp, begins, ?_⟩
      simp [on, Moment.mem_observed, own]

/-- What only user code calls stands above a driver only within a script. -/
theorem Laid.script_between {p : Pausing} {inner : List Frame}
    (laid : Laid (frame :: (inner ++ .pausing p :: below))) (user : frame.isUserCall = true) :
    ∃ s, .script s ∈ inner := by
  induction inner generalizing frame with
  | nil =>
    have hosted := laid.1
    cases frame <;> simp [Frame.isUserCall, Frame.isHosted, Frame.hosts] at user hosted
  | cons parent inner ih =>
    have hosted : parent.hosts frame = true := laid.1
    cases parent with
    | script s => exact ⟨s, List.mem_cons_self⟩
    | sequence | blocking | trial | pausing | foreign =>
      obtain ⟨s, mem⟩ := ih laid.2 rfl
      exact ⟨s, List.mem_cons_of_mem _ mem⟩
    | _ => cases frame <;> simp [Frame.isUserCall, Frame.hosts] at user hosted

/-- Outside of user code, a driver interrupts threads by the visit to the members only. -/
theorem Laid.visit_between {p : Pausing} {i : Interruption} {inner : List Frame}
    (laid : Laid (.interruption i :: (inner ++ .pausing p :: below)))
    (plain : ∀ s, .script s ∉ inner) : ∃ x, inner = [.visit x] := by
  cases inner with
  | nil => simp [Laid, Frame.isHosted, Frame.hosts] at laid
  | cons parent inner =>
    have hosted : parent.hosts (.interruption i) = true := laid.1
    cases parent with
    | script s => exact absurd List.mem_cons_self (plain s)
    | sequence | trial =>
      obtain ⟨s, mem⟩ := laid.2.script_between rfl
      exact absurd (List.mem_cons_of_mem _ mem) (plain s)
    | visit x =>
      cases inner with
      | nil => exact ⟨x, rfl⟩
      | cons outer inner =>
        have hosted : outer.hosts (.visit x) = true := laid.2.1
        exfalso
        cases outer with
        | script s => exact plain s (by simp)
        | sequence | pausing =>
          obtain ⟨s, mem⟩ := laid.2.2.script_between rfl
          exact plain s (by simp [mem])
        | _ => simp [Frame.hosts] at hosted
    | _ => simp [Frame.hosts] at hosted

theorem World.not_wake_of_leaveGlobal {lock : GlobalId} {owner : ThreadId} {tag : Tag}
    (leaves : w.leaveGlobal lock owner = some (v, notes)) : .wake tag ∉ notes := by
  simp only [World.leaveGlobal] at leaves
  split at leaves
  · obtain ⟨-, rfl⟩ := Prod.mk.inj (Option.some.inj leaves)
    split <;> simp
  · simp at leaves

theorem World.not_wake_of_depart {phaser : PhaserRef} {phase : Nat} {tag : Tag}
    (departs : w.depart phaser = .ok (v, phase, notes)) : .wake tag ∉ notes := by
  unfold World.depart at departs
  dsimp only at departs
  split at departs
  · simp at departs
  · simp only [Except.ok.injEq, Prod.mk.injEq] at departs
    obtain ⟨-, -, rfl⟩ := departs
    split <;> simp

theorem Op.not_wake {op : Op} {tag : Tag} (step : op.advance self w = some effect) :
    .wake tag ∉ effect.notes := by
  cases op with
  | access a =>
    cases a <;> simp only [advance, Access.advance] at step
    case globalLeave =>
      obtain ⟨v, notes, leaves, rfl⟩ := World.leaves_of_bind step
      exact World.not_wake_of_leaveGlobal leaves
    case phaserDepart =>
      split at step <;> obtain rfl := Option.some.inj step
      · simp
      · exact World.not_wake_of_depart ‹_›
    all_goals
      repeat' split at step
      all_goals first
        | (obtain rfl := Option.some.inj step
           simp)
        | simp at step
  | release =>
    obtain ⟨v, notes, leaves, rfl⟩ := World.leaves_of_bind step
    exact World.not_wake_of_leaveGlobal leaves
  | deferLookup | unlock =>
    simp only [advance] at step
    split at step <;> obtain rfl := Option.some.inj step <;> simp
  | _ =>
    obtain rfl := Option.some.inj step
    simp

/-- A callback of user code is run by whoever interrupts the thread that has it. -/
theorem Frame.waking {tag : Tag} (step : frame.advance self w = some effect)
    (mem : .wake tag ∈ effect.notes) :
    ∃ i ops, frame = .interruption i ∧
      (w.interrupter i.target).callback = some (.script tag ops) := by
  cases frame with
  | start op => exact absurd mem (Op.not_wake step)
  | interruption i =>
    refine ⟨i, ?_⟩
    simp only [advance, Interruption.advance] at step
    repeat' split at step
    all_goals
      obtain rfl := Option.some.inj step
      simp at mem
    subst mem
    exact ⟨_, rfl, ‹_›⟩
  | _ =>
    exfalso
    simp only [advance, Acquisition.advance, Acquisition.took, Acquisition.gaveUp, Release.advance,
      OwnedLock.advanceNotify, Arrival.advance, Sleeping.advance, Parking.advance,
      Enrolment.advance, Withdrawal.advance, Visit.advance, Script.advance, Sequence.advance,
      Drain.advance, Phases.advance, Resuming.advance, Polling.advance, Entering.advance,
      Leaving.advance, Pausing.advance, Foreign.advance, Acquiring.advance, Blocking.advance,
      Trial.advance] at step
    repeat' split at step
    all_goals first
      | (obtain ⟨v, notes, leaves, rfl⟩ := World.leaves_of_bind step
         exact World.not_wake_of_leaveGlobal leaves mem)
      | (obtain rfl := Option.some.inj step
         first
           | (simp at mem; done)
           | exact World.not_wake_of_depart ‹_› mem)
      | simp at step

/-- A flag that is down is raised by whoever interrupts the thread. -/
theorem Frame.raising (step : frame.advance self w = some effect)
    (up : (effect.world.interrupter target).interrupted = true) :
    (w.interrupter target).interrupted = true ∨
      ∃ i, frame = .interruption i ∧ i.target = target ∧ i.point = .raise := by
  have shakes : effect.Shakes target self w frame := Frame.shakes step
  cases shakes with
  | raises top own point => exact .inr ⟨_, top, own, point⟩
  | keeps same | unparks _ _ _ same | lowers _ _ _ same | consumes _ _ same | installs _ same =>
    left
    rw [same] at up
    first
      | exact up
      | simp [Interrupter.lower] at up

/-- The driver that has invalidated the epoch, and whom it is to interrupt. -/
theorem Course.summoned_since {pre mid post : List Moment} {first : Moment} {k : Nat}
    (fresh : w.IsFresh m) (course : Course Tame w moments v)
    (parts : moments = pre ++ first :: (mid ++ post))
    (begins : (driver, .invalidated m k) ∈ first.observed)
    (on : (driver, .joined m true) ∉ observations mid) :
    ∃ x below pending, Course Tame x post v ∧ x.Warranted m ∧
      ((x.manager m).settings.interruptBlocked = false → first.world.summoned m driver = []) ∧
      Summoning m below (first.world.summoned m driver) pending (x.stack driver) ∧
      Called m driver (first.world.summoned m driver) mid pending x := by
  obtain ⟨next, before, tame, moved, after⟩ := course.split parts
  obtain ⟨x, during, later⟩ := after.cut rfl
  have warranted := before.warranted fresh
  have enrolled : Enrolled (.manager m) first.world := before.enrolled fresh.idle fresh.new.registry
  obtain ⟨runs, told⟩ := Moment.mem_observed.mp begins
  rw [runs] at moved
  obtain ⟨frame, below, effect, stack, step, rfl, notes⟩ := World.step_eq_some moved
  obtain ⟨p, rfl, manager, point⟩ := Frame.invalidating step (Effect.told (notes ▸ told) (by simp))
  simp only [Frame.advance, Pausing.advance, point] at step
  obtain rfl := Option.some.inj step
  obtain ⟨warranted', -, pending, summoning, counted⟩ := during.summoning
    (warranted.move tame (runs ▸ moved)) (enrolled.move warranted.laid (runs ▸ moved))
    (show World.stack _ driver = .pausing { p with point := .wakeWaiters } :: below by
      rw [World.stack_setStack, if_pos rfl]; rfl) manager rfl on
  have same : World.summoned (World.setStack (first.world.modifyManager p.manager fun manager =>
      { manager with epoch := manager.epoch.invalidate }) driver
      (.pausing { p with point := .wakeWaiters } :: below)) m driver =
      first.world.summoned m driver := by
    subst manager
    unfold World.summoned
    rw [World.manager_setStack, World.manager_modifyManager, if_pos rfl]
  have settings : (x.manager m).settings = (first.world.manager m).settings :=
    congrArg (·.2.2) (during.setup.trans (World.setup_move moved))
  exact ⟨x, below, pending, later, warranted', fun off => if_neg (by simp [← settings, off]),
    same ▸ summoning, same ▸ counted⟩

/-- A pause interrupts exactly those of its members that allow it, save the driver, and no one else. -/
theorem summons_of_pause (fresh : w.IsFresh m) (course : Course Tame w moments v) :
    Summons m moments where
  stale mem stack manager := by
    obtain ⟨pre, post, parts⟩ := List.append_of_mem mem
    obtain ⟨-, before, -⟩ := course.split parts
    obtain ⟨-, owner, epoch, action, blocked, other, listed⟩ :=
      (before.warranted fresh).interrupting manager stack
    exact ⟨epoch, action, owner, blocked, other, listed⟩
  within {pre moment post driver target} parts summons := by
    obtain ⟨world, move, notes⟩ := moment
    obtain ⟨rfl, i, x, p, below, stack, -, -, manager⟩ := Moment.summons_iff.mp summons
    obtain ⟨-, before, -⟩ := course.split parts
    have point := ((before.warranted fresh).interrupting manager
      (show _ = [] ++ _ :: _ :: _ :: _ from stack)).1.1
    refine before.calling_since fresh (List.any_eq_true.mpr ⟨.pausing p, ?_, ?_⟩)
    · simp only [stack]
      simp
    · simp [Frame.drivesAt, manager, point, Pausing.Point.isCalling, Pausing.Point.stage]
  once parts begins on := by
    obtain ⟨x, below, pending, -, -, -, -, counted⟩ := course.summoned_since fresh parts begins on
    exact counted.once
  all {pre first mid last post driver k} parts begins on joins target mem := by
    obtain ⟨x, below, pending, later, warranted, off, summoning, counted⟩ :=
      course.summoned_since fresh parts begins on
    obtain ⟨next, here, tame, moved, -⟩ := later.split (rfl : _ = [] ++ _ :: _)
    obtain rfl := here.nil_eq
    obtain ⟨runs, told⟩ := Moment.mem_observed.mp joins
    rw [runs] at moved
    obtain ⟨frame, rest, effect, stack, step, rfl, notes⟩ := World.step_eq_some moved
    have steady : isShaken (effect.control.stack rest) = false := by
      simpa [World.stack_setStack] using tame driver runs _ _ moved
    have none : pending = [] := (Summoning.step warranted stack steady off (stack ▸ summoning) step).1
      (Effect.told (notes ▸ told) (by simp))
    subst none
    exact (counted.all target mem).resolve_left (by simp)
  others {moment next driver above p below} mem runs stack manager plain moves := by
    obtain ⟨pre, post, parts⟩ := List.append_of_mem mem
    obtain ⟨-, before, -⟩ := course.split parts
    have laid := (before.warranted fresh).laid driver
    rw [stack] at laid
    have calls (i : Interruption) (inner : List Frame) (top : above = .interruption i :: inner) :
        ∃ x, inner = [.visit x] := by
      subst top
      exact laid.visit_between fun s deep => plain s (List.mem_cons_of_mem _ deep)
    obtain ⟨world, move, notes⟩ := moment
    dsimp only at runs stack moves laid
    subst runs
    obtain ⟨frame, rest, effect, stack', step, rfl, rfl⟩ := World.step_eq_some moves
    have visited (i : Interruption) (top : world.stack driver = .interruption i :: rest) :
        ∃ x, above = [.interruption i, .visit x] := by
      cases above with
      | nil => simp [top] at stack
      | cons first inner =>
        obtain ⟨rfl, -⟩ := List.cons.inj (stack.symm.trans top)
        obtain ⟨x, rfl⟩ := calls i inner rfl
        exact ⟨x, rfl⟩
    refine ⟨calls, fun thread up => ?_, fun tag told => ?_⟩
    · rw [World.interrupter_setStack] at up
      refine (Frame.raising step up).imp_right ?_
      rintro ⟨i, rfl, own, point⟩
      obtain ⟨x, rfl⟩ := visited i stack'
      exact Moment.summons_iff.mpr ⟨rfl, i, x, p, below, stack, own, point, manager⟩
    · obtain ⟨i, ops, rfl, callback⟩ := Frame.waking step (Effect.told told (by simp))
      obtain ⟨x, rfl⟩ := visited i stack'
      exact ⟨i, x, ops, rfl, callback⟩

/-- In the pause of two threads, the second is to be interrupted, and is interrupted once. -/
theorem summons_of_pause_pauseOfTwo : ∃ moments pre first mid last post v, World.pair.IsFresh 0 ∧
    Course Tame World.pair moments v ∧ moments = pre ++ first :: (mid ++ last :: post) ∧
    (0, .invalidated 0 0) ∈ first.observed ∧ (0, .joined 0 true) ∉ observations mid ∧
    (0, .joined 0 true) ∈ last.observed ∧ first.world.summoned 0 0 = [1] ∧
    mid.countP (·.summons 0 0 1) = 1 ∧ Summons 0 moments := by
  have made : (World.pair.follow World.isTame pauseOfTwo).any (fun made =>
      made.1[41]?.any (fun first => shows 0 (·.isInvalidation 0 0) first.observed &&
        first.world.summoned 0 0 = [1]) &&
      (made.1.drop 42)[11]?.any (fun last => shows 0 (·.isJoining 0 true) last.observed) &&
      !shows 0 (·.isJoining 0 true) (observations ((made.1.drop 42).take 11)) &&
      ((made.1.drop 42).take 11).countP (·.summons 0 0 1) = 1) = true := by
    decide +kernel
  obtain ⟨⟨moments, v⟩, follows, state⟩ := (Option.any_eq_true _ _).mp made
  simp only [Bool.and_eq_true, decide_eq_true_eq, Option.any_eq_true] at state
  obtain ⟨⟨⟨⟨first, found, invalidates, called⟩, last, found', joins⟩, within⟩, once⟩ := state
  have course := World.course_of_follow (fun _ _ tame => World.tame_of_isTame tame) follows
  have on : (0, Note.joined 0 true) ∉ observations ((moments.drop 42).take 11) := by
    intro mem
    simp [(shows_iff Note.isJoining_iff).mpr mem] at within
  have parts : moments = moments.take 41 ++ first ::
      ((moments.drop 42).take 11 ++ last :: (moments.drop 42).drop 12) := by
    rw [← eq_take_cons_drop found']
    exact eq_take_cons_drop found
  exact ⟨moments, _, first, _, last, _, v, World.pair_isFresh, course, parts,
    (shows_iff Note.isInvalidation_iff).mp invalidates, on, (shows_iff Note.isJoining_iff).mp joins,
    called, once, summons_of_pause World.pair_isFresh course⟩

end

end StopTheWorld
