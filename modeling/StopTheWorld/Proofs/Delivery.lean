import StopTheWorld.Proofs.Meeting
import StopTheWorld.Proofs.Panics
import StopTheWorld.Proofs.Serving

namespace StopTheWorld

/-! What is queued for a participant of a pause during the third phase is delivered with the pause:
the call that took the participant there runs it, once, before it comes back. -/

/-- The step that a thread is about to take is one of user code whose callbacks neither call the
manager nor unwind, and whose deferred actions do not leave it. -/
structure Staying (m : ManagerId) (w : World) (thread : ThreadId) : Prop where
  /-- The thread is one for which a record has been made. -/
  known : w.Owns (w.recordOf thread) thread
  /-- There is no other manager. -/
  single : ∀ {op rest}, w.stack thread = .start op :: rest → op.calls? = none ∨ op.calls? = some m
  callbacks : ∀ {op rest}, w.stack thread = .start op :: rest → inCallback rest = true →
    op.calls? = none
  steady : ∀ {frame rest effect}, w.stack thread = frame :: rest → inCallback rest = true →
    frame.advance thread w = some effect → ∀ message, effect.control ≠ .unwind message
  /-- Only the action of a further pause may, where it is ignored. -/
  leaves : ∀ {rest}, w.stack thread = .start (.leave m) :: rest → rest.any (·.isDrain) = true →
    rest.any (·.isPhases) = true

/-- Decides whether a step is one of user code that stays. -/
def World.isStaying (m : ManagerId) (w : World) (thread : ThreadId) : Bool :=
  w.recordOf thread < w.nextRecord && (w.record (w.recordOf thread)).thread = thread &&
  match w.stack thread with
  | [] => true
  | frame :: rest =>
    (match frame with
      | .start op =>
        (op.calls? = none || op.calls? = some m && !inCallback rest) &&
          (match op with
            | .leave _ => !rest.any (·.isDrain) || rest.any (·.isPhases)
            | _ => true)
      | _ => true) &&
    (!inCallback rest ||
      match (frame.advance thread w).map (·.control) with
      | some (Control.unwind _) => false
      | _ => true)

/-- The thread has joined a pause by the call on top of this stack at the first moment, was in the
phases of it at the others, and has yet to come back from the call. -/
structure HasJoined (m : ManagerId) (thread : ThreadId) (drives : Bool) (joiner : Frame)
    (base : List Frame) (first : Moment) (mid : List Moment) (next : World) : Prop where
  joins : (thread, .joined m drives) ∈ first.observed
  stack : first.world.stack thread = joiner :: base
  meets : ∃ back, ∀ moment ∈ mid, Meeting (back :: base) (moment.world.stack thread)
  on : base.length < (next.stack thread).length

namespace Attendance

/-- The thread takes what is queued on its record: after the phase, which was the third one of its
pause, and once it has given the pause lock back and taken the global lock, as far as it is to. What
is in the queue ends with what comes behind the action. -/
structure Takes (a : Attendance) (record : RecordId) (queue : List Deferred) (action : Deferred)
    (behind : List Deferred) (phase : Nat) (history : List Moment) (take : Moment) (r : Resuming) :
    Prop where
  runs : take.move = .run a.thread
  drain : ∃ d, take.world.stack a.thread = .drain d :: .resuming r :: a.tail ∧ d.record = record ∧
    d.point = .take
  found : (take.world.record record).deferred = queue ++ action :: behind
  past : phase < (take.world.manager a.manager).registry.phaser.phase
  passed : a.Passed history (take.world.manager a.manager).registry.phaser.phase
    (a.drives = true) (a.holdsGlobal = true)

/-- The call takes the action, and what becomes of it: the thread starts it once, or a deferred action
that comes before it unwinds. -/
inductive Delivers (a : Attendance) (record : RecordId) (queue : List Deferred) (action : Deferred)
    (phase : Nat) (history moments : List Moment) : Prop
  | runs {behind : List Deferred} {before later : List Moment} {take : Moment} {r : Resuming}
      (parts : moments = before ++ take :: later)
      (takes : a.Takes record queue action behind phase (history ++ before) take r)
      (once : OnceIn (Moment.Serves a.thread (.resuming r :: a.tail) record action behind) later)
  | drops {behind : List Deferred} {before later : List Moment} {take last : Moment} {r : Resuming}
      (parts : moments = before ++ take :: (later ++ [last]))
      (takes : a.Takes record queue action behind phase (history ++ before) take r)
      (drops : last.Drops a.thread (.resuming r :: a.tail) behind)
      (never : ∀ moment ∈ later ++ [last],
        ¬ moment.Serves a.thread (.resuming r :: a.tail) record action behind)

/-- Where the action is, as long as the call lasts: nowhere in particular once the thread's own run of
the action of the pause has unwound. -/
inductive Due (a : Attendance) (record : RecordId) (queue : List Deferred) (action : Deferred)
    (phase : Nat) (history moments : List Moment) (w : World) : Prop
  | broken (broken : a.HasBroken (history ++ moments))
  | queued {behind : List Deferred}
      (attends : a.Attends (history ++ moments) (w.core a.manager).phaser.phase (w.stack a.thread))
      (unbroken : ¬ a.HasBroken (history ++ moments)) (untaken : ¬ a.Drained (history ++ moments))
      (found : (w.record record).deferred = queue ++ action :: behind)
  | taken {behind : List Deferred} {before later : List Moment} {take : Moment} {r : Resuming}
      (parts : moments = before ++ take :: later)
      (takes : a.Takes record queue action behind phase (history ++ before) take r)
      (point : r.point = .drained)
      (serving : a.Serving r record action behind later (w.stack a.thread))

end Attendance

/-- What holds in every world that threads come to which have records and are orderly. -/
structure World.IsRegular (m : ManagerId) (w : World) : Prop where
  coherent : w.Coherent m
  owned : w.IsOwned m
  laid : w.IsLaid

section

variable {m : ManagerId} {w v : World} {self thread : ThreadId} {rest below base : List Frame}
  {record : RecordId} {moments : List Moment} {notes : List Note}

theorem World.staying_of_isStaying (m : ManagerId) (w : World) (thread : ThreadId)
    (stays : w.isStaying m thread = true) : Staying m w thread := by
  unfold World.isStaying at stays
  rw [Bool.and_eq_true, Bool.and_eq_true] at stays
  obtain ⟨⟨made, own⟩, stays⟩ := stays
  refine ⟨⟨of_decide_eq_true made, of_decide_eq_true own⟩, ?_, ?_, ?_, ?_⟩
  · intro op rest stack
    rw [stack] at stays
    simp only [Bool.and_eq_true, Bool.or_eq_true, decide_eq_true_eq] at stays
    exact stays.1.1.imp_right (·.1)
  · intro op rest stack inside
    rw [stack] at stays
    simp only [Bool.and_eq_true, Bool.or_eq_true, decide_eq_true_eq, inside] at stays
    simpa using stays.1.1
  · intro frame rest effect stack inside step message unwinds
    rw [stack] at stays
    simp only [Bool.and_eq_true, inside, step, Option.map_some, unwinds] at stays
    simp at stays
  · intro rest stack drains
    rw [stack] at stays
    simp only [Bool.and_eq_true, drains] at stays
    simpa using stays.1.2

theorem Staying.toKnown (stays : Staying m w thread) (coherent : w.Coherent m) : Known m w thread :=
  ⟨coherent.orderly stays.single stays.callbacks stays.steady stays.leaves, stays.known⟩

theorem World.IsRegular.move {move : Move} (regular : w.IsRegular m)
    (known : ∀ thread, move = .run thread → Known m w thread)
    (moves : w.move move = some (v, notes)) : v.IsRegular m :=
  ⟨(regular.coherent.move (fun thread runs => (known thread runs).toOrderly) moves).1,
    regular.owned.move regular.coherent known moves, regular.laid.move moves⟩

theorem World.IsFresh.isRegular (fresh : w.IsFresh m) : w.IsRegular m :=
  ⟨fresh.coherent, fresh.isOwned, fresh.isLaid⟩

theorem Course.isRegular (course : Course (Known m) w moments v) (regular : w.IsRegular m) :
    v.IsRegular m :=
  course.keeps (fun regular known moves => regular.move known moves) regular

section Ahead

/-! From the step by which the participant goes into the phases until it takes what is queued. -/

variable {a : Attendance} {history : List Moment} {move : Move} {phase now : Nat}

/-- Only a drain takes actions from a queue, or starts them. -/
theorem World.drain_of_deferring {note : Note} (moves : w.move move = some (v, notes))
    (observed : (thread, note) ∈ (⟨w, move, notes⟩ : Moment).observed)
    (defers : note.isDeferring = true) :
    move = .run thread ∧ ∃ d rest effect, w.stack thread = .drain d :: rest ∧
      d.advance w = some effect ∧ note ∈ effect.notes := by
  obtain ⟨rfl, noted⟩ := Moment.mem_observed.mp observed
  obtain ⟨frame, rest, effect, stack, step, rfl, rfl⟩ := World.step_eq_some moves
  have told : note ∈ effect.notes := Effect.told noted fun value completed => by
    simp [completed, Note.isDeferring] at defers
  obtain ⟨d, rfl⟩ := Frame.deferring step told defers
  exact ⟨rfl, d, rest, effect, stack, step, told⟩

theorem World.IsRegular.outside {d : Drain} (regular : w.IsRegular m)
    (stack : w.stack thread = .drain d :: rest) : rest.any (·.isPhases) = false :=
  (regular.coherent.drains_outside regular.laid
    (show w.stack thread = [] ++ .drain d :: rest from stack)).2

theorem World.IsRegular.not_meeting {d : Drain} (regular : w.IsRegular m)
    (stack : w.stack thread = .drain d :: rest) : ¬ Meeting below (w.stack thread) := by
  intro meeting
  have outside := regular.outside stack
  rw [stack] at meeting
  rw [(meeting.of_cons rfl).isPhases] at outside
  simp at outside

/-- A thread that is in the phases takes nothing from its queue. -/
theorem World.IsRegular.takes_nothing {taken : Nat} (regular : w.IsRegular m)
    (meeting : Meeting below (w.stack thread)) (moves : w.move move = some (v, notes)) :
    (thread, .drained record taken) ∉ (⟨w, move, notes⟩ : Moment).observed := by
  intro observed
  obtain ⟨-, d, rest, -, stack, -⟩ := World.drain_of_deferring moves observed rfl
  exact regular.not_meeting stack meeting

/-- As long as nothing has unwound, or been taken, the call does not come to its end. -/
theorem Attendance.Ends.cause {last : Moment} {next : World} (ends : a.Ends history now last next) :
    a.HasBroken history ∨ a.Drained history := by
  cases ends with
  | unwinds broke => exact .inl (broke.hasBroken (by simp))
  | replies _ _ drained => exact .inr drained

theorem Attendance.Attends.ahead
    (attends : a.Attends history (w.core a.manager).phaser.phase (w.stack a.thread))
    (unbroken : ¬ a.HasBroken history) (untaken : ¬ a.Drained history)
    (coherent : w.Coherent a.manager)
    (orderly : ∀ thread, move = .run thread → Orderly a.manager w thread)
    (lock : (w.manager a.manager).globalLock = a.globalLock)
    (moves : w.move move = some (v, notes)) :
    a.Attends (history ++ [⟨w, move, notes⟩]) (v.core a.manager).phaser.phase (v.stack a.thread) :=
  (attends.move coherent orderly (fun _ drained => absurd drained untaken) lock
    (fun broken => absurd broken unbroken) moves).resolve_right
    fun ended => ended.2.cause.elim unbroken untaken

theorem Attendance.HasBroken.on {later : List Moment} (broken : a.HasBroken history) :
    a.HasBroken (history ++ later) := by
  obtain ⟨moment, mem, breaks⟩ := broken
  exact ⟨moment, List.mem_append_left _ mem, breaks⟩

theorem Attendance.Drained.snoc_iff {moment : Moment} (bound : a.record = some record) :
    a.Drained (history ++ [moment]) ↔ a.Drained history ∨
      ∃ taken, (a.thread, .drained record taken) ∈ moment.observed := by
  simp only [Attendance.Drained, bound, Option.some.injEq, forall_eq', observations_append,
    observations_cons, observations_nil, List.append_nil, List.mem_append, exists_or]

/-- While it is in the phases, the participant attends the pause, unless its own run of the action has
unwound, and takes nothing from its queue. -/
theorem Course.meets (course : Course (Known a.manager) w moments v)
    (regular : w.IsRegular a.manager) (bound : a.record = some record)
    (attends : a.Attends [] (w.core a.manager).phaser.phase (w.stack a.thread))
    (lock : (w.manager a.manager).globalLock = a.globalLock)
    (meeting : ∀ moment ∈ moments, Meeting below (moment.world.stack a.thread)) :
    a.HasBroken moments ∨
      a.Attends moments (v.core a.manager).phaser.phase (v.stack a.thread) ∧
        ¬ a.Drained moments := by
  induction course with
  | nil =>
    refine .inr ⟨attends, fun drained => ?_⟩
    obtain ⟨taken, mem⟩ := drained record bound
    simp at mem
  | @snoc moments v u move notes before known moves ih =>
    obtain broken | ⟨attends, untaken⟩ :=
      ih fun moment mem => meeting moment (List.mem_append_left _ mem)
    · exact .inl broken.on
    · by_cases unbroken : a.HasBroken moments
      · exact .inl unbroken.on
      have reached := before.isRegular regular
      refine .inr ⟨attends.ahead unbroken untaken reached.coherent
        (fun thread runs => (known thread runs).toOrderly)
        (before.globalLock_eq.trans lock) moves, fun drained => ?_⟩
      obtain drained | ⟨taken, observed⟩ := (Attendance.Drained.snoc_iff bound).mp drained
      · exact untaken drained
      · exact reached.takes_nothing (meeting ⟨v, move, notes⟩ (by simp)) moves observed

/-- The third phase is over when a participant is no longer in the phases. -/
theorem World.Coherent.past (coherent : w.Coherent m)
    (orderly : ∀ thread, move = .run thread → Orderly m w thread)
    (moves : w.move move = some (v, notes)) (third : phase % 3 = 2)
    (le : phase ≤ (w.core m).phaser.phase)
    (now : (w.posture m thread).meets = true ∨ phase < (w.core m).phaser.phase) :
    (v.posture m thread).meets = true ∨ phase < (v.core m).phaser.phase := by
  have up : (w.core m).phaser.phase ≤ (v.scene m).core.phaser.phase :=
    coherent.phase_le orderly moves
  have turns := (coherent.move orderly moves).2
  show ((v.scene m).posture thread).meets = true ∨ phase < (v.scene m).core.phaser.phase
  generalize v.scene m = after at up turns
  obtain meets | past := now
  · have meets : ((w.scene m).posture thread).meets = true := meets
    cases turns with
    | idle => exact .inl meets
    | @run self _ _ _ turn =>
      by_cases own : thread = self
      · subst own
        have admits := coherent.lawful.admits thread
        have advances := turn.advances
        generalize (w.scene m).posture thread = before at meets admits advances
        generalize after.posture thread = posture at advances
        have gone {leads : Option (List Op)} (same : before = .meeting leads .finish none) :
            phase < (w.core m).phaser.phase := by
          have pace : (w.core m).phaser.phase = 3 * (w.core m).pauses + 3 ∨
            3 = 3 ∧ (w.core m).phaser.phase = 3 * (w.core m).pauses := (admits.meets same).pace
          omega
        cases advances with
        | stay => exact .inl meets
        | part | close => exact .inr (Nat.lt_of_lt_of_le (gone rfl) up)
        | approach | wait | complete | wake | republish | start | decline => exact .inl rfl
        | _ => simp [Posture.meets] at meets
      · rw [turn.others thread own]
        exact .inl meets
  · exact .inr (Nat.lt_of_lt_of_le past up)

end Ahead

section Serving

/-! From the step by which the participant takes what is queued. -/

variable {a : Attendance} {history : List Moment} {action : Deferred} {queue : List Deferred}
  {phase now : Nat}

/-- A participant that comes to its queue takes it. -/
theorem Attendance.Attends.takes {d : Drain} (attends : a.Attends history now (.drain d :: rest))
    (untaken : ¬ a.Drained history) (outside : rest.any (·.isPhases) = false) :
    ∃ r, rest = .resuming r :: a.tail ∧ r.point = .drained ∧ a.record = some d.record ∧
      d.point = .take ∧ a.Passed history now (a.drives = true) (a.holdsGlobal = true) := by
  generalize shape : Frame.drain d :: rest = stack at attends
  cases attends with
  | @acts above q joiner =>
    cases above with
    | nil => simp at shape
    | cons top above =>
      obtain ⟨-, rfl⟩ := List.cons.inj shape
      simp [Frame.isPhases] at outside
  | @drains above d' r _ _ _ point bound _ _ passed took =>
    cases above with
    | nil =>
      obtain ⟨same, rfl⟩ := List.cons.inj shape
      obtain rfl := Frame.drain.inj same
      refine ⟨r, rfl, point, bound, ?_, passed⟩
      cases stage : d.point with
      | take => rfl
      | run => exact absurd (took (.inr stage)) untaken
    | cons => exact absurd (took (.inl (by simp))) untaken
  | returns joins =>
    obtain ⟨rfl, -⟩ := List.cons.inj shape
    cases joins
  | _ => simp at shape

/-- What others do to the queue of a record, and what its thread does that is not about to take it,
adds to its end at most. -/
theorem World.IsRegular.adds {move : Move} (regular : w.IsRegular m) (owns : w.Owns record thread)
    (other : move = .run thread → ∀ d rest, w.stack thread ≠ .drain d :: rest)
    (moves : w.move move = some (v, notes)) :
    ∃ added, (v.record record).deferred = (w.record record).deferred ++ added := by
  by_cases runs : move = .run thread
  · subst runs
    obtain ⟨frame, rest, effect, stack, step, rfl, -⟩ := World.step_eq_some moves
    show ∃ added, (effect.world.record record).deferred = _ ++ added
    cases (Frame.books step).treats record owns.made with
    | leaves same | sets same => exact ⟨[], by simp [same]⟩
    | @queues action same => exact ⟨[action], by simp [same]⟩
    | drains drain => exact absurd (drain ▸ stack) (other rfl _ _)
  · obtain same | ⟨self, action, grown, -⟩ := regular.owned.queue owns runs moves
    · exact ⟨[], by simp [same]⟩
    · exact ⟨[action], grown⟩

theorem Attendance.Due.move {move : Move}
    (due : a.Due record queue action phase history moments w) (regular : w.IsRegular a.manager)
    (known : ∀ thread, move = .run thread → Known a.manager w thread)
    (lock : (w.manager a.manager).globalLock = a.globalLock) (bound : a.record = some record)
    (owns : w.Owns record a.thread)
    (past : (w.posture a.manager a.thread).meets = true ∨ phase < (w.core a.manager).phaser.phase)
    (moves : w.move move = some (v, notes)) :
    a.Due record queue action phase history (moments ++ [⟨w, move, notes⟩]) v ∨
      (v.stack a.thread).length ≤ a.base.length ∧
        a.Delivers record queue action phase history (moments ++ [⟨w, move, notes⟩]) := by
  cases due with
  | broken broken =>
    refine .inl (.broken ?_)
    rw [← List.append_assoc]
    exact broken.on
  | @queued behind attends unbroken untaken found =>
    by_cases taking : move = .run a.thread ∧ ∃ d rest, w.stack a.thread = .drain d :: rest
    · obtain ⟨rfl, d, rest, stack⟩ := taking
      have outside := regular.outside stack
      have gone := past.resolve_left fun meets =>
        (regular.coherent.meeting meets).elim fun _ => regular.not_meeting stack
      rw [stack] at attends
      obtain ⟨r, rfl, point, same, take, passed⟩ := attends.takes untaken outside
      obtain rfl : record = d.record := Option.some.inj (bound.symm.trans same)
      obtain ⟨frame, rest, effect, stack', step, rfl, rfl⟩ := World.step_eq_some moves
      obtain ⟨rfl, rfl⟩ := List.cons.inj (stack.symm.trans stack')
      simp only [Frame.advance, Drain.advance, take] at step
      obtain rfl := Option.some.inj step
      refine .inl (.taken rfl ⟨rfl, ⟨d, stack, rfl, take⟩, found, gone, passed⟩ point ?_)
      rw [World.stack_setStack, if_pos rfl]
      show a.Serving r _ action behind [] ([] ++ .drain _ :: .resuming r :: a.tail)
      exact .waits rfl rfl found (by simp)
    · have attends := attends.ahead unbroken untaken regular.coherent
        (fun thread runs => (known thread runs).toOrderly) lock moves
      obtain ⟨added, grown⟩ := regular.adds owns
        (fun runs d rest stack => taking ⟨runs, d, rest, stack⟩) moves
      left
      rw [List.append_assoc] at attends
      by_cases broken : a.HasBroken (history ++ (moments ++ [⟨w, move, notes⟩]))
      · exact .broken broken
      have found : (v.record record).deferred = queue ++ action :: (behind ++ added) := by
        simp [grown, found]
      refine .queued attends broken (fun drained => ?_) found
      rw [← List.append_assoc, Attendance.Drained.snoc_iff bound] at drained
      obtain drained | ⟨taken, observed⟩ := drained
      · exact untaken drained
      · obtain ⟨runs, d, rest, -, stack, -⟩ := World.drain_of_deferring moves observed rfl
        exact taking ⟨runs, d, rest, stack⟩
  | @taken behind before later take r parts takes point serving =>
    have parts (moment : Moment) : moments ++ [moment] = before ++ take :: (later ++ [moment]) := by
      simp [parts]
    by_cases runs : move = .run a.thread
    · subst runs
      obtain ⟨frame, rest, effect, stack, step, rfl, rfl⟩ := World.step_eq_some moves
      rw [stack] at serving
      rw [World.stack_setStack, if_pos rfl]
      obtain serving | ⟨ended, once | ⟨drops, never⟩⟩ := serving.own point stack step rfl
      · refine .inl (.taken (parts _) takes point ?_)
        rw [World.stack_setStack, if_pos rfl]
        exact serving
      · exact .inr ⟨ended, .runs (parts _) takes once⟩
      · exact .inr ⟨ended, .drops (parts _) takes drops never⟩
    · have kept := serving.on fun serves : Moment.Serves _ _ _ _ _ ⟨w, move, notes⟩ =>
        runs serves.runs
      refine .inl (.taken (parts _) takes point ?_)
      obtain ⟨-, same | ⟨op, idle, -⟩ | ⟨frame, frame', rest, earlier, after, rouses⟩⟩ :=
        World.move_other moves runs
      · exact same ▸ kept
      · have lt := serving.base_lt_length
        simp [idle] at lt
      · rw [earlier] at kept
        rw [after]
        exact kept.rouse rouses

end Serving

section Delivered

variable {a : Attendance} {history : List Moment} {action : Deferred} {queue : List Deferred}
  {phase now : Nat}

theorem Course.past (course : Course (Orderly m) w moments v) (coherent : w.Coherent m)
    (third : phase % 3 = 2) (le : phase ≤ (w.core m).phaser.phase)
    (now : (w.posture m thread).meets = true ∨ phase < (w.core m).phaser.phase) :
    (v.posture m thread).meets = true ∨ phase < (v.core m).phaser.phase := by
  refine (course.keeps (P := fun u => u.Coherent m ∧ phase ≤ (u.core m).phaser.phase ∧
    ((u.posture m thread).meets = true ∨ phase < (u.core m).phaser.phase)) ?_
    ⟨coherent, le, now⟩).2.2
  intro x y move notes ⟨reached, le, now⟩ orderly moves
  exact ⟨(reached.move orderly moves).1, Nat.le_trans le (reached.phase_le orderly moves),
    reached.past orderly moves third le now⟩

/-- As long as the call lasts, the action is waiting, or is being served. -/
theorem Course.due (course : Course (Known a.manager) w moments v) (regular : w.IsRegular a.manager)
    (lock : (w.manager a.manager).globalLock = a.globalLock) (bound : a.record = some record)
    (owns : w.Owns record a.thread) (third : phase % 3 = 2)
    (le : phase ≤ (w.core a.manager).phaser.phase)
    (past : (w.posture a.manager a.thread).meets = true ∨ phase < (w.core a.manager).phaser.phase)
    (due : a.Due record queue action phase history [] w)
    (within : ∀ moment ∈ moments, a.base.length < (moment.world.stack a.thread).length)
    (on : a.base.length < (v.stack a.thread).length) :
    a.Due record queue action phase history moments v := by
  induction course with
  | nil => exact due
  | @snoc moments v u move notes before known moves ih =>
    have due := ih (fun moment mem => within moment (List.mem_append_left _ mem))
      (within ⟨v, move, notes⟩ (by simp))
    refine (due.move (before.isRegular regular) known (before.globalLock_eq.trans lock)
      bound ?_ (before.orderly.past regular.coherent third le past) moves).resolve_right
      fun ended => absurd on (Nat.not_lt.mpr ended.1)
    exact before.owns owns

/-- A call that comes to its end has delivered the action, if nothing has unwound. -/
theorem Course.delivers {last : Moment} {next : World}
    (course : Course (Known a.manager) w moments last.world) (regular : w.IsRegular a.manager)
    (lock : (w.manager a.manager).globalLock = a.globalLock) (bound : a.record = some record)
    (owns : w.Owns record a.thread) (third : phase % 3 = 2)
    (le : phase ≤ (w.core a.manager).phaser.phase)
    (past : (w.posture a.manager a.thread).meets = true ∨ phase < (w.core a.manager).phaser.phase)
    (due : a.Due record queue action phase history [] w)
    (within : ∀ moment ∈ moments ++ [last], a.base.length < (moment.world.stack a.thread).length)
    (known : ∀ thread, last.move = .run thread → Known a.manager last.world thread)
    (moves : last.world.move last.move = some (next, last.notes))
    (ends : (next.stack a.thread).length ≤ a.base.length) :
    a.HasBroken (history ++ (moments ++ [last])) ∨
      a.Delivers record queue action phase history (moments ++ [last]) := by
  have due := course.due regular lock bound owns third le past due
    (fun moment mem => within moment (List.mem_append_left _ mem)) (within last (by simp))
  have owns := course.owns owns
  obtain due | ⟨-, delivers⟩ := due.move (course.isRegular regular) known
    (course.globalLock_eq.trans lock) bound owns
    (course.orderly.past regular.coherent third le past) moves
  · cases due with
    | broken broken => exact .inl broken
    | queued attends => exact absurd (Attendance.base_lt_length attends) (Nat.not_lt.mpr ends)
    | taken _ _ _ serving => exact absurd serving.base_lt_length (Nat.not_lt.mpr ends)
  · exact .inr delivers

/-- A participant attends the pause with the record that the phases run the action with. -/
theorem Attendance.Attends.record_eq {q : Phases} {back : Frame}
    (attends : a.Attends history now (.phases q :: back :: a.base)) : q.record = a.record := by
  generalize shape : Frame.phases q :: back :: a.base = stack at attends
  cases attends with
  | meets within =>
    obtain ⟨same, -⟩ := List.cons.inj shape
    obtain rfl := Frame.phases.inj same
    exact within.record
  | @acts above q' joiner within =>
    cases above with
    | nil =>
      obtain ⟨same, -⟩ := List.cons.inj shape
      obtain rfl := Frame.phases.inj same
      exact within.record
    | cons top above =>
      have lengths := congrArg List.length shape
      simp only [List.length_cons, List.length_append] at lengths
      omega
  | @drains above =>
    cases above with
    | nil => simp at shape
    | cons top above =>
      have le := a.length_base_le
      have lengths := congrArg List.length shape
      simp only [List.length_cons, List.length_append] at lengths
      omega
  | returns joins =>
    obtain ⟨rfl, -⟩ := List.cons.inj shape
    cases joins
  | _ => simp at shape

/-- A thread that is in the phases has joined a pause, and attends it with the record that it is
registered with, unless its own run of the action has unwound. -/
theorem Course.attending {entry : Registration} (course : Course (Known m) w moments v)
    (fresh : w.IsFresh m) (meeting : Meeting below (v.stack thread))
    (found : (v.manager m).registry.get? thread = some entry) (bound : entry.record = some record) :
    ∃ early first mid drives joiner back base, moments = early ++ first :: mid ∧
      (thread, .joined m drives) ∈ first.observed ∧ first.world.stack thread = joiner :: base ∧
      below = back :: base ∧ (∀ moment ∈ mid, Meeting (back :: base) (moment.world.stack thread)) ∧
      (v.manager m).globalLock = (first.world.manager m).globalLock ∧
      ((Attendance.mk m thread drives joiner.holdsGlobal (some record)
          (first.world.manager m).globalLock base).HasBroken mid ∨
        (Attendance.mk m thread drives joiner.holdsGlobal (some record)
          (first.world.manager m).globalLock base).Attends mid (v.core m).phaser.phase
            (v.stack thread) ∧
        ¬ (Attendance.mk m thread drives joiner.holdsGlobal (some record)
          (first.world.manager m).globalLock base).Drained mid) := by
  obtain ⟨early, first, mid, joiner, back, base, q, next, rfl, joins, stack, rfl, moved, on, within⟩ :=
    course.joined (fresh.idle thread) meeting
  have regular := course.isRegular fresh.isRegular
  obtain ⟨next', before, known, moved', after⟩ := course.split rfl
  obtain rfl : next' = next := congrArg Prod.fst (Option.some.inj (moved'.symm.trans moved))
  have regular₀ := before.isRegular fresh.isRegular
  have regular₁ := regular₀.move known moved
  obtain ⟨runs, noted⟩ := Moment.mem_observed.mp joins
  rw [runs] at moved
  have sound := regular₁.coherent.sound thread
  rw [on] at sound
  rw [sound.1.1] at joins noted
  obtain ⟨entry', found', attends⟩ := regular₀.coherent.joining_of_orderly (known thread runs).toOrderly
    (before.orderly.isWhole fresh.coherent fresh.isWhole) moved noted stack
  have same : entry'.record = some record := by
    have bond := regular.coherent.bond_eq meeting found
    rw [sound.bond_eq, Option.some.injEq, bound] at bond
    rw [on] at attends
    exact attends.record_eq.symm.trans bond
  rw [same] at attends
  exact ⟨early, first, mid, q.drives, joiner, back, base, rfl, joins, stack, rfl, within,
    course.globalLock_eq.trans before.globalLock_eq.symm,
    after.meets regular₁ rfl attends (World.globalLock_move moved) within⟩

/-- What is queued is added to the queue, and takes nobody out of the phases. -/
theorem World.queues {next : World} {tag : Tag} (moves : w.step self = some (next, notes))
    (queued : .queued record tag ∈ notes) :
    (∃ action, action.tag = tag ∧
      (next.record record).deferred = (w.record record).deferred ++ [action]) ∧
    ∀ {thread back base}, Meeting (back :: base) (w.stack thread) →
      base.length < (next.stack thread).length := by
  obtain ⟨frame, rest, effect, stack, step, rfl, rfl⟩ := World.step_eq_some moves
  have told : .queued record tag ∈ effect.notes := Effect.told queued (by simp)
  obtain ⟨op, script, value, rfl, world, replies⟩ := Frame.queueing step told
  refine ⟨⟨{ tag, script }, rfl, ?_⟩, fun {thread back base} meeting => ?_⟩
  · show (effect.world.record record).deferred = _
    rw [world, World.defer, World.record_modifyRecord, if_pos rfl]
    rfl
  · rw [World.stack_setStack]
    split
    · rename_i own
      subst own
      rw [stack] at meeting
      have lt := (meeting.of_cons rfl).length_lt
      rw [replies]
      cases rest with
      | nil => simp at lt
      | cons parent below =>
        simp only [List.length_cons, Control.stack] at lt ⊢
        omega
    · rw [Frame.advance_stack step]
      exact Nat.lt_of_succ_lt meeting.length_lt

/-- What is queued while its thread is in the phases is delivered by the end of the call. -/
theorem Course.delivered {queues last : Moment} {mid : List Moment} {next ended : World}
    (regular : queues.world.IsRegular a.manager)
    (known : ∀ thread, queues.move = .run thread → Known a.manager queues.world thread)
    (moved : queues.world.move queues.move = some (next, queues.notes))
    (course : Course (Known a.manager) next moments last.world)
    (known' : ∀ thread, last.move = .run thread → Known a.manager last.world thread)
    (bound : a.record = some record) (owns : queues.world.Owns record a.thread)
    (lock : (queues.world.manager a.manager).globalLock = a.globalLock)
    (third : (queues.world.core a.manager).phaser.phase % 3 = 2)
    (meets : (queues.world.posture a.manager a.thread).meets = true)
    (attends : a.HasBroken mid ∨ a.Attends mid (queues.world.core a.manager).phaser.phase
      (queues.world.stack a.thread) ∧ ¬ a.Drained mid)
    (grown : (next.record record).deferred = (queues.world.record record).deferred ++ [action])
    (within : ∀ moment ∈ moments ++ [last], a.base.length < (moment.world.stack a.thread).length)
    (moves : last.world.move last.move = some (ended, last.notes))
    (ends : (ended.stack a.thread).length ≤ a.base.length) :
    a.HasBroken (mid ++ queues :: (moments ++ [last])) ∨
      a.Delivers record (queues.world.record record).deferred action
        (queues.world.core a.manager).phaser.phase (mid ++ [queues]) (moments ++ [last]) := by
  have orderly (thread : ThreadId) (runs : queues.move = .run thread) :
      Orderly a.manager queues.world thread := (known thread runs).toOrderly
  have due : a.Due record (queues.world.record record).deferred action
      (queues.world.core a.manager).phaser.phase (mid ++ [queues]) [] next := by
    by_cases broken : a.HasBroken (mid ++ [queues])
    · exact .broken (by simpa using broken)
    have whole : ¬ a.HasBroken mid := fun broke => broken broke.on
    obtain ⟨attends, untaken⟩ := attends.resolve_left whole
    have attends := attends.ahead whole untaken regular.coherent orderly lock moved
    refine .queued (by simpa using attends) (by simpa using broken) (fun drained => ?_) grown
    rw [List.append_nil, Attendance.Drained.snoc_iff bound] at drained
    obtain drained | ⟨taken, took⟩ := drained
    · exact untaken drained
    · obtain ⟨below, meeting⟩ := regular.coherent.meeting meets
      exact regular.takes_nothing meeting moved took
  have delivers := course.delivers (regular.move known moved)
    ((World.globalLock_move moved).trans lock) bound (owns.move moved) third
    (regular.coherent.phase_le orderly moved)
    (regular.coherent.past orderly moved third (Nat.le_refl _) (.inl meets)) due within known' moves
    ends
  simpa using delivers

/-- Deferred work is delivered with the pause, in every course of user code whose callbacks neither
call the manager nor unwind, and whose deferred actions do not leave it.

Whatever is queued in the third phase of a pause on the record with which a thread is registered is
queued while that thread is in the phases of the pause. By the end of the call with which it joined
the pause, the thread has started it, once, after the phase is over and the global lock is taken
again, if the call was told that the thread owned that; unless the thread's own run of the action of
the pause has unwound, or a deferred action that was queued before it. No deferred action is started
more often than it was queued, and none runs on another thread than that of its record, or within the
phases of a pause. -/
theorem deferred_delivered (fresh : w.IsFresh m) (course : Course (Staying m) w moments v) :
    (∀ {pre queues post self thread record tag entry}, moments = pre ++ queues :: post →
      (self, .queued record tag) ∈ queues.observed →
      (queues.world.manager m).registry.phaser.phase % 3 = 2 →
      (queues.world.manager m).registry.get? thread = some entry → entry.record = some record →
      ∃ early first mid drives joiner base next action, pre = early ++ first :: mid ∧
        HasJoined m thread drives joiner base first (mid ++ [queues]) next ∧
        queues.world.move queues.move = some (next, queues.notes) ∧ action.tag = tag ∧
        (next.record record).deferred = (queues.world.record record).deferred ++ [action] ∧
        ∀ {during last after ended}, post = during ++ last :: after →
          Joining m thread drives joiner base first (mid ++ queues :: during) last ended →
          (Attendance.mk m thread drives joiner.holdsGlobal (some record)
              (first.world.manager m).globalLock base).HasBroken
              (mid ++ queues :: (during ++ [last])) ∨
            (Attendance.mk m thread drives joiner.holdsGlobal (some record)
              (first.world.manager m).globalLock base).Delivers record
              (queues.world.record record).deferred action
              (queues.world.manager m).registry.phaser.phase (mid ++ [queues])
              (during ++ [last])) ∧
    (∀ {pre moment post record thread} tag, moments = pre ++ moment :: post →
      moment.world.Owns record thread →
      tally (·.isStart record tag) (observations (moment :: post)) + v.outstanding record tag thread ≤
        moment.world.outstanding record tag thread +
          tally (·.isQueueing record tag) (observations (moment :: post))) ∧
    (∀ moment ∈ moments, ∀ self record tag owner,
      (self, .deferred record tag owner) ∈ moment.observed →
        ∃ d below, moment.world.stack self = .drain d :: below ∧ d.record = record) ∧
    ∀ thread above d below, v.stack thread = above ++ .drain d :: below →
      (v.record d.record).thread = thread ∧ below.any (·.isPhases) = false := by
  have known := course.known fresh.coherent fun coherent stays => stays.toKnown coherent
  have regular := known.isRegular fresh.isRegular
  refine ⟨?_, ?_, ?_, fun thread above d below stack => ?_⟩
  · intro pre queues post self thread record tag entry parts observed third found bound
    obtain ⟨next, before, allowed, moved, after⟩ := known.split parts
    have reached := before.isRegular fresh.isRegular
    have meets := reached.coherent.meets_of_third third found
    obtain ⟨below, meeting⟩ := reached.coherent.meeting meets
    obtain ⟨early, first, mid, drives, joiner, back, base, rfl, joins, stack, rfl, within, lock,
      attends⟩ := before.attending fresh meeting found bound
    obtain ⟨runs, noted⟩ := Moment.mem_observed.mp observed
    obtain ⟨⟨action, named, grown⟩, on⟩ := World.queues (runs ▸ moved) noted
    have phases : ∀ moment ∈ mid ++ [queues], Meeting (back :: base) (moment.world.stack thread) :=
      List.forall_mem_append.mpr ⟨within, by simpa using meeting⟩
    refine ⟨early, first, mid, drives, joiner, base, next, action, rfl,
      ⟨joins, stack, ⟨back, phases⟩, on meeting⟩, moved, named, grown, ?_⟩
    intro during last after' ended parts' joining
    subst parts'
    obtain ⟨ended', during', allowed', moved', -⟩ := after.split rfl
    have owns : queues.world.Owns record thread := by
      have own := reached.owned.members entry (List.mem_of_find?_eq_some found)
      rw [Registry.get?_identity found] at own
      exact own record bound
    refine Course.delivered reached allowed moved during' allowed' rfl owns lock third meets attends
      grown (fun moment mem => joining.within moment ?_) joining.moves joining.ends
    rw [List.append_assoc]
    exact List.mem_append_right _ (List.mem_cons_of_mem _ mem)
  · intro pre moment post record thread tag parts owns
    obtain ⟨next, before, allowed, moved, after⟩ := known.split parts
    have reached := before.isRegular fresh.isRegular
    have rest := (Course.single allowed moved).trans after
    exact rest.accounts_deferred reached.coherent reached.owned owns
  · intro moment mem self record tag owner observed
    obtain ⟨pre, post, parts⟩ := List.append_of_mem mem
    obtain ⟨next, -, -, moved, -⟩ := known.split parts
    obtain ⟨-, d, below, effect, stack, step, noted⟩ :=
      World.drain_of_deferring moved observed rfl
    refine ⟨d, below, stack, ?_⟩
    simp only [Drain.advance] at step
    split at step <;> obtain rfl := Option.some.inj step
    · simp at noted
    · simp at noted
    · exact (Note.deferred.inj (List.mem_singleton.mp noted)).1.symm
  · refine ⟨?_, (regular.coherent.drains_outside regular.laid stack).2⟩
    have mine : v.Owns d.record thread := regular.owned.frames thread (.drain d) (by simp [stack])
    exact mine.own

/-- Decides whether the thread takes a step that unwinds. -/
def Moment.unwinds (thread : ThreadId) (moment : Moment) : Bool :=
  match moment.world.stack thread with
  | [] => false
  | frame :: _ =>
    match (frame.advance thread moment.world).map (·.control) with
    | some (Control.unwind _) => true
    | _ => false

theorem Moment.unwinds_of_step {moment : Moment} {frame : Frame} {effect : Effect} {message : String}
    (stack : moment.world.stack thread = frame :: rest)
    (step : frame.advance thread moment.world = some effect)
    (control : effect.control = .unwind message) : moment.unwinds thread = true := by
  simp [unwinds, stack, step, control]

/-- The first of two threads drives a pause. Its action, run by that thread, queues something for the
second thread, which owns the global lock and joins by a poll. -/
def deferringPause : List Move :=
  Move.repeated [
    (1, .submit 0 (.enter 0)), (14, .run 0), (1, .submit 1 (.enter 0)), (14, .run 1),
    (1, .submit 1 (.acquire 0)), (6, .run 1),
    (1, .submit 0 (.pauseWith 0 false [.only [0] (.deferLookup 0 (some 1) "d" [.log "x"])])),
    (25, .run 0), (1, .submit 1 (.poll 0)), (10, .run 1), (9, .run 0), (6, .run 1), (17, .run 0),
    (14, .run 1)]

/-- The second thread starts it once, when the third phase is over, before its poll comes back. -/
theorem deferred_delivered_deferringPause : ∃ pre queues during last post v,
    World.pair.IsFresh 0 ∧
    Course (Staying 0) World.pair (pre ++ queues :: (during ++ last :: post)) v ∧
    (0, .queued 1 "d") ∈ queues.observed ∧
    (last.world.move last.move).any (fun moved => (moved.1.stack 1).isEmpty) = true ∧
    ∃ before take later below action behind, during ++ [last] = before ++ take :: later ∧
      (queues.world.manager 0).registry.phaser.phase <
        (take.world.manager 0).registry.phaser.phase ∧
      action.tag = "d" ∧ OnceIn (Moment.Serves 1 below 1 action behind) later := by
  have made : (World.pair.follow (World.isStaying 0) deferringPause).any (fun made =>
      made.1.all (fun moment => !moment.unwinds 1) &&
      (made.1.take 80).all (fun moment =>
        !shows 1 (·.isMarking) moment.observed || (moment.world.stack 1).length = 1) &&
      made.1[80]?.any (fun queues => shows 0 (·.isQueueing 1 "d") queues.observed &&
        (queues.world.manager 0).registry.phaser.phase % 3 = 2 &&
        (queues.world.manager 0).registry.get? 1 = some ⟨1, some 1, true⟩) &&
      (made.1.drop 81)[38]?.any (fun last => !(last.world.stack 1).isEmpty &&
        (last.world.move last.move).any fun moved => (moved.1.stack 1).isEmpty) &&
      (made.1.drop 80).all (fun moment => !(moment.world.stack 1).isEmpty)) = true := by
    decide +kernel
  obtain ⟨⟨moments, v⟩, follows, state⟩ := (Option.any_eq_true _ _).mp made
  simp only [Bool.and_eq_true, Bool.or_eq_true, decide_eq_true_eq, Option.any_eq_true,
    Bool.not_eq_true', List.all_eq_true] at state
  obtain ⟨⟨⟨⟨whole, joins⟩, queues, found, ⟨queued, third⟩, entry⟩, last, found', busy, ended, moved,
    out⟩, within⟩ := state
  have course := World.course_of_follow (World.staying_of_isStaying 0) follows
  have shape := eq_take_cons_drop found
  have deep : moments.drop 80 = queues :: moments.drop 81 := by
    obtain ⟨lt, rfl⟩ := List.getElem?_eq_some_iff.mp found
    exact List.drop_eq_getElem_cons lt
  rw [eq_take_cons_drop found'] at shape deep
  rw [deep] at within
  generalize moments.take 80 = pre at shape joins
  generalize (moments.drop 81).take 38 = during at shape within
  generalize (moments.drop 81).drop (38 + 1) = post at shape within
  subst shape
  have observed := (shows_iff Note.isQueueing_iff).mp queued
  obtain ⟨early, first, mid, drives, joiner, base, next, action, rfl, joined, -, named, -, delivers⟩ :=
    (deferred_delivered World.pair_isFresh course).1 rfl observed third entry rfl
  obtain rfl : base = [] := by
    have alone := (joins first (by simp)).resolve_left fun silent => by
      rw [← Bool.not_eq_true] at silent
      exact silent (List.any_eq_true.mpr ⟨_, joined.joins, by simp [Note.isMarking]⟩)
    rw [joined.stack] at alone
    simpa using alone
  obtain ⟨_, -, -, -, after⟩ := course.split rfl
  obtain ⟨ended', during', -, moved', -⟩ := after.split rfl
  obtain rfl := Option.some.inj (moved.symm.trans moved')
  have parts : queues :: (during ++ last :: post) = (queues :: (during ++ [last])) ++ post := by simp
  have steady (moment : Moment) (mem : moment ∈ queues :: (during ++ [last])) :
      moment.unwinds 1 = false := by
    refine whole moment (List.mem_append_right _ ?_)
    rw [parts]
    exact List.mem_append_left _ mem
  rw [parts] at within
  have joining : Joining 0 1 drives joiner [] first (mid ++ queues :: during) last ended' := by
    refine ⟨joined.joins, joined.stack, fun moment mem => ?_, moved', by simpa using out⟩
    rw [List.append_assoc, List.cons_append] at mem
    obtain mem | mem := List.mem_append.mp mem
    · obtain ⟨back, meets⟩ := joined.meets
      exact Nat.lt_of_succ_lt (meets moment (List.mem_append_left _ mem)).length_lt
    · exact List.length_pos_iff.mpr (by simpa using within moment (List.mem_append_left _ mem))
  obtain ⟨moment, mem, message, breaks⟩ | delivers := delivers rfl joining
  · obtain ⟨frame, rest, effect, q, back, stack, step, control, -⟩ := breaks.unwinds
    have still : moment.unwinds 1 = false := by
      obtain mem | mem := List.mem_append.mp mem
      · exact whole moment (by simp [mem])
      · exact steady moment mem
    rw [Moment.unwinds_of_step stack step control] at still
    simp at still
  · cases delivers with
    | @runs behind before later take r parts takes once =>
      exact ⟨_, queues, during, last, post, v, World.pair_isFresh, course, observed,
        by simpa [moved'] using out, before, take,
        later, _, action, behind, parts, takes.past, named, once⟩
    | @drops behind before later take last' r parts takes drops =>
      obtain ⟨frame, above, d, effect, message, stack, -, step, control, -⟩ := drops.unwinds
      have still := steady last' (List.mem_cons_of_mem _ (by simp [parts]))
      rw [Moment.unwinds_of_step stack step control] at still
      simp at still

end Delivered

end

end StopTheWorld
