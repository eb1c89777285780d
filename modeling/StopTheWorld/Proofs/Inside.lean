import StopTheWorld.Proofs.Footprint

namespace StopTheWorld

/-! A thread that has entered the phases of a pause is marked, whichever managers it then calls, until
it comes out of the phases of a pause. The mark is one for all managers: coming out of the phases of
one pause takes it down even if the thread is still in those of another. -/

namespace Frame

/-- The frame can wait within the phases of a pause, for something that has begun there. -/
def isInner : Frame → Bool
  | pausing _ | entering _ | leaving _ | drain _ | resuming _ => false
  | _ => true

/-- The frame can take a step within the phases of a pause: the calls that a marked thread is turned
away from have got no further than their first step. -/
def isTurnedAway : Frame → Bool
  | pausing p => p.point = .gate
  | entering e => e.point = .gate
  | leaving l => l.point = .gate
  | drain _ | resuming _ => false
  | _ => true

/-- What a call comes to when it is turned away: its reply, and what is observed. -/
def refusal? (thread : ThreadId) : Frame → Option (Reply × List Note)
  | pausing _ => some (.failed .reentrantPause, [.trace (.reentrantPause thread)])
  | entering _ => some (.failed .reentrantPause, [])
  | leaving _ => some (.nothing, [.trace (.leaveIgnored thread)])
  | _ => none

end Frame

/-- Something waits on this stack that was begun by the action of a pause. -/
inductive Inside : List Frame → Prop
  | action {p : Phases} {exit : Frame} {below : List Frame} (third : p.point = .third)
      (marks : exit.marks = true) : Inside (.phases p :: exit :: below)
  | waiting {frame : Frame} {rest : List Frame} (inner : frame.isInner = true)
      (inside : Inside rest) : Inside (frame :: rest)

/-- A thread with this stack is within the phases of a pause, or about to come out of them. -/
inductive Within : List Frame → Prop
  | exit {exit : Frame} {below : List Frame} (marks : exit.marks = true) : Within (exit :: below)
  | phases {p : Phases} {exit : Frame} {below : List Frame} (marks : exit.marks = true) :
      Within (.phases p :: exit :: below)
  | arrival {a : Arrival} {p : Phases} {exit : Frame} {below : List Frame}
      (marks : exit.marks = true) : Within (.arrival a :: .phases p :: exit :: below)
  | action {frame : Frame} {rest : List Frame} (turned : frame.isTurnedAway = true)
      (inside : Inside rest) : Within (frame :: rest)

/-- What a step within the phases can put on the stack. -/
def Control.isInner : Control → Bool
  | goto frame => frame.isTurnedAway
  | call frame back => frame.isTurnedAway && back.isInner
  | _ => true

/-- Whether the note is that a deferred action starts. -/
def Note.isDeferred : Note → Bool
  | deferred _ _ _ => true
  | _ => false

/-- The thread is marked, and stands within the phases of a pause. -/
structure World.IsInside (w : World) (thread : ThreadId) : Prop where
  mark : (w.thread thread).inPause = true
  within : Within (w.stack thread)

section

variable {custom : World → ThreadId → Prop} {w v : World} {self thread : ThreadId} {frame : Frame}
  {rest : List Frame} {effect : Effect} {moments : List Moment}

theorem Frame.isTurnedAway_resume (inner : frame.isInner = true) (value : Reply) :
    (frame.resume value).isTurnedAway = true := by
  cases frame with
  | foreign f =>
    simp only [resume]
    split <;> rfl
  | pausing | entering | leaving | drain | resuming => simp [isInner] at inner
  | _ => cases value <;> rfl

theorem Frame.isInner_catch {message : String} {handler : Frame} (inner : frame.isInner = true)
    (caught : frame.catch? message = some handler) : handler.isTurnedAway = true := by
  cases frame with
  | visit v =>
    simp only [catch?] at caught
    split at caught
    · obtain rfl := Option.some.inj caught
      rfl
    · simp at caught
  | phases | foreign =>
    simp only [catch?] at caught
    split at caught
    · obtain rfl := Option.some.inj caught
      rfl
    · simp at caught
  | pausing => simp [isInner] at inner
  | _ => simp [catch?] at caught

theorem Inside.reply (inside : Inside rest) (value : Reply) :
    Within ((Control.reply value).stack rest) := by
  cases inside with
  | @action p _ _ third marks =>
    cases value <;> exact .phases marks
  | waiting inner inside => exact .action (Frame.isTurnedAway_resume inner value) inside

theorem Inside.unwind (inside : Inside rest) (message : String) :
    Within (Frame.unwind message rest) := by
  induction inside with
  | @action p _ _ third marks =>
    simp only [Frame.unwind, Frame.catch?, third, if_true]
    exact .phases marks
  | @waiting frame rest inner inside ih =>
    simp only [Frame.unwind]
    split
    · rename_i handler caught
      exact .action (Frame.isInner_catch inner caught) inside
    · exact ih

theorem Inside.stack {control : Control} (inside : Inside rest) (inner : control.isInner = true) :
    Within (control.stack rest) := by
  cases control with
  | goto frame => exact .action inner inside
  | call frame back =>
    obtain ⟨turned, inner⟩ := Bool.and_eq_true_iff.mp inner
    exact .action turned (.waiting inner inside)
  | reply value => exact inside.reply value
  | unwind message => exact inside.unwind message

/-- An operation that begins has got no further than its first step, and is none of the procedures
that come back from a pause. -/
theorem Op.advance_inner {op : Op} (step : op.advance self w = some effect) :
    effect.control.isInner = true := by
  cases op with
  | access a =>
    obtain ⟨-, -, ⟨value, control⟩ | ⟨message, control⟩⟩ := Access.agrees (m := 0) step <;>
      rw [control] <;> rfl
  | release m =>
    obtain ⟨⟨v, notes⟩, leaves, replies⟩ := Option.bind_eq_some_iff.mp step
    obtain rfl := Option.some.inj replies
    rfl
  | deferLookup | unlock =>
    simp only [advance] at step
    split at step <;> obtain rfl := Option.some.inj step <;> rfl
  | _ =>
    obtain rfl := Option.some.inj step
    rfl

/-- Whatever a marked thread does, short of coming out of the phases of a pause, it is turned away
where it has to be, and starts no deferred action. -/
theorem Frame.advance_inner (turned : frame.isTurnedAway = true)
    (mark : (w.thread self).inPause = true) (step : frame.advance self w = some effect)
    (stays : ∀ m drives, .finished m drives ∉ effect.notes) :
    effect.control.isInner = true ∧ ∀ note ∈ effect.notes, note.isDeferred = false := by
  have not_deferred {note : Note} (plain : note.isManaged = false) : note.isDeferred = false := by
    cases note <;> first | rfl | simp [Note.isManaged] at plain
  cases frame with
  | start op => exact ⟨Op.advance_inner step, fun note mem => not_deferred ((Op.plain (m := 0) step).2 note mem)⟩
  | acquisition a =>
    simp only [advance, Acquisition.advance, Acquisition.took, Acquisition.gaveUp] at step
    repeat' split at step
    all_goals first
      | (obtain rfl := Option.some.inj step
         exact ⟨rfl, by simp [Note.isDeferred]⟩)
      | simp at step
  | pausing p =>
    have gate : p.point = .gate := of_decide_eq_true turned
    simp only [advance, Pausing.advance, gate, World.isReentrant, mark, Bool.or_true, if_true] at step
    obtain rfl := Option.some.inj step
    exact ⟨rfl, by simp [Note.isDeferred]⟩
  | entering e =>
    have gate : e.point = .gate := of_decide_eq_true turned
    simp only [advance, Entering.advance, gate, World.isReentrant, mark, Bool.or_true, if_true] at step
    obtain rfl := Option.some.inj step
    exact ⟨rfl, by simp⟩
  | leaving l =>
    have gate : l.point = .gate := of_decide_eq_true turned
    simp only [advance, Leaving.advance, gate, mark, if_true] at step
    obtain rfl := Option.some.inj step
    exact ⟨rfl, by simp [Note.isDeferred]⟩
  | polling p =>
    cases point : p.point with
    | leaveGlobal =>
      simp only [advance, Polling.advance, point] at step
      obtain ⟨⟨v, notes⟩, leaves, goto⟩ := Option.bind_eq_some_iff.mp step
      obtain rfl := Option.some.inj goto
      exact ⟨rfl, fun note mem => not_deferred ((World.Spares.leaveGlobal leaves).2 note mem)⟩
    | exitPhases =>
      simp only [advance, Polling.advance, point] at step
      obtain rfl := Option.some.inj step
      exact absurd List.mem_cons_self (stays _ _)
    | _ =>
      simp only [advance, Polling.advance, point] at step
      repeat' split at step
      all_goals
        obtain rfl := Option.some.inj step
        exact ⟨rfl, by simp [Note.isDeferred]⟩
  | blocking b =>
    cases point : b.point with
    | release =>
      simp only [advance, Blocking.advance, point] at step
      split at step
      · obtain ⟨⟨v, notes⟩, leaves, goto⟩ := Option.bind_eq_some_iff.mp step
        obtain rfl := Option.some.inj goto
        exact ⟨rfl, fun note mem => not_deferred ((World.Spares.leaveGlobal leaves).2 note mem)⟩
      · obtain rfl := Option.some.inj step
        exact ⟨rfl, by simp⟩
    | _ =>
      simp only [advance, Blocking.advance, point] at step
      repeat' split at step
      all_goals
        obtain rfl := Option.some.inj step
        exact ⟨rfl, by simp⟩
  | withdrawal x =>
    simp only [advance, Withdrawal.advance] at step
    repeat' split at step
    all_goals first
      | obtain rfl := Option.some.inj step
      | simp at step
    all_goals first
      | exact ⟨rfl, fun note mem => not_deferred ((World.Spares.depart ‹_›).2 note mem)⟩
      | exact ⟨rfl, by simp [Note.isDeferred]⟩
  | drain | resuming => simp [isTurnedAway] at turned
  | _ =>
    simp only [advance, Release.advance, OwnedLock.advanceNotify, Arrival.advance,
      Interruption.advance, Sleeping.advance, Parking.advance, Enrolment.advance, Visit.advance,
      Script.advance, Sequence.advance, Phases.advance, Foreign.advance, Acquiring.advance,
      Trial.advance] at step
    repeat' split at step
    all_goals first
      | (obtain rfl := Option.some.inj step
         exact ⟨rfl, by simp [Note.isDeferred]⟩)
      | simp at step

/-- A frame that has set the mark takes it down in its next step. -/
theorem Frame.finishes (marks : frame.marks = true) (step : frame.advance self w = some effect) :
    ∃ m drives, .finished m drives ∈ effect.notes := by
  cases frame with
  | polling p =>
    have exit : p.point = .exitPhases := of_decide_eq_true marks
    simp only [advance, Polling.advance, exit] at step
    obtain rfl := Option.some.inj step
    exact ⟨_, _, List.mem_cons_self⟩
  | pausing p =>
    have exit : p.point = .exitPhases := of_decide_eq_true marks
    simp only [advance, Pausing.advance, exit] at step
    obtain rfl := Option.some.inj step
    exact ⟨_, _, List.mem_cons_self⟩
  | _ => simp [Frame.marks] at marks

theorem Within.rouse {frame' : Frame} (within : Within (frame :: rest))
    (rouses : frame.Rouses frame') : Within (frame' :: rest) := by
  cases rouses with
  | parking | sleeping =>
    cases within with
    | exit marks => simp [Frame.marks] at marks
    | action turned inside => exact .action rfl inside

/-- A step within the phases stays within them, unless the thread comes out of some. -/
theorem Within.step (within : Within (frame :: rest)) (mark : (w.thread self).inPause = true)
    (step : frame.advance self w = some effect)
    (stays : ∀ m drives, .finished m drives ∉ effect.notes) :
    Within (effect.control.stack rest) ∧ ∀ note ∈ effect.notes, note.isDeferred = false := by
  have resumed {exit : Frame} (marks : exit.marks = true) {outcome : Option String} :
      (exit.resume ((outcome.map Reply.unwound).getD .nothing)).marks = true := by
    cases exit with
    | polling | pausing => cases outcome <;> exact marks
    | _ => simp [Frame.marks] at marks
  cases within with
  | exit marks =>
    obtain ⟨m, drives, finished⟩ := Frame.finishes marks step
    exact absurd finished (stays m drives)
  | @phases p exit below marks =>
    simp only [Frame.advance, Phases.advance] at step
    repeat' split at step
    all_goals obtain rfl := Option.some.inj step
    case h_6 => exact ⟨.exit (resumed marks), by simp⟩
    all_goals first
      | exact ⟨.arrival marks, by simp⟩
      | exact ⟨.phases marks, by simp [Note.isDeferred]⟩
      | exact ⟨.action rfl (.action rfl marks), by simp [Note.isDeferred]⟩
  | @arrival a p exit below marks =>
    simp only [Frame.advance, Arrival.advance] at step
    repeat' split at step
    all_goals first
      | obtain rfl := Option.some.inj step
      | simp at step
    all_goals first
      | exact ⟨.arrival marks, by simp [Note.isDeferred]⟩
      | exact ⟨.phases marks, by simp [Note.isDeferred]⟩
  | action turned inside =>
    obtain ⟨inner, quiet⟩ := Frame.advance_inner turned mark step stays
    exact ⟨inside.stack inner, quiet⟩

theorem World.isInside_of_joined {notes : List Note} {m : ManagerId} {drives : Bool}
    (step : w.step thread = some (v, notes)) (mem : .joined m drives ∈ notes) :
    v.IsInside thread := by
  obtain ⟨frame, rest, effect, -, advance, rfl, rfl⟩ := World.step_eq_some step
  have noted : Note.joined m drives ∈ effect.notes := by
    refine (List.mem_append.mp mem).resolve_right fun last => ?_
    cases control : effect.control <;> simp [Control.completion, control] at last
  cases Frame.marking advance with
  | keeps _ quiet => exact absurd (quiet _ noted) (by simp [Note.isMarking])
  | joins world _ control marks =>
    refine ⟨?_, ?_⟩
    · rw [World.inPause_setStack, world, World.setInPause_self]
    · rw [World.stack_setStack, if_pos rfl, control]
      exact .phases marks
  | finishes _ notes => simp [notes] at noted

/-- A step of the thread itself. -/
theorem World.IsInside.step {notes : List Note} (inside : w.IsInside thread)
    (step : w.step thread = some (v, notes)) (stays : ∀ m drives, .finished m drives ∉ notes) :
    v.IsInside thread ∧ ∀ note ∈ notes, note.isDeferred = false := by
  obtain ⟨frame, rest, effect, stack, advance, rfl, rfl⟩ := World.step_eq_some step
  have stays (m : ManagerId) (drives : Bool) : .finished m drives ∉ effect.notes :=
    fun mem => stays m drives (List.mem_append_left _ mem)
  obtain ⟨within, quiet⟩ := Within.step (stack ▸ inside.within) inside.mark advance stays
  refine ⟨⟨?_, ?_⟩, fun note mem => ?_⟩
  · rw [World.inPause_setStack]
    cases Frame.marking advance with
    | keeps spares => exact (spares.inPause thread).trans inside.mark
    | joins world => rw [world, World.setInPause_self]
    | finishes _ notes => exact absurd (notes ▸ List.mem_cons_self) (stays _ _)
  · rw [World.stack_setStack, if_pos rfl]
    exact within
  · obtain mem | last := List.mem_append.mp mem
    · exact quiet note mem
    · cases control : effect.control <;> simp [Control.completion, control] at last
      all_goals rw [last.2]; rfl

theorem World.IsInside.move {move : Move} {notes : List Note} (inside : w.IsInside thread)
    (moves : w.move move = some (v, notes))
    (stays : ∀ m drives, (thread, .finished m drives) ∉ (⟨w, move, notes⟩ : Moment).observed) :
    v.IsInside thread ∧
      ∀ note, (thread, note) ∈ (⟨w, move, notes⟩ : Moment).observed → note.isDeferred = false := by
  by_cases own : move = .run thread
  · subst own
    have stays (m : ManagerId) (drives : Bool) : .finished m drives ∉ notes :=
      fun mem => stays m drives (Moment.mem_observed.mpr ⟨rfl, mem⟩)
    obtain ⟨inside, quiet⟩ := inside.step moves stays
    exact ⟨inside, fun note mem => quiet note (Moment.mem_observed.mp mem).2⟩
  · have silent (note : Note) : (thread, note) ∉ (⟨w, move, notes⟩ : Moment).observed :=
      fun mem => own (Moment.mem_observed.mp mem).1
    obtain ⟨mark, stands⟩ := World.move_other moves own
    refine ⟨⟨mark.trans inside.mark, ?_⟩, fun note mem => absurd mem (silent note)⟩
    have within := inside.within
    obtain same | ⟨op, idle, -⟩ | ⟨frame, frame', rest, stack, stack', rouses⟩ := stands
    · rwa [same]
    · rw [idle] at within
      cases within
    · rw [stack] at within
      rw [stack']
      exact within.rouse rouses

theorem Course.inside (course : Course custom w moments v) (inside : w.IsInside thread)
    (on : ∀ m drives, (thread, .finished m drives) ∉ observations moments) :
    v.IsInside thread ∧
      ∀ note, (thread, note) ∈ observations moments → note.isDeferred = false := by
  induction course with
  | nil => exact ⟨inside, by simp⟩
  | @snoc moments v u move notes before allowed moves ih =>
    simp only [observations_append, observations_cons, observations_nil, List.append_nil,
      List.mem_append, not_or] at on ⊢
    obtain ⟨reached, earlier⟩ := ih fun m drives => (on m drives).1
    obtain ⟨reached, now⟩ := reached.move moves fun m drives => (on m drives).2
    exact ⟨reached, fun note mem => mem.elim (earlier note) (now note)⟩

/-- A call that a marked thread makes is turned away at once, and changes nothing. -/
theorem World.IsInside.refuses {reply : Reply} {notes : List Note} (inside : w.IsInside thread)
    (stack : w.stack thread = frame :: rest) (marks : frame.marks = false)
    (refusal : frame.refusal? thread = some (reply, notes)) :
    frame.advance thread w = some ⟨w, .reply reply, notes⟩ := by
  have turned : frame.isTurnedAway = true := by
    have within := inside.within
    rw [stack] at within
    cases within with
    | exit marked => simp [marks] at marked
    | phases | arrival => rfl
    | action turned => exact turned
  have mark := inside.mark
  cases frame with
  | pausing p =>
    obtain ⟨rfl, rfl⟩ := Prod.mk.inj (Option.some.inj refusal)
    have gate : p.point = .gate := of_decide_eq_true turned
    simp [Frame.advance, Pausing.advance, gate, World.isReentrant, mark, Effect.reply]
  | entering e =>
    obtain ⟨rfl, rfl⟩ := Prod.mk.inj (Option.some.inj refusal)
    have gate : e.point = .gate := of_decide_eq_true turned
    simp [Frame.advance, Entering.advance, gate, World.isReentrant, mark, Effect.reply]
  | leaving l =>
    obtain ⟨rfl, rfl⟩ := Prod.mk.inj (Option.some.inj refusal)
    have gate : l.point = .gate := of_decide_eq_true turned
    simp [Frame.advance, Leaving.advance, gate, mark, Effect.reply]
  | _ => simp [Frame.refusal?] at refusal

/-- From the step by which a thread enters the phases of a pause until it comes out of the phases of a
pause, it is marked; its calls to drive a pause of whichever manager or to register with it fail, its
calls to deregister are ignored, and it starts no deferred action. -/
theorem refused_until_finished {pre mid : List Moment} {first : Moment} {m : ManagerId}
    {drives : Bool} (course : Course custom w (pre ++ first :: mid) v)
    (joins : (thread, .joined m drives) ∈ first.observed)
    (on : ∀ n leads, (thread, .finished n leads) ∉ observations mid) :
    (v.thread thread).inPause = true ∧
    (∀ note, (thread, note) ∈ observations mid → note.isDeferred = false) ∧
    ∀ moment ∈ mid, moment.move = .run thread → ∀ frame rest reply notes,
      moment.world.stack thread = frame :: rest → frame.refusal? thread = some (reply, notes) →
      frame.advance thread moment.world = some ⟨moment.world, .reply reply, notes⟩ := by
  obtain ⟨next, -, -, moved, during⟩ := course.split rfl
  obtain ⟨runs, noted⟩ := Moment.mem_observed.mp joins
  rw [runs] at moved
  have inside := World.isInside_of_joined moved noted
  obtain ⟨⟨mark, -⟩, quiet⟩ := during.inside inside on
  refine ⟨mark, quiet, fun moment mem runs frame rest reply notes stack refusal => ?_⟩
  obtain ⟨before, after, rfl⟩ := List.append_of_mem mem
  obtain ⟨u, reach, -, moves, -⟩ := during.split rfl
  simp only [observations_append, observations_cons, List.mem_append, not_or] at on
  obtain ⟨inside, -⟩ := reach.inside inside fun n leads => (on n leads).1
  refine inside.refuses stack ?_ refusal
  -- A frame that takes the mark down would end the stay.
  cases marks : frame.marks with
  | false => rfl
  | true =>
    rw [runs] at moves
    obtain ⟨top, below, effect, stack', step, -, same⟩ := World.step_eq_some moves
    obtain ⟨rfl, -⟩ := List.cons.inj (stack.symm.trans stack')
    obtain ⟨n, leads, finished⟩ := Frame.finishes marks step
    have mem : (thread, .finished n leads) ∈ moment.observed :=
      Moment.mem_observed.mpr ⟨runs, same ▸ List.mem_append_left _ finished⟩
    exact absurd mem (on n leads).2.1

/-- The second of two threads registers again, or tries to, as its part in the pause of the first. -/
def enterWithinPause : List Move :=
  Move.repeated [
    (1, .submit 0 (.enter 0)), (14, .run 0), (1, .submit 1 (.enter 0)), (14, .run 1),
    (1, .submit 0 (.pauseWith 0 false [.only [1] (.enter 0)])), (25, .run 0),
    (1, .submit 1 (.pollFree 0)), (9, .run 1), (9, .run 0), (11, .run 1)]

/-- Whether a call to register with the manager is on top of the stack. -/
def isEntering (m : ManagerId) : List Frame → Bool
  | .entering e :: _ => e.manager = m
  | _ => false

theorem isEntering_iff {m : ManagerId} {stack : List Frame} : isEntering m stack = true ↔
    ∃ e rest, stack = .entering e :: rest ∧ e.manager = m := by
  unfold isEntering
  split <;> simp_all

/-- Whether the move is a step of the thread. -/
def Move.isOf (thread : ThreadId) : Move → Bool
  | run self => self = thread
  | _ => false

theorem Move.isOf_iff {move : Move} : move.isOf thread = true ↔ move = .run thread := by
  cases move <;> simp [isOf]

/-- The second of two threads cannot register within the phases of a pause. -/
theorem refused_until_finished_enterWithinPause : ∃ pre first mid v,
    Course (fun _ _ => True) World.pair (pre ++ first :: mid) v ∧
    (1, .joined 0 false) ∈ first.observed ∧
    (∀ n leads, (1, .finished n leads) ∉ observations mid) ∧
    ∃ moment ∈ mid, ∃ e rest, moment.world.stack 1 = .entering e :: rest ∧
      (Frame.entering e).advance 1 moment.world =
        some ⟨moment.world, .reply (.failed .reentrantPause), []⟩ := by
  have made : (World.pair.follow (fun _ _ => true) enterWithinPause).any (fun made =>
      made.1[61]?.any (fun first => shows 1 (·.isJoining 0 false) first.observed) &&
      !(observations (made.1.drop 62)).any (fun entry => entry.1 = 1 && entry.2.isMarking) &&
      (made.1.drop 62).any (fun moment =>
        moment.move.isOf 1 && isEntering 0 (moment.world.stack 1))) = true := by
    decide +kernel
  obtain ⟨⟨moments, v⟩, follows, state⟩ := (Option.any_eq_true _ _).mp made
  simp only [Bool.and_eq_true, Option.any_eq_true, Bool.not_eq_true', List.any_eq_false,
    List.any_eq_true] at state
  obtain ⟨⟨⟨first, found, joins⟩, never⟩, moment, mem, runs, enters⟩ := state
  have course : Course (fun _ _ => True) World.pair moments v :=
    World.course_of_follow (fun _ _ _ => trivial) follows
  rw [eq_take_cons_drop found] at course
  have joined : (1, Note.joined 0 false) ∈ first.observed :=
    (shows_iff Note.isJoining_iff).mp joins
  have on (n : ManagerId) (leads : Bool) :
      (1, Note.finished n leads) ∉ observations (moments.drop 62) :=
    fun mem => never _ mem ⟨rfl, rfl⟩
  obtain ⟨e, rest, stack, -⟩ := isEntering_iff.mp enters
  obtain ⟨-, -, refused⟩ := refused_until_finished course joined on
  exact ⟨_, first, _, v, course, joined, on, moment, mem, e, rest, stack,
    refused moment mem (Move.isOf_iff.mp runs) _ rest _ _ stack rfl⟩

/-- Three threads and two managers that nobody has used. -/
def World.trio : World := .initial [none, none, none] [{}, {}]

/-- The second of three threads polls for a pause of the second manager as its part in a pause of the
first, and registers with the first manager after that. -/
def pollWithinPause : List Move :=
  Move.repeated [
    (1, .submit 0 (.enter 0)), (14, .run 0), (1, .submit 1 (.enter 0)), (14, .run 1),
    (1, .submit 1 (.enter 1)), (14, .run 1), (1, .submit 2 (.enter 1)), (14, .run 2),
    (1, .submit 2 (.pauseWith 1 false [.log "b"])), (25, .run 2),
    (1, .submit 0 (.pauseWith 0 false [.only [1] (.pollFree 1), .only [1] (.enter 0)])), (25, .run 0),
    (1, .submit 1 (.pollFree 0)), (9, .run 1), (10, .run 0), (12, .run 1), (11, .run 2),
    (19, .run 1)]

/-- Whether the top frame is about to reply that it succeeded. -/
def World.isAnswered (w : World) (thread : ThreadId) : Bool :=
  match w.stack thread with
  | frame :: _ =>
    match (frame.advance thread w).map (·.control) with
    | some (Control.reply (.succeeded _)) => true
    | _ => false
  | [] => false

theorem World.isAnswered_iff : w.isAnswered thread = true ↔ ∃ frame rest effect value,
    w.stack thread = frame :: rest ∧ frame.advance thread w = some effect ∧
      effect.control = .reply (.succeeded value) := by
  unfold World.isAnswered
  constructor
  · intro answered
    split at answered
    · rename_i frame rest stack
      split at answered
      · rename_i value control
        obtain ⟨effect, step, control⟩ := Option.map_eq_some_iff.mp control
        exact ⟨frame, rest, effect, value, stack, step, control⟩
      · simp at answered
    · simp at answered
  · rintro ⟨frame, rest, effect, value, stack, step, control⟩
    simp [stack, step, control]

/-- A thread that has come out of the phases of another pause is taken for one that is in none: here it
registers, and succeeds, while it is still within the phases of the first pause. -/
theorem registered_inside : ∃ pre first mid v e rest effect value,
    Course (fun _ _ => True) World.trio (pre ++ first :: mid) v ∧
    (1, .joined 0 false) ∈ first.observed ∧
    (∀ leads, (1, .finished 0 leads) ∉ observations mid) ∧
    v.stack 1 = .entering e :: rest ∧ e.manager = 0 ∧
    (Frame.entering e).advance 1 v = some effect ∧ effect.control = .reply (.succeeded value) := by
  have made : (World.trio.follow (fun _ _ => true) pollWithinPause).any (fun made =>
      made.1[117]?.any (fun first => shows 1 (·.isJoining 0 false) first.observed) &&
      !shows 1 (·.isFinish 0 false) (observations (made.1.drop 118)) &&
      !shows 1 (·.isFinish 0 true) (observations (made.1.drop 118)) &&
      isEntering 0 (made.2.stack 1) && made.2.isAnswered 1) = true := by
    decide +kernel
  obtain ⟨⟨moments, v⟩, follows, state⟩ := (Option.any_eq_true _ _).mp made
  simp only [Bool.and_eq_true, Option.any_eq_true, Bool.not_eq_true'] at state
  obtain ⟨⟨⟨⟨⟨first, found, joins⟩, follower⟩, driver⟩, enters⟩, answers⟩ := state
  have course : Course (fun _ _ => True) World.trio moments v :=
    World.course_of_follow (fun _ _ _ => trivial) follows
  rw [eq_take_cons_drop found] at course
  obtain ⟨e, rest, stack, manager⟩ := isEntering_iff.mp enters
  obtain ⟨frame, rest', effect, value, stack', step, control⟩ := World.isAnswered_iff.mp answers
  obtain ⟨rfl, rfl⟩ := List.cons.inj (stack.symm.trans stack')
  refine ⟨_, first, _, v, e, rest, effect, value, course, (shows_iff Note.isJoining_iff).mp joins,
    fun leads mem => ?_, stack, manager, step, control⟩
  have shown := (shows_iff Note.isFinish_iff).mpr mem
  cases leads <;> simp_all

end

end StopTheWorld
