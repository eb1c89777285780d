import Mathlib.Algebra.GroupWithZero.Nat
import StopTheWorld.Proofs.Attendance
import StopTheWorld.Proofs.Records

namespace StopTheWorld

/-! Deferred actions run on the thread whose record they are queued on, outside of the phases of all
pauses, and none of them more often than it has been queued. -/

/-- Whether the note is that an action with the tag is queued on the record. -/
def Note.isQueueing (record : RecordId) (tag : Tag) : Note → Bool
  | queued other name => other = record && name = tag
  | _ => false

/-- Whether the note is that a deferred action with the tag starts, from the queue of the record. -/
def Note.isStart (record : RecordId) (tag : Tag) : Note → Bool
  | deferred other name _ => other = record && name = tag
  | _ => false

/-- How often something that passes the check was observed, of whichever thread. -/
def tally (check : Note → Bool) (entries : List (ThreadId × Note)) : Nat :=
  entries.countP fun entry => check entry.2

/-- How many actions with the tag are in a queue. -/
def inQueue (tag : Tag) (queue : List Deferred) : Nat := queue.countP (·.tag = tag)

/-- How many actions with the tag the frame has taken from the queue of the record and not started. -/
def Frame.outstanding (record : RecordId) (tag : Tag) : Frame → Nat
  | drain d => if d.record = record then inQueue tag d.queue else 0
  | _ => 0

def outstandingOn (record : RecordId) (tag : Tag) (stack : List Frame) : Nat :=
  (stack.map (·.outstanding record tag)).sum

/-- How many actions with the tag wait for the thread, in the queue of the record or taken from it. -/
def World.outstanding (w : World) (record : RecordId) (tag : Tag) (thread : ThreadId) : Nat :=
  inQueue tag (w.record record).deferred + outstandingOn record tag (w.stack thread)

/-- The control leads to no deferred actions, except by a call that has yet to take them. -/
def Control.TakesNothing : Control → Prop
  | goto frame => ∀ record tag, frame.outstanding record tag = 0
  | call child back =>
    ∀ record tag, child.outstanding record tag = 0 ∧ back.outstanding record tag = 0
  | reply _ | unwind _ => True

section

variable {m : ManagerId} {w v : World} {self thread : ThreadId} {frame parent : Frame}
  {rest stack above below : List Frame} {effect : Effect} {record : RecordId} {tag : Tag}
  {control : Control} {moments : List Moment} {notes : List Note}

theorem Note.isQueueing_iff {note : Note} :
    note.isQueueing record tag = true ↔ note = .queued record tag := by
  cases note <;> simp [isQueueing]

section Steps

/-! Only drains start deferred actions and take them from a queue, and only operations queue them. -/

theorem Frame.deferring {note : Note} (step : frame.advance self w = some effect)
    (mem : note ∈ effect.notes) (defers : note.isDeferring = true) : ∃ d, frame = .drain d := by
  have quiet {n : Note} (plain : n.isManaged = false) : n.isDeferring = false := by
    cases n <;> first | rfl | simp [Note.isManaged] at plain
  suffices drain : (∃ d, frame = .drain d) ∨ ∀ n ∈ effect.notes, n.isDeferring = false by
    refine drain.resolve_right fun none => ?_
    simp [none note mem] at defers
  cases frame with
  | drain d => exact .inl ⟨d, rfl⟩
  | start op => exact .inr fun n here => quiet ((Op.plain (m := 0) step).2 n here)
  | phases | arrival | polling | pausing | release | resuming | acquisition | answer =>
    exact .inr (Frame.abstains (m := 0) rfl step).notes
  | withdrawal x =>
    right
    simp only [advance, Withdrawal.advance] at step
    repeat' split at step
    all_goals first
      | obtain rfl := Option.some.inj step
      | simp at step
    all_goals first
      | exact fun n here => quiet ((World.Spares.depart ‹_›).2 n here)
      | simp [Note.isDeferring]
  | blocking b =>
    right
    simp only [advance, Blocking.advance] at step
    repeat' split at step
    all_goals first
      | (obtain rfl := Option.some.inj step
         simp [Note.isDeferring])
      | (obtain ⟨v, notes, leaves, rfl⟩ := World.leaves_of_bind step
         exact fun n here => quiet ((World.Spares.leaveGlobal leaves).2 n here))
  | _ =>
    right
    simp only [advance, OwnedLock.advanceNotify, Interruption.advance, Sleeping.advance,
      Parking.advance, Enrolment.advance, Visit.advance, Script.advance, Sequence.advance,
      Entering.advance, Leaving.advance, Foreign.advance, Acquiring.advance, Trial.advance] at step
    repeat' split at step
    all_goals first
      | (obtain rfl := Option.some.inj step
         simp [Note.isDeferring])
      | simp at step

theorem World.notes_leaveGlobal {lock : GlobalId} {owner : ThreadId}
    (leaves : w.leaveGlobal lock owner = some (v, notes)) : .queued record tag ∉ notes := by
  simp only [World.leaveGlobal] at leaves
  split at leaves
  · obtain ⟨-, rfl⟩ := Prod.mk.inj (Option.some.inj leaves)
    split <;> simp
  · simp at leaves

theorem World.notes_depart {phaser : PhaserRef} {phase : Nat}
    (departs : w.depart phaser = .ok (v, phase, notes)) : .queued record tag ∉ notes := by
  unfold World.depart at departs
  dsimp only at departs
  split at departs
  · simp at departs
  · simp only [Except.ok.injEq, Prod.mk.injEq] at departs
    obtain ⟨-, -, rfl⟩ := departs
    split <;> simp

/-- That an action is queued is told by the operation that queues it. -/
theorem Op.queueing {op : Op} (step : op.advance self w = some effect)
    (queued : .queued record tag ∈ effect.notes) : ∃ script value,
      effect.world = w.defer record tag script ∧ effect.control = .reply value := by
  cases op with
  | defer thread name script =>
    obtain rfl := Option.some.inj step
    obtain ⟨rfl, rfl⟩ := Note.queued.inj (List.mem_singleton.mp queued)
    exact ⟨script, _, rfl, rfl⟩
  | deferLookup n thread name script =>
    simp only [advance] at step
    split at step <;> obtain rfl := Option.some.inj step
    · simp at queued
    · obtain ⟨rfl, rfl⟩ := Note.queued.inj (List.mem_singleton.mp queued)
      exact ⟨script, _, rfl, rfl⟩
  | release n =>
    obtain ⟨⟨v, notes⟩, leaves, replies⟩ := Option.bind_eq_some_iff.mp step
    obtain rfl := Option.some.inj replies
    exact absurd queued (World.notes_leaveGlobal leaves)
  | access a =>
    cases a with
    | globalLeave lock owner =>
      obtain ⟨⟨v, notes⟩, leaves, replies⟩ := Option.bind_eq_some_iff.mp step
      obtain rfl := Option.some.inj replies
      exact absurd queued (World.notes_leaveGlobal leaves)
    | phaserDepart phaser =>
      simp only [advance, Access.advance] at step
      split at step <;> obtain rfl := Option.some.inj step
      · simp at queued
      · exact absurd queued (World.notes_depart ‹_›)
    | globalTryEnter | unblock =>
      simp only [advance, Access.advance] at step
      repeat' split at step
      all_goals first
        | (obtain rfl := Option.some.inj step
           simp at queued)
        | simp at step
    | _ =>
      obtain rfl := Option.some.inj step
      simp at queued
  | unlock =>
    simp only [advance] at step
    split at step <;> obtain rfl := Option.some.inj step <;> simp at queued
  | _ =>
    obtain rfl := Option.some.inj step
    simp at queued

theorem Frame.queueing (step : frame.advance self w = some effect)
    (queued : .queued record tag ∈ effect.notes) : ∃ op script value, frame = .start op ∧
      effect.world = w.defer record tag script ∧ effect.control = .reply value := by
  cases frame with
  | start op =>
    obtain ⟨script, value, world, replies⟩ := Op.queueing step queued
    exact ⟨op, script, value, rfl, world, replies⟩
  | withdrawal x =>
    simp only [advance, Withdrawal.advance] at step
    repeat' split at step
    all_goals first
      | obtain rfl := Option.some.inj step
      | simp at step
    all_goals first
      | exact absurd queued (World.notes_depart ‹_›)
      | simp at queued
  | polling | pausing | blocking =>
    simp only [advance, Polling.advance, Pausing.advance, Blocking.advance] at step
    repeat' split at step
    all_goals first
      | (obtain rfl := Option.some.inj step
         simp at queued)
      | (obtain ⟨v, notes, leaves, rfl⟩ := World.leaves_of_bind step
         exact absurd queued (World.notes_leaveGlobal leaves))
  | _ =>
    simp only [advance, Acquisition.advance, Acquisition.took, Acquisition.gaveUp, Release.advance,
      OwnedLock.advanceNotify, Arrival.advance, Sleeping.advance, Parking.advance,
      Interruption.advance, Enrolment.advance, Visit.advance, Script.advance, Sequence.advance,
      Drain.advance, Phases.advance, Resuming.advance, Entering.advance, Leaving.advance,
      Foreign.advance, Acquiring.advance, Trial.advance] at step
    repeat' split at step
    all_goals first
      | (obtain rfl := Option.some.inj step
         simp at queued)
      | simp at step

theorem Frame.takesNothing (step : frame.advance self w = some effect)
    (other : ∀ d, frame ≠ .drain d) : effect.control.TakesNothing := by
  cases frame with
  | drain d => exact absurd rfl (other d)
  | start op =>
    cases op with
    | access a =>
      obtain ⟨-, -, ⟨value, control⟩ | ⟨message, control⟩⟩ := Access.agrees (m := 0) step <;>
        exact control ▸ trivial
    | release n =>
      obtain ⟨_, -, replies⟩ := Option.bind_eq_some_iff.mp step
      obtain rfl := Option.some.inj replies
      trivial
    | deferLookup | unlock =>
      simp only [advance, Op.advance] at step
      split at step <;> obtain rfl := Option.some.inj step <;>
        simp [Control.TakesNothing, outstanding]
    | _ =>
      obtain rfl := Option.some.inj step
      simp [Control.TakesNothing, outstanding]
  | _ =>
    simp only [advance, Acquisition.advance, Acquisition.took, Acquisition.gaveUp, Release.advance,
      OwnedLock.advanceNotify, Arrival.advance, Sleeping.advance, Parking.advance,
      Interruption.advance, Enrolment.advance, Withdrawal.advance, Visit.advance, Script.advance,
      Sequence.advance, Phases.advance, Resuming.advance, Polling.advance, Entering.advance,
      Leaving.advance, Pausing.advance, Foreign.advance, Acquiring.advance, Blocking.advance,
      Trial.advance] at step
    repeat' split at step
    all_goals first
      | (obtain rfl := Option.some.inj step
         simp [Control.TakesNothing, outstanding, inQueue])
      | (obtain ⟨_, -, goes⟩ := Option.bind_eq_some_iff.mp step
         obtain rfl := Option.some.inj goes
         simp [Control.TakesNothing, outstanding])
      | simp at step

end Steps

section Stacks

@[simp] theorem outstandingOn_nil : outstandingOn record tag [] = 0 := rfl

@[simp] theorem outstandingOn_cons : outstandingOn record tag (frame :: rest) =
    frame.outstanding record tag + outstandingOn record tag rest := by
  simp [outstandingOn]

@[simp] theorem Frame.outstanding_resume (frame : Frame) (value : Reply) :
    (frame.resume value).outstanding record tag = frame.outstanding record tag := by
  cases frame with
  | foreign f =>
    unfold resume
    dsimp only
    split <;> rfl
  | _ => cases value <;> rfl

theorem Frame.outstanding_catch {message : String} {handler : Frame}
    (caught : frame.catch? message = some handler) : handler.outstanding record tag = 0 := by
  unfold Frame.catch? at caught
  repeat' split at caught
  all_goals first
    | (obtain rfl := Option.some.inj caught
       rfl)
    | simp at caught

theorem outstandingOn_unwind (message : String) (rest : List Frame) :
    outstandingOn record tag (Frame.unwind message rest) ≤ outstandingOn record tag rest := by
  induction rest with
  | nil => exact Nat.le_refl _
  | cons parent below ih =>
    unfold Frame.unwind
    split
    · rename_i handler caught
      simp [Frame.outstanding_catch caught]
    · exact Nat.le_trans ih (by simp)

/-- Nothing but a drain adds to what is taken and not started. -/
theorem Control.TakesNothing.outstanding_le (takes : control.TakesNothing) (rest : List Frame) :
    outstandingOn record tag (control.stack rest) ≤ outstandingOn record tag rest := by
  cases control with
  | goto frame =>
    simp only [Control.stack, outstandingOn_cons, takes record tag]
    omega
  | call child back =>
    simp only [Control.stack, outstandingOn_cons, takes record tag]
    omega
  | reply value =>
    cases rest <;> simp [Control.stack]
  | unwind message => exact outstandingOn_unwind message rest

end Stacks

/-- A drain starts an action that it has taken, and takes what it finds in the queue. -/
theorem Drain.accounts {d : Drain} (step : d.advance w = some effect) (rest : List Frame) :
    effect.notes.countP (·.isStart record tag) + inQueue tag (effect.world.record record).deferred +
        outstandingOn record tag (effect.control.stack rest) ≤
      inQueue tag (w.record record).deferred + outstandingOn record tag (.drain d :: rest) := by
  simp only [advance] at step
  split at step
  · obtain rfl := Option.some.inj step
    by_cases own : d.record = record
    · simp [Control.stack, Frame.outstanding, own, Note.isStart, World.record_modifyRecord, inQueue]
    · simp [Control.stack, Frame.outstanding, own, Note.isStart, World.record_modifyRecord,
        Ne.symm own]
  · obtain rfl := Option.some.inj step
    have takes : (Control.reply (.count d.ran)).TakesNothing := trivial
    have le : outstandingOn record tag ((Control.reply (.count d.ran)).stack rest) ≤
        outstandingOn record tag rest := takes.outstanding_le rest
    simp only [List.countP_nil, outstandingOn_cons]
    omega
  · rename_i action later run queue
    obtain rfl := Option.some.inj step
    by_cases own : d.record = record
    · simp [Control.stack, Frame.outstanding, own, Note.isStart, inQueue, queue, List.countP_cons]
      omega
    · simp [Control.stack, Frame.outstanding, own, Note.isStart]

/-- What starts was queued or taken before, and what is queued was not there. -/
theorem Frame.accounts (tag : Tag) (step : frame.advance self w = some effect)
    (made : record < w.nextRecord) (rest : List Frame) :
    effect.notes.countP (·.isStart record tag) + inQueue tag (effect.world.record record).deferred +
        outstandingOn record tag (effect.control.stack rest) ≤
      inQueue tag (w.record record).deferred + outstandingOn record tag (frame :: rest) +
        effect.notes.countP (·.isQueueing record tag) := by
  by_cases drains : ∃ d, frame = .drain d
  · obtain ⟨d, rfl⟩ := drains
    exact Nat.le_add_right_of_le (Drain.accounts step rest)
  · have none : effect.notes.countP (·.isStart record tag) = 0 := by
      rw [List.countP_eq_zero]
      intro note mem starts
      refine drains (Frame.deferring step mem ?_)
      cases note <;> first | rfl | simp [Note.isStart] at starts
    have others : outstandingOn record tag (effect.control.stack rest) ≤
        outstandingOn record tag rest :=
      (Frame.takesNothing step fun d same => drains ⟨d, same⟩).outstanding_le rest
    have queue : inQueue tag (effect.world.record record).deferred ≤
        inQueue tag (w.record record).deferred + effect.notes.countP (·.isQueueing record tag) := by
      cases (Frame.books step).treats record made with
      | leaves same | sets same =>
        rw [same]
        exact Nat.le_add_right _ _
      | @queues action same noted =>
        rw [same, Record.defer_deferred, inQueue, inQueue, List.countP_append]
        refine Nat.add_le_add_left ?_ _
        by_cases named : action.tag = tag
        · have here : 0 < effect.notes.countP (·.isQueueing record tag) :=
            List.countP_pos_iff.mpr ⟨_, noted, by simp [Note.isQueueing, named]⟩
          simpa [named] using here
        · simp [named]
      | drains drain => exact absurd ⟨_, drain⟩ drains
    rw [outstandingOn_cons]
    omega

theorem tally_append {check : Note → Bool} (first second : List (ThreadId × Note)) :
    tally check (first ++ second) = tally check first + tally check second :=
  List.countP_append

theorem tally_run {check : Note → Bool} (quiet : ∀ value, check (.completed value) = false) :
    tally check (⟨w, .run self, notes ++ control.completion rest⟩ : Moment).observed =
      notes.countP check := by
  have none : (control.completion rest).countP check = 0 := by
    rw [List.countP_eq_zero]
    intro note mem
    obtain ⟨value, rfl⟩ := Control.completed_of_mem mem
    simp [quiet]
  rw [tally, Moment.observed_run, List.countP_map, List.countP_append]
  exact Nat.add_eq_left.mpr none

/-- Nothing of a record is taken on the stack of another thread. -/
theorem World.IsOwned.outstanding_eq_zero (owned : w.IsOwned m) (owns : w.Owns record thread)
    (tag : Tag) (other : thread ≠ self) : outstandingOn record tag (w.stack self) = 0 := by
  have frames := owned.frames self
  generalize w.stack self = stack at frames
  induction stack with
  | nil => rfl
  | cons frame rest ih =>
    obtain ⟨here, beneath⟩ := List.forall_mem_cons.mp frames
    rw [outstandingOn_cons, ih beneath]
    cases frame with
    | drain d =>
      have foreign : d.record ≠ record := by
        rintro rfl
        have mine : w.Owns d.record self := here
        exact other (owns.own.symm.trans mine.own)
      simp [Frame.outstanding, foreign]
    | _ => rfl

/-- What a move starts was queued or taken before, and what it queues was not there. -/
theorem World.IsOwned.accounts {move : Move} (owned : w.IsOwned m) (owns : w.Owns record thread)
    (tag : Tag) (moves : w.move move = some (v, notes)) :
    tally (·.isStart record tag) (⟨w, move, notes⟩ : Moment).observed +
        v.outstanding record tag thread ≤
      w.outstanding record tag thread +
        tally (·.isQueueing record tag) (⟨w, move, notes⟩ : Moment).observed := by
  by_cases runs : ∃ self, move = .run self
  · obtain ⟨self, rfl⟩ := runs
    obtain ⟨frame, rest, effect, stack, step, rfl, rfl⟩ := World.step_eq_some moves
    have books := Frame.accounts tag step owns.made rest
    rw [tally_run fun _ => rfl, tally_run fun _ => rfl]
    unfold World.outstanding
    rw [World.stack_setStack]
    show _ + (inQueue tag (effect.world.record record).deferred + _) ≤ _
    split
    · rename_i same
      subst same
      rw [stack]
      omega
    · rename_i other
      rw [Frame.advance_stack step]
      have none := owned.outstanding_eq_zero owns tag other
      rw [stack] at none
      omega
  · have idle (thread : ThreadId) : move ≠ .run thread := fun same => runs ⟨thread, same⟩
    have tallies := World.Tallies.of_idle idle moves
    have silent : (⟨w, move, notes⟩ : Moment).observed = [] := by
      cases move <;> first | rfl | exact absurd rfl (idle _)
    have kept : outstandingOn record tag (v.stack thread) =
        outstandingOn record tag (w.stack thread) := by
      obtain ⟨-, same | ⟨op, none, told⟩ | ⟨frame, frame', rest, before, after, rouses⟩⟩ :=
        World.move_other moves (idle thread)
      · rw [same]
      · rw [none, told]
        rfl
      · rw [before, after]
        cases rouses <;> rfl
    simp [silent, World.outstanding, kept, World.record, tallies.records, tally]

theorem Course.accounts_deferred (course : Course (Known m) w moments v) (coherent : w.Coherent m)
    (owned : w.IsOwned m) (owns : w.Owns record thread) :
    tally (·.isStart record tag) (observations moments) + v.outstanding record tag thread ≤
      w.outstanding record tag thread + tally (·.isQueueing record tag) (observations moments) := by
  induction course with
  | nil => simp [tally]
  | @snoc moments v u move notes before known moves ih =>
    have reached := before.isOwned_of_known coherent owned
    have last := reached.accounts (before.owns owns) tag moves
    simp only [observations_append, observations_cons, observations_nil, List.append_nil,
      tally_append]
    omega

/-- Deferred actions run within the call that comes back from a pause, outside of the phases of all
pauses. -/
theorem World.Coherent.drains_outside {d : Drain} (coherent : w.Coherent m) (laid : w.IsLaid)
    (stack : w.stack thread = above ++ .drain d :: below) :
    (∃ r tail, below = .resuming r :: tail) ∧ below.any (·.isPhases) = false := by
  have sound := coherent.sound thread
  have laid := laid thread
  rw [stack] at sound laid
  have hosted : (Frame.drain d).isHosted below = true := by
    clear sound stack
    induction above with
    | nil => exact laid.1
    | cons frame above ih => exact ih laid.tail
  have sound := sound.of_append.tail
  cases below with
  | nil => simp [Frame.isHosted, Frame.isOp] at hosted
  | cons parent tail =>
    cases parent with
    | resuming r =>
      refine ⟨⟨r, tail, rfl⟩, Bool.eq_false_of_not_eq_true fun meets => ?_⟩
      have unmarked := sound.1.2.unmarked
      have meets : tail.any (·.isPhases) = true := by simpa [Frame.isPhases] using meets
      rw [sound.tail.marked meets] at unmarked
      simp at unmarked
    | _ => simp [Frame.isHosted, Frame.hosts, Frame.isOp] at hosted

end

end StopTheWorld
