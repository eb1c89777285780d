import StopTheWorld.Proofs.Footprint

namespace StopTheWorld

/-! Which procedures can be inside of which. All of this is read off the procedures alone: it holds in
any world, whatever user code does. -/

namespace Frame

/-- The frame stands where an operation began: it is that of the operation, or of a procedure that goes
on in its place. -/
def isOp : Frame → Bool
  | word _ | release _ _ | script _ | drain _ | phases _ | entering _ | trial _ => false
  | _ => true

/-- The waiting frame can have the other one right above it. -/
def hosts (parent child : Frame) : Bool :=
  match parent with
  | script _ | sequence _ => child.isOp
  | discard =>
    match child with
    | entering _ | answer _ => true
    | _ => false
  | answer _ =>
    match child with
    | acquisition _ | release _ _ | resuming _ | leaving _ | acquiring _ => true
    | _ => false
  | rethrow _ =>
    match child with
    | release _ _ | leaving _ => true
    | _ => false
  | keepGuard _ _ =>
    match child with
    | acquisition _ => true
    | _ => false
  | word _ =>
    match child with
    | sleeping _ | parking _ => true
    | _ => false
  | interruption _ =>
    match child with
    | notify _ | script _ => true
    | _ => false
  | visit _ =>
    match child with
    | interruption _ => true
    | _ => false
  | drain _ =>
    match child with
    | script _ => true
    | _ => false
  | phases _ =>
    match child with
    | arrival _ | script _ => true
    | _ => false
  | resuming _ =>
    match child with
    | acquisition _ | drain _ => true
    | _ => false
  | polling _ =>
    match child with
    | phases _ => true
    | _ => false
  | entering _ =>
    match child with
    | acquisition _ | enrolment _ => true
    | _ => false
  | leaving _ =>
    match child with
    | polling _ | resuming _ | withdrawal _ => true
    | _ => false
  | pausing _ =>
    match child with
    | polling _ | resuming _ | acquisition _ | notify _ | visit _ | phases _ | release _ _ => true
    | _ => false
  | foreign _ =>
    match child with
    | entering _ | answer _ | pausing _ | rethrow _ => true
    | _ => false
  | acquiring _ =>
    match child with
    | acquisition _ | polling _ | resuming _ => true
    | _ => false
  | blocking _ =>
    match child with
    | trial _ | word _ | answer _ | polling _ | resuming _ => true
    | _ => false
  | trial _ =>
    match child with
    | interruption _ => true
    | _ => false
  | start _ | acquisition _ | release _ _ | notify _ | arrival _ | sleeping _ | parking _
  | enrolment _ | withdrawal _ => false

/-- The procedure of the frame calls no other, so that it is always the innermost one. -/
def isLeaf : Frame → Bool
  | start _ | acquisition _ | release _ _ | notify _ | arrival _ | sleeping _ | parking _
  | enrolment _ | withdrawal _ => true
  | _ => false

/-- The frame can stand on this stack. -/
def isHosted (frame : Frame) : List Frame → Bool
  | [] => frame.isOp
  | parent :: _ => parent.hosts frame

end Frame

/-- Every frame stands on one that waits for it. -/
def Laid : List Frame → Prop
  | [] => True
  | frame :: rest => frame.isHosted rest = true ∧ Laid rest

/-- Wherever the one frame can stand, so can the other. -/
def Frame.Replaces (frame' frame : Frame) : Prop :=
  (frame.isOp = true → frame'.isOp = true) ∧
    ∀ parent : Frame, parent.hosts frame = true → parent.hosts frame' = true

/-- What the control leaves of a frame can stand where the frame stood. -/
def Control.Succeeds (frame : Frame) : Control → Prop
  | goto frame' => frame'.Replaces frame
  | call child back => back.hosts child = true ∧ back.Replaces frame
  | reply _ | unwind _ => True

/-- The procedure that is begun or gone on with. -/
@[simp]
def Control.top? : Control → Option Frame
  | goto frame | call frame _ => some frame
  | reply _ | unwind _ => none

/-- The procedure that is begun or gone on with passes the check. -/
def Control.enters (check : Frame → Bool) (control : Control) : Bool := control.top?.any check

/-- The innermost procedure of a thread passes the check. -/
def World.isAt (w : World) (check : Frame → Bool) (thread : ThreadId) : Bool :=
  (w.stack thread).head?.any check

section

variable {w v : World} {self thread : ThreadId} {frame frame' parent : Frame}
  {rest above below : List Frame} {effect : Effect}

theorem Frame.Replaces.hosted (replaces : frame'.Replaces frame) (hosted : frame.isHosted rest = true) :
    frame'.isHosted rest = true := by
  cases rest with
  | nil => exact replaces.1 hosted
  | cons parent => exact replaces.2 parent hosted

theorem Op.succeeds {op : Op} (step : op.advance self w = some effect) :
    effect.control.Succeeds (.start op) := by
  have replaces {frame : Frame} (isOp : frame.isOp = true) : frame.Replaces (.start op) := by
    refine ⟨fun _ => isOp, fun parent => ?_⟩
    cases parent <;> first
      | exact fun _ => isOp
      | simp [Frame.hosts]
  cases op with
  | access a =>
    obtain ⟨-, -, ⟨value, control⟩ | ⟨message, control⟩⟩ := Access.agrees (m := 0) step <;>
      rw [control] <;> trivial
  | release n =>
    obtain ⟨_, -, replies⟩ := Option.bind_eq_some_iff.mp step
    obtain rfl := Option.some.inj replies
    trivial
  | deferLookup =>
    simp only [advance] at step
    split at step <;> obtain rfl := Option.some.inj step <;> trivial
  | unlock l =>
    simp only [advance] at step
    split at step <;> obtain rfl := Option.some.inj step
    · exact ⟨rfl, replaces rfl⟩
    · trivial
  | enter | enterWith | globalEnter | lock | lockInterruptibly =>
    obtain rfl := Option.some.inj step
    exact ⟨rfl, replaces rfl⟩
  | log | unwind | defer | blockOn =>
    obtain rfl := Option.some.inj step
    trivial
  | _ =>
    obtain rfl := Option.some.inj step
    exact replaces rfl

theorem Frame.succeeds (step : frame.advance self w = some effect) :
    effect.control.Succeeds frame := by
  cases frame with
  | start op => exact Op.succeeds step
  | _ =>
    simp only [advance, Acquisition.advance, Acquisition.took, Acquisition.gaveUp, Release.advance,
      OwnedLock.advanceNotify, Arrival.advance, Sleeping.advance, Parking.advance,
      Interruption.advance, Enrolment.advance, Withdrawal.advance, Visit.advance, Script.advance,
      Sequence.advance, Drain.advance, Phases.advance, Resuming.advance, Polling.advance,
      Entering.advance, Leaving.advance, Pausing.advance, Foreign.advance, Acquiring.advance,
      Blocking.advance, Trial.advance] at step
    repeat' split at step
    all_goals first
      | (obtain rfl := Option.some.inj step
         first
           | trivial
           | exact ⟨id, fun _ => id⟩
           | exact ⟨rfl, id, fun _ => id⟩
           | exact ⟨by simp [isOp], fun parent => by cases parent <;> first | exact id | simp [hosts]⟩
           | exact ⟨rfl, by simp [isOp],
               fun parent => by cases parent <;> first | exact id | simp [hosts, isOp]⟩)
      | (obtain ⟨_, -, goes⟩ := Option.bind_eq_some_iff.mp step
         obtain rfl := Option.some.inj goes
         exact ⟨id, fun _ => id⟩)
      | simp at step

theorem Frame.Replaces.refl (frame : Frame) : frame.Replaces frame := ⟨id, fun _ => id⟩

/-- A frame that takes up a reply stands where it stood. -/
theorem Frame.replaces_resume (frame : Frame) (value : Reply) : (frame.resume value).Replaces frame := by
  unfold Frame.resume
  split <;> first
    | exact .refl _
    | exact ⟨id, fun _ => id⟩
    | exact ⟨fun _ => rfl, fun parent => by cases parent <;> first | exact id | simp [hosts, isOp]⟩
    | (split <;> first
         | exact ⟨id, fun _ => id⟩
         | exact ⟨fun _ => rfl, fun parent => by cases parent <;> first | exact id | simp [hosts]⟩)

theorem Frame.replaces_catch {message : String} {handler : Frame}
    (caught : frame.catch? message = some handler) : handler.Replaces frame := by
  unfold Frame.catch? at caught
  repeat' split at caught
  all_goals first
    | (obtain rfl := Option.some.inj caught
       exact ⟨fun isOp => isOp, fun _ => id⟩)
    | simp at caught

theorem Frame.Rouses.replaces (rouses : frame.Rouses frame') : frame'.Replaces frame := by
  cases rouses <;> exact ⟨id, fun _ => id⟩

namespace Laid

theorem tail (laid : Laid (frame :: rest)) : Laid rest := laid.2

theorem replace (laid : Laid (frame :: rest)) (replaces : frame'.Replaces frame) :
    Laid (frame' :: rest) :=
  ⟨replaces.hosted laid.1, laid.2⟩

theorem unwind (laid : Laid rest) (message : String) : Laid (Frame.unwind message rest) := by
  induction rest with
  | nil => trivial
  | cons parent below ih =>
    unfold Frame.unwind
    split
    · rename_i handler caught
      exact laid.replace (Frame.replaces_catch caught)
    · exact ih laid.tail

theorem step (laid : Laid (frame :: rest)) (step : frame.advance self w = some effect) :
    Laid (effect.control.stack rest) := by
  have succeeds := Frame.succeeds step
  cases control : effect.control with
  | goto frame' =>
    rw [control] at succeeds
    exact laid.replace succeeds
  | call child back =>
    rw [control] at succeeds
    exact ⟨succeeds.1, laid.replace succeeds.2⟩
  | reply value =>
    cases rest with
    | nil => trivial
    | cons parent below => exact laid.tail.replace (parent.replaces_resume value)
  | unwind message => exact laid.tail.unwind message

end Laid

/-- The stacks of all threads are laid. -/
def World.IsLaid (w : World) : Prop := ∀ thread, Laid (w.stack thread)

theorem World.IsLaid.move {move : Move} {notes : List Note} (laid : w.IsLaid)
    (moves : w.move move = some (v, notes)) : v.IsLaid := by
  intro thread
  by_cases own : move = .run thread
  · subst own
    obtain ⟨frame, rest, effect, stack, step, rfl, -⟩ := World.step_eq_some moves
    rw [World.stack_setStack, if_pos rfl]
    exact (stack ▸ laid thread : Laid (frame :: rest)).step step
  · obtain ⟨-, same | ⟨op, -, told⟩ | ⟨frame, frame', rest, before, after, rouses⟩⟩ :=
      World.move_other moves own
    · exact same ▸ laid thread
    · rw [told]
      exact ⟨rfl, trivial⟩
    · rw [after]
      exact (before ▸ laid thread : Laid (frame :: rest)).replace rouses.replaces

theorem Course.isLaid {custom : World → ThreadId → Prop} {moments : List Moment}
    (course : Course custom w moments v) (laid : w.IsLaid) : v.IsLaid :=
  course.keeps (fun laid _ moves => laid.move moves) laid

section Innermost

variable {check : Frame → Bool}

theorem Frame.not_isLeaf (hosts : parent.hosts frame = true) : parent.isLeaf = false := by
  cases parent <;> first | rfl | simp [Frame.hosts] at hosts

theorem Frame.isLeaf_resume (inner : frame.isLeaf = false) (value : Reply) :
    (frame.resume value).isLeaf = false := by
  unfold Frame.resume
  split <;> first
    | rfl
    | exact inner
    | (split <;> rfl)

theorem Frame.isLeaf_catch {message : String} {handler : Frame}
    (caught : frame.catch? message = some handler) : handler.isLeaf = false := by
  unfold Frame.catch? at caught
  repeat' split at caught
  all_goals first
    | (obtain rfl := Option.some.inj caught
       rfl)
    | simp at caught

/-- A thread comes to an innermost procedure only by beginning it or by going on with it. -/
theorem Control.head_stack (leaf : ∀ {frame}, check frame = true → frame.isLeaf = true)
    (control : Control) (hosted : frame.isHosted rest = true) :
    (control.stack rest).head?.any check = control.enters check := by
  have other {inner : Frame} (inside : inner.isLeaf = false) : check inner = false :=
    Bool.eq_false_iff.mpr fun passes => by simp [leaf passes] at inside
  cases control with
  | goto top | call child back => rfl
  | reply value =>
    cases rest with
    | nil => rfl
    | cons parent below => exact other (Frame.isLeaf_resume (Frame.not_isLeaf hosted) value)
  | unwind message =>
    clear hosted
    show (Frame.unwind message rest).head?.any check = false
    induction rest with
    | nil => rfl
    | cons parent below ih =>
      unfold Frame.unwind
      split
      · exact other (Frame.isLeaf_catch ‹_›)
      · exact ih

theorem Control.top_of_stack {leaf : Frame} (control : Control) (hosted : frame.isHosted rest = true)
    (after : control.stack rest = leaf :: below) (isLeaf : leaf.isLeaf = true) :
    control.top? = some leaf := by
  have entered : (control.stack rest).head?.any Frame.isLeaf = control.enters Frame.isLeaf :=
    control.head_stack id hosted
  rw [after] at entered
  cases control with
  | goto top | call top back => exact congrArg some (List.cons.inj after).1
  | reply | unwind => simp [isLeaf, enters, top?] at entered

theorem World.isAt_step (leaf : ∀ {frame}, check frame = true → frame.isLeaf = true)
    (laid : Laid (frame :: rest)) (step : frame.advance self w = some effect) (thread : ThreadId) :
    (effect.world.setStack self (effect.control.stack rest)).isAt check thread =
      if thread = self then effect.control.enters check else w.isAt check thread := by
  unfold World.isAt
  rw [World.stack_setStack]
  split
  · exact effect.control.head_stack leaf laid.1
  · rw [Frame.advance_stack step]

theorem World.isAt_iff : w.isAt check thread = true ↔
    ∃ frame rest, w.stack thread = frame :: rest ∧ check frame = true := by
  unfold World.isAt
  cases w.stack thread with
  | nil => simp
  | cons frame rest =>
    simp only [List.head?_cons, Option.any_some]
    constructor
    · exact fun passes => ⟨frame, rest, rfl, passes⟩
    · rintro ⟨_, _, same, passes⟩
      obtain ⟨rfl, rfl⟩ := List.cons.inj same
      exact passes

theorem World.isAt_nil (idle : w.stack thread = []) : w.isAt check thread = false := by
  simp [isAt, idle]

/-- A move that is no step of the thread leaves it where it is, if neither the beginning of an operation
nor being woken matters. -/
theorem World.isAt_other {move : Move} {notes : List Note} (fresh : ∀ op, check (.start op) = false)
    (roused : ∀ {frame frame' : Frame}, frame.Rouses frame' → check frame' = check frame)
    (moves : w.move move = some (v, notes)) (other : move ≠ .run thread) :
    v.isAt check thread = w.isAt check thread := by
  unfold World.isAt
  obtain ⟨-, same | ⟨op, idle, told⟩ | ⟨frame, frame', rest, before, after, rouses⟩⟩ :=
    World.move_other moves other
  · rw [same]
  · rw [idle, told]
    exact fresh op
  · rw [before, after]
    exact roused rouses

end Innermost

end

end StopTheWorld
