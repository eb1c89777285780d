import StopTheWorld.Proofs.ActionOnce
import StopTheWorld.Proofs.Announcements
import StopTheWorld.Proofs.Barred
import StopTheWorld.Proofs.Inside

namespace StopTheWorld

/-! A driver keeps out of its own barrier: what it calls in its own pause is turned away, except for the
safepoint checks that its callbacks make. -/

/-- What runs in the pause is its action: the driver is on its way through the phases. -/
def Pausing.acts (p : Pausing) : Bool := p.point = .exitPhases

/-- The stack is that of user code that runs within a pause of the thread's own, which has the pause
lock. -/
structure Engaged (m : ManagerId) (above : List Frame) (p : Pausing) (below stack : List Frame) :
    Prop where
  parts : stack = above ++ .pausing p :: below
  manager : p.manager = m
  drives : p.point.drives = true
  user : above.any (·.isScript) = true

/-- The step that a thread is about to take calls no other manager from user code within a pause of its
own, and does not unwind out of a callback that it runs as the driver of a pause. -/
structure Solitary (m : ManagerId) (w : World) (thread : ThreadId) : Prop where
  single : ∀ {op rest above p below}, w.stack thread = .start op :: rest →
    Engaged m above p below rest → op.calls? = none ∨ op.calls? = some m
  tame : Tame w thread

/-- Decides whether a step calls no other manager at all and is tame. -/
def World.isSolitary (m : ManagerId) (w : World) (thread : ThreadId) : Bool :=
  (match w.stack thread with
    | .start op :: _ => op.calls? = none || op.calls? = some m
    | _ => true) && w.isTame thread

/-- User code within a pause of the thread's own has come to nothing that it is kept from. -/
def Tethered (m : ManagerId) : List Frame → Prop
  | [] => True
  | frame :: rest =>
    (∀ {above p below}, Engaged m above p below rest →
      frame.isBarred m p.acts = true ∨ p.acts = false ∧ above.any (·.isReentry) = true) ∧
    Tethered m rest

/-- The frame is that of a driver in the phases of its pause. -/
def Frame.isExit (m : ManagerId) : Frame → Bool :=
  drivesAt m fun point => point = .exitPhases

/-- The frames that a step puts on the stack. -/
def Control.puts : Control → List Frame
  | goto frame => [frame]
  | call frame back => [frame, back]
  | reply _ | unwind _ => []

/-- A step marks its thread, or it puts no driver in the phases on the stack and takes no mark down but
the one that its frame has set. -/
def Effect.Guarded (m : ManagerId) (self : ThreadId) (w : World) (frame : Frame) (effect : Effect) :
    Prop :=
  (effect.world.thread self).inPause = true ∨
    (∀ top ∈ effect.control.puts, top.isExit m = false) ∧
      ((effect.world.thread self).inPause = (w.thread self).inPause ∨ frame.marks = true)

/-- What stands above a driver that owns the pause lock, short of user code. -/
inductive Guides (p : Pausing) : List Frame → Prop
  | none : Guides p []
  | phases {q : Phases} (exit : p.point = .exitPhases) (manager : q.manager = p.manager)
      (drives : q.drives = true) : Guides p [.phases q]
  | visit {v : Visit} (point : p.point = .leaveGlobal) : Guides p [.visit v]
  | callback {i : Interruption} {v : Visit} (point : p.point = .leaveGlobal) :
      Guides p [.interruption i, .visit v]
  | leaf {frame : Frame} {above : List Frame} (leaf : frame.isLeaf = true) (guides : Guides p above) :
      Guides p (frame :: above)

section

variable {m : ManagerId} {w v u : World} {self thread : ThreadId} {frame parent : Frame}
  {rest above below : List Frame} {p : Pausing} {effect : Effect} {notes : List Note}
  {moments : List Moment}

theorem World.solitary_of_isSolitary (m : ManagerId) (w : World) (thread : ThreadId)
    (solitary : w.isSolitary m thread = true) : Solitary m w thread := by
  simp only [isSolitary, Bool.and_eq_true] at solitary
  refine ⟨fun stack _ => ?_, World.tame_of_isTame solitary.2⟩
  simpa [stack] using solitary.1

theorem Frame.isScript_iff : frame.isScript = true ↔ ∃ s, frame = .script s := by
  cases frame <;> simp [isScript]

theorem Guides.of_laid (laid : Laid (above ++ .pausing p :: below))
    (straight : Straight m self (above ++ .pausing p :: below)) (drives : p.point.drives = true)
    (bare : above.any (·.isScript) = false) : Guides p above := by
  induction above with
  | nil => exact .none
  | cons frame above ih =>
    rw [List.any_cons, Bool.or_eq_false_iff] at bare
    have hosted : frame.isHosted (above ++ .pausing p :: below) = true := laid.1
    have stands : frame.Stands (above ++ .pausing p :: below) := straight.2.1
    cases ih laid.tail straight.tail bare.2 with
    | none =>
      have heads : frame.Heads (.pausing p) := stands
      cases frame with
      | polling | resuming =>
        have lock : p.point = .lock := heads
        simp [lock, Pausing.Point.drives] at drives
      | phases q => exact .phases heads.1 heads.2.1 heads.2.2
      | visit => exact .visit heads
      | acquisition | notify | release => exact .leaf rfl .none
      | _ => simp [Frame.isHosted, Frame.hosts] at hosted
    | phases exit manager leads =>
      cases frame with
      | arrival => exact .leaf rfl (.phases exit manager leads)
      | script => simp [Frame.isScript] at bare
      | _ => simp [Frame.isHosted, Frame.hosts] at hosted
    | visit point =>
      cases frame with
      | interruption => exact .callback point
      | _ => simp [Frame.isHosted, Frame.hosts] at hosted
    | callback point =>
      cases frame with
      | notify => exact .leaf rfl (.callback point)
      | script => simp [Frame.isScript] at bare
      | _ => simp [Frame.isHosted, Frame.hosts] at hosted
    | leaf leaf guides =>
      have inner := Frame.not_isLeaf hosted
      simp [leaf] at inner

/-- User code within a pause runs in the third phase or in a callback. -/
theorem Guides.below_script {s : Script} (guides : Guides p above)
    (laid : Laid (.script s :: (above ++ .pausing p :: below))) :
    (∃ q, above = [.phases q] ∧ p.point = .exitPhases ∧ q.manager = p.manager ∧ q.drives = true) ∨
      ∃ i v, above = [.interruption i, .visit v] ∧ p.point = .leaveGlobal := by
  have hosted : (Frame.script s).isHosted (above ++ .pausing p :: below) = true := laid.1
  cases guides with
  | phases exit manager drives => exact .inl ⟨_, rfl, exit, manager, drives⟩
  | callback point => exact .inr ⟨_, _, rfl, point⟩
  | leaf leaf =>
    have inner := Frame.not_isLeaf hosted
    simp [leaf] at inner
  | none | visit => simp [Frame.isHosted, Frame.hosts] at hosted

/-- Whoever runs user code within a pause of its own has a hold on the pause lock, and in the action of
the pause the fresh epoch is published. -/
theorem Tethered.holdOf (tethered : Tethered m (above ++ .pausing p :: below))
    (laid : Laid (above ++ .pausing p :: below))
    (straight : Straight m self (above ++ .pausing p :: below)) (manager : p.manager = m)
    (drives : p.point.drives = true) (user : above.any (·.isScript) = true)
    (out : p.acts = true ∨ above.any (·.isReentry) = false) :
    (StopTheWorld.holdOf m (above ++ .pausing p :: below)).isSome = true ∧
      (p.acts = true → StopTheWorld.holdOf m (above ++ .pausing p :: below) = some .fresh) := by
  induction above with
  | nil => simp at user
  | cons frame above ih =>
    rw [List.any_cons, Bool.or_eq_false_iff] at out
    have out : p.acts = true ∨ above.any (·.isReentry) = false := out.imp_right (·.2)
    cases within : above.any (·.isScript) with
    | true =>
      have barred : frame.isBarred m p.acts = true := by
        obtain barred | ⟨callback, reentry⟩ := tethered.1 ⟨rfl, manager, drives, within⟩
        · exact barred
        · simp [callback, reentry] at out
      rw [List.cons_append, holdOf_cons, Frame.hold_of_isBarred barred]
      exact ih tethered.2 laid.tail straight.tail within out
    | false =>
      -- this is the first user code above the driver, and the hold is in what leads to it
      rw [List.any_cons, within, Bool.or_false] at user
      obtain ⟨s, rfl⟩ := Frame.isScript_iff.mp user
      have guides := Guides.of_laid laid.tail straight.tail drives within
      obtain ⟨q, rfl, exit, same, leads⟩ | ⟨i, v, rfl, point⟩ := guides.below_script laid
      · have third : q.point = .third := straight.2.1
        simp [Frame.hold, same, manager, leads, third, Phases.Point.isFresh]
      · simp [Frame.hold, manager, point, Pausing.Point.drives, Pausing.acts]

namespace Tethered

theorem unwind (tethered : Tethered m rest) (message : String) :
    Tethered m (Frame.unwind message rest) := by
  induction rest with
  | nil => trivial
  | cons parent below ih =>
    unfold Frame.unwind
    split
    · rename_i handler caught
      exact ⟨fun engaged => (tethered.1 engaged).imp_left (Frame.isBarred_catch · caught), tethered.2⟩
    · exact ih tethered.2

theorem reply (tethered : Tethered m rest) (stands : frame.Stands rest) (value : Reply) :
    Tethered m ((Control.reply value).stack rest) := by
  cases rest with
  | nil => trivial
  | cons parent below =>
    refine ⟨fun engaged => (tethered.1 engaged).imp_left fun barred => ?_, tethered.2⟩
    refine Frame.isBarred_resume barred (fun p same gate => ?_) value
    subst same
    simp only [Frame.Stands] at stands
    cases frame <;> simp [Frame.Heads, gate] at stands

/-- A step of the thread itself. -/
theorem step (tethered : Tethered m (frame :: rest)) (stands : frame.Stands rest)
    (single : ∀ {above p below}, Engaged m above p below rest →
      ∀ op, frame = .start op → op.calls? = none ∨ op.calls? = some m)
    (bars : ∀ {above p below}, Engaged m above p below rest →
      p.acts = true ∨ above.any (·.isReentry) = false → w.Bars m p.acts self)
    (step : frame.advance self w = some effect) : Tethered m (effect.control.stack rest) := by
  have goes {above : List Frame} {p : Pausing} {below : List Frame}
      (engaged : Engaged m above p below rest) :
      effect.control.IsBarred m p.acts ∨ p.acts = false ∧ above.any (·.isReentry) = true := by
    by_cases out : p.acts = true ∨ above.any (·.isReentry) = false
    · refine .inl (Frame.isBarred_step ?_ (bars engaged out) (single engaged) step)
      exact (tethered.1 engaged).resolve_right fun inside => by simp [inside] at out
    · exact .inr (by simpa using out)
  cases control : effect.control with
  | goto next =>
    rw [control] at goes
    exact ⟨goes, tethered.2⟩
  | call child back =>
    rw [control] at goes
    refine ⟨fun {above p below} engaged => ?_, fun engaged => (goes engaged).imp_left (·.1), tethered.2⟩
    obtain ⟨rfl, same⟩ | ⟨above, rfl, parts⟩ := List.cons_eq_append_iff.mp engaged.parts
    · simpa using engaged.user
    · have user := engaged.user
      rw [List.any_cons, Bool.or_eq_true] at user
      by_cases within : above.any (·.isScript) = true
      · obtain ⟨-, barred | ⟨callback, reentry⟩⟩ | ⟨callback, reentry⟩ :=
          goes ⟨parts, engaged.manager, engaged.drives, within⟩
        · exact .inl barred
        · exact .inr ⟨callback, by simp [reentry]⟩
        · exact .inr ⟨callback, by simp [reentry]⟩
      · -- the user code begins with the frame that calls, and calls nothing but operations
        obtain ⟨s, rfl⟩ := Frame.isScript_iff.mp (user.resolve_right within)
        obtain ⟨op, rfl⟩ := Frame.start_of_script step control
        exact .inl rfl
  | reply value => exact tethered.2.reply stands value
  | unwind message => exact tethered.2.unwind message

end Tethered

section Marks

namespace Effect.Guarded

theorem of_spares (spares : w.Spares effect.world)
    (puts : ∀ top ∈ effect.control.puts, top.isExit m = false) : effect.Guarded m self w frame :=
  .inr ⟨puts, .inl (spares.inPause self)⟩

theorem of_leaveGlobal {lock : GlobalId} {control : Control}
    (step : (w.leaveGlobal lock self).bind (fun (v, notes) => some ⟨v, control, notes⟩) =
      some effect)
    (puts : ∀ top ∈ control.puts, top.isExit m = false) : effect.Guarded m self w frame := by
  obtain ⟨v, notes, leaves, rfl⟩ := World.leaves_of_bind step
  exact of_spares (World.Spares.leaveGlobal leaves).1 puts

end Effect.Guarded

theorem Op.guarded {op : Op} (step : op.advance self w = some effect) :
    effect.Guarded m self w frame := by
  refine .of_spares (.of_agrees (Op.plain (m := m) step).1) ?_
  cases op with
  | access a =>
    obtain ⟨-, -, ⟨_, same⟩ | ⟨_, same⟩⟩ := Access.agrees (m := m) step <;> simp [same, Control.puts]
  | release n =>
    obtain ⟨_, -, replies⟩ := Option.bind_eq_some_iff.mp step
    obtain rfl := Option.some.inj replies
    simp [Control.puts]
  | deferLookup | unlock =>
    simp only [advance] at step
    split at step <;> obtain rfl := Option.some.inj step <;>
      simp [Control.puts, Frame.isExit, Frame.drivesAt]
  | _ =>
    obtain rfl := Option.some.inj step
    simp [Control.puts, Frame.isExit, Frame.drivesAt]

theorem Polling.guarded {p : Polling} (step : p.advance self w = some effect) :
    effect.Guarded m self w (.polling p) := by
  cases point : p.point with
  | enterPhases =>
    simp only [advance, point] at step
    obtain rfl := Option.some.inj step
    exact .inl (World.setInPause_self ..)
  | exitPhases =>
    simp only [advance, point] at step
    obtain rfl := Option.some.inj step
    exact .inr ⟨by simp [Control.puts, Frame.isExit, Frame.drivesAt],
      .inr (by simp [Frame.marks, point])⟩
  | leaveGlobal =>
    simp only [advance, point] at step
    exact .of_leaveGlobal step (by simp [Control.puts, Frame.isExit, Frame.drivesAt])
  | _ =>
    simp only [advance, point] at step
    repeat' split at step
    all_goals
      obtain rfl := Option.some.inj step
      exact .of_spares ⟨fun _ => rfl, fun _ => rfl⟩
        (by simp [Control.puts, Frame.isExit, Frame.drivesAt])

theorem Pausing.guarded {p : Pausing} (step : p.advance self w = some effect) :
    effect.Guarded m self w (.pausing p) := by
  cases point : p.point with
  | enterPhases =>
    simp only [advance, point] at step
    obtain rfl := Option.some.inj step
    exact .inl (World.setInPause_self ..)
  | exitPhases =>
    simp only [advance, point] at step
    obtain rfl := Option.some.inj step
    exact .inr ⟨by simp [Control.puts, Frame.isExit, Frame.drivesAt],
      .inr (by simp [Frame.marks, point])⟩
  | leaveGlobal =>
    simp only [advance, point] at step
    split at step
    · exact .of_leaveGlobal step (by simp [Control.puts, Frame.isExit, Frame.drivesAt])
    · obtain rfl := Option.some.inj step
      exact .of_spares (.refl w) (by simp [Control.puts, Frame.isExit, Frame.drivesAt])
  | _ =>
    simp only [advance, point] at step
    repeat' split at step
    all_goals
      obtain rfl := Option.some.inj step
      exact .of_spares ⟨fun _ => rfl, fun _ => rfl⟩
        (by simp [Control.puts, Frame.isExit, Frame.drivesAt])

theorem Frame.guarded (step : frame.advance self w = some effect) :
    effect.Guarded m self w frame := by
  cases frame with
  | start op => exact Op.guarded step
  | polling p => exact p.guarded step
  | pausing p => exact p.guarded step
  | _ =>
    simp only [advance, Acquisition.advance, Acquisition.took, Acquisition.gaveUp, Release.advance,
      OwnedLock.advanceNotify, Arrival.advance, Sleeping.advance, Parking.advance,
      Interruption.advance, Enrolment.advance, Withdrawal.advance, Visit.advance, Script.advance,
      Sequence.advance, Drain.advance, Phases.advance, Resuming.advance, Entering.advance,
      Leaving.advance, Foreign.advance, Acquiring.advance, Blocking.advance, Trial.advance] at step
    repeat' split at step
    all_goals first
      | (obtain rfl := Option.some.inj step
         refine .of_spares ?_ (by simp [Control.puts, isExit, drivesAt])
         first
           | exact .checkInterrupt ‹_›
           | exact .checkInterrupt (Prod.eta _).symm
           | exact (World.Spares.depart ‹_›).1
           | exact ⟨fun _ => rfl, fun _ => rfl⟩
           | exact ⟨by simp, by simp⟩)
      | exact .of_leaveGlobal step (by simp [Control.puts, isExit, drivesAt])
      | simp at step

/-- A driver in the phases that is still on the stack after a step was there before, unless the step has
put it there. -/
theorem Control.any_isExit (control : Control)
    (after : (control.stack rest).any (·.isExit m) = true) :
    control.puts.any (·.isExit m) = true ∨ rest.any (·.isExit m) = true := by
  cases control with
  | goto top | call top back => simpa [stack, puts, or_assoc] using after
  | reply value =>
    cases rest with
    | nil => simp [stack] at after
    | cons parent below =>
      refine .inr ?_
      have resumed : (parent.resume value).isExit m = true → parent.isExit m = true := by
        cases parent with
        | pausing p =>
          cases value with
          | failed => simp [Frame.resume, Frame.isExit, Frame.drivesAt]
          | _ => exact id
        | foreign f =>
          unfold Frame.resume
          dsimp only
          split <;> simp [Frame.isExit, Frame.drivesAt]
        | _ => cases value <;> simp [Frame.resume, Frame.isExit, Frame.drivesAt]
      simp only [stack, List.any_cons, Bool.or_eq_true] at after ⊢
      exact after.imp_left resumed
  | unwind message =>
    refine .inr ?_
    simp only [stack] at after
    induction rest with
    | nil => simp [Frame.unwind] at after
    | cons parent below ih =>
      rw [List.any_cons, Bool.or_eq_true]
      unfold Frame.unwind at after
      split at after
      · rename_i handler caught
        rw [List.any_cons, Bool.or_eq_true] at after
        refine .inr (after.resolve_left fun exits => ?_)
        cases parent <;> simp only [Frame.catch?] at caught
        all_goals first
          | (split at caught
             · obtain rfl := Option.some.inj caught
               simp [Frame.isExit, Frame.drivesAt] at exits
             · simp at caught)
          | simp at caught
      · exact .inr (ih after)

end Marks

/-- All threads are kept from what user code within their own pauses is kept from. -/
structure World.IsTethered (m : ManagerId) (w : World) : Prop where
  tended : w.Tended m
  laid : w.IsLaid
  tethered : ∀ thread, Tethered m (w.stack thread)
  marked : ∀ thread, (w.stack thread).any (·.isExit m) = true → (w.thread thread).inPause = true

namespace World.IsTethered

/-- User code within a pause of the thread's own is turned away by the manager. -/
theorem bars (reached : w.IsTethered m) (stack : w.stack self = frame :: rest)
    (engaged : Engaged m above p below rest)
    (out : p.acts = true ∨ above.any (·.isReentry) = false) :
    frame.isBarred m p.acts = true ∧ w.Bars m p.acts self := by
  have tethered := reached.tethered self
  have laid := reached.laid self
  have straight := reached.tended.straight self
  rw [stack] at tethered laid straight
  have barred : frame.isBarred m p.acts = true :=
    (tethered.1 engaged).resolve_right fun inside => by simp [inside] at out
  obtain ⟨rfl, manager, drives, user⟩ := engaged
  obtain ⟨holds, fresh⟩ :=
    tethered.2.holdOf laid.tail straight.tail manager drives user out
  have same : holdOf m (w.stack self) = holdOf m (above ++ .pausing p :: below) := by
    rw [stack, holdOf_cons, Frame.hold_of_isBarred barred]
  refine ⟨barred, (reached.tended.owner self).mpr (same ▸ holds), fun acts => ?_, fun acts => ?_⟩
  · refine reached.marked self ?_
    simp [stack, Frame.isExit, Frame.drivesAt, manager, of_decide_eq_true acts]
  · exact reached.tended.demands (same.trans (fresh acts))

/-- Nobody takes the mark down above a driver in the phases. -/
theorem unmarking (reached : w.IsTethered m) (stack : w.stack self = frame :: rest)
    (exits : rest.any (·.isExit m) = true) : frame.marks = false := by
  obtain ⟨top, mem, exit⟩ := List.any_eq_true.mp exits
  obtain ⟨p, rfl⟩ : ∃ p, top = .pausing p := by
    cases top <;> simp [Frame.isExit, Frame.drivesAt] at exit ⊢
  simp only [Frame.isExit, Frame.drivesAt, Bool.and_eq_true, decide_eq_true_eq] at exit
  obtain ⟨above, below, rfl⟩ := List.append_of_mem mem
  obtain ⟨manager, point⟩ := exit
  have drives : p.point.drives = true := by rw [point]; rfl
  have acts : p.acts = true := decide_eq_true point
  cases user : above.any (·.isScript) with
  | true =>
    have barred := (reached.bars stack ⟨rfl, manager, drives, user⟩ (.inl acts)).1
    rw [acts] at barred
    exact Frame.marks_of_isBarred barred
  | false =>
    refine Bool.eq_false_of_not_eq_true fun marks => ?_
    have laid := reached.laid self
    have straight := reached.tended.straight self
    rw [stack] at laid straight
    have bare : frame.isScript = false := by cases frame <;> first | rfl | simp [Frame.marks] at marks
    have guides : Guides p (frame :: above) :=
      Guides.of_laid laid straight drives (by simp [bare, user])
    cases guides with
    | leaf leaf => cases frame <;> simp_all [Frame.marks, Frame.isLeaf]
    | _ => simp [Frame.marks] at marks

theorem move {move : Move} (reached : w.IsTethered m)
    (solitary : ∀ thread, move = .run thread → Solitary m w thread)
    (moves : w.move move = some (v, notes)) : v.IsTethered m := by
  refine ⟨reached.tended.move (fun thread runs => (solitary thread runs).tame) moves,
    reached.laid.move moves, fun thread => ?_, fun thread exits => ?_⟩
  · by_cases own : move = .run thread
    · subst own
      obtain ⟨frame, rest, effect, stack, step, rfl, -⟩ := World.step_eq_some moves
      have tethered := stack ▸ reached.tethered thread
      have straight := stack ▸ reached.tended.straight thread
      rw [World.stack_setStack, if_pos rfl]
      refine tethered.step straight.2.1 (fun engaged op start => ?_)
        (fun engaged out => (reached.bars stack engaged out).2) step
      exact (solitary thread rfl).single (start ▸ stack) engaged
    · have tethered := reached.tethered thread
      obtain ⟨-, same | ⟨op, idle, told⟩ | ⟨frame, frame', rest, before, after, rouses⟩⟩ :=
        World.move_other moves own
      · exact same ▸ tethered
      · rw [told]
        exact ⟨fun engaged => .inl rfl, trivial⟩
      · rw [before] at tethered
        rw [after]
        exact ⟨fun _ => .inl (Frame.isBarred_rouse rouses), tethered.2⟩
  · by_cases own : move = .run thread
    · subst own
      obtain ⟨frame, rest, effect, stack, step, rfl, -⟩ := World.step_eq_some moves
      rw [World.stack_setStack, if_pos rfl] at exits
      rw [World.inPause_setStack]
      obtain mark | ⟨puts, keeps⟩ := Frame.guarded (m := m) step
      · exact mark
      -- the driver was there before, so that the frame of the step does not take its mark down
      have before : rest.any (·.isExit m) = true := by
        refine (effect.control.any_isExit exits).resolve_left fun put => ?_
        obtain ⟨top, mem, exit⟩ := List.any_eq_true.mp put
        simp [puts top mem] at exit
      obtain same | marks := keeps
      · exact same.trans (reached.marked thread (by simp [stack, before]))
      · simp [reached.unmarking stack before] at marks
    · obtain ⟨mark, stands⟩ := World.move_other moves own
      refine mark.trans (reached.marked thread ?_)
      obtain same | ⟨op, idle, told⟩ | ⟨frame, frame', rest, before, after, rouses⟩ := stands
      · exact same ▸ exits
      · simp [told, Frame.isExit, Frame.drivesAt] at exits
      · rw [after] at exits
        rw [before]
        cases rouses <;> simpa [Frame.isExit, Frame.drivesAt] using exits

end World.IsTethered

/-- User code within a pause of the thread's own leaves the barrier as it is, unless the step is part of
a safepoint check that a callback makes. -/
theorem World.IsTethered.keeps_out (reached : w.IsTethered m)
    (stack : w.stack self = frame :: rest) (engaged : Engaged m above p below rest)
    (out : p.acts = true ∨ (frame :: above).any (·.isReentry) = false)
    (step : w.step self = some (v, notes)) : (v.manager m).barrier = (w.manager m).barrier := by
  obtain ⟨frame', rest', effect, stack', advances, rfl, -⟩ := World.step_eq_some step
  obtain ⟨rfl, rfl⟩ := List.cons.inj (stack.symm.trans stack')
  rw [List.any_cons, Bool.or_eq_false_iff] at out
  obtain ⟨barred, bars⟩ := reached.bars stack engaged (out.imp_right (·.2))
  exact Frame.barrier_of_isBarred barred (out.imp_right (·.1)) bars advances

/-- A call of the manager from there is answered at once, unless it is a safepoint check of a callback. -/
theorem World.IsTethered.turns_away (reached : w.IsTethered m)
    (stack : w.stack self = frame :: rest) (engaged : Engaged m above p below rest)
    (out : p.acts = true ∨ (frame :: above).any (·.isReentry) = false)
    (calls : frame.isCaller p.acts = true) (step : w.step self = some (v, notes)) :
    ∃ value, v.stack self = (Control.reply value).stack rest := by
  obtain ⟨frame', rest', effect, stack', advances, rfl, -⟩ := World.step_eq_some step
  obtain ⟨rfl, rfl⟩ := List.cons.inj (stack.symm.trans stack')
  rw [List.any_cons, Bool.or_eq_false_iff] at out
  obtain ⟨barred, bars⟩ := reached.bars stack engaged (out.imp_right (·.2))
  obtain ⟨value, told, replies⟩ := Frame.turned_away barred bars calls
  obtain rfl := Option.some.inj (advances.symm.trans replies)
  exact ⟨value, by rw [World.stack_setStack, if_pos rfl]⟩

theorem World.IsFresh.isTethered (fresh : w.IsFresh m) : w.IsTethered m := by
  refine ⟨fresh.tended, fresh.isLaid, fun thread => ?_, fun thread => ?_⟩ <;> rw [fresh.idle]
  · trivial
  · simp

theorem Course.isTethered (course : Course (Solitary m) w moments v) (fresh : w.IsFresh m) :
    v.IsTethered m :=
  course.keeps (fun reached solitary moves => reached.move solitary moves) fresh.isTethered

theorem World.length_startOf_le (record : Option RecordId) :
    (w.startOf m thread record).length ≤ 1 := by
  cases record with
  | none => simp [startOf]
  | some record =>
    simp only [startOf]
    split <;> simp

/-- From the step that invalidates the epoch on, a thread starts at most one action before the driver
comes out of the phases. -/
theorem Course.startsOn_le_one {pause : Pause} (course : Course (Orderly m) w moments v)
    (coherent : w.Coherent m) (recounts : (w.scene m).Recounts m pause [])
    (on : (pause.driver, .finished m true) ∉ observations moments)
    (phase : (w.core m).phaser.phase = 3 * pause.number) :
    (startsOn m thread (observations moments)).length ≤ 1 := by
  have progress : (v.scene m).Progress m pause (told m moments) thread
      (pause.Chose m moments thread) :=
    course.progress coherent recounts on (recounts.start phase)
  rw [← startsOn_told]
  cases progress with
  | left gone starts noted => simp [starts]
  | waiting here starts yet late => simp [starts]
  | done ended chose =>
    obtain ⟨entry, moment, -, -, -, starts⟩ := chose
    rw [starts]
    exact World.length_startOf_le _

/-- While a thread drives a pause, no step of the user code that runs on it within the pause changes
the phaser, the registry, the epoch or the statistics, be it a step of a call of the same manager. Such
a call is answered at once, in the pause action whatever it is, and in a callback if it is none of the
safepoint checks, which the callback makes by a poll or on its way to leave: these are not kept out. In
a course where callbacks stay away from the manager, every thread starts the action of the pause at most
once. -/
theorem driver_kept_out (fresh : w.IsFresh m) (course : Course (Solitary m) w moments u) :
    (∀ pre moment post driver next frame rest above p below, moments = pre ++ moment :: post →
      moment.move = .run driver →
      moment.world.move moment.move = some (next, moment.notes) →
      moment.world.stack driver = frame :: rest → Engaged m above p below rest →
      p.acts = true ∨ (frame :: above).any (·.isReentry) = false →
      (next.manager m).barrier = (moment.world.manager m).barrier ∧
        (frame.isCaller p.acts = true →
          ∃ value, next.stack driver = (Control.reply value).stack rest)) ∧
    (Course (Orderly m) w moments u →
      ∀ pre first mid post driver k, moments = pre ++ first :: (mid ++ post) →
        (driver, .invalidated m k) ∈ first.observed →
        (driver, .finished m true) ∉ observations mid →
        ∀ thread, (startsOn m thread (observations mid)).length ≤ 1) := by
  constructor
  · intro pre moment post driver next frame rest above p below parts runs moves stack engaged out
    obtain ⟨_, before, -, -, -⟩ := course.split parts
    have reached := before.isTethered fresh
    rw [runs] at moves
    exact ⟨reached.keeps_out stack engaged out moves,
      fun calls => reached.turns_away stack engaged out calls moves⟩
  · intro orderly pre first mid post driver k parts begins within thread
    obtain ⟨_, before, steady, moves, after⟩ := orderly.split parts
    obtain ⟨runs, noted⟩ := Moment.mem_observed.mp begins
    rw [runs] at moves
    obtain ⟨coherent, phase, p, rest, -, -, -, recounts⟩ :=
      (before.coherent fresh.coherent).begins (steady driver runs) moves noted
    obtain ⟨_, during, -⟩ := after.cut rfl
    exact during.startsOn_le_one coherent recounts within phase

/-- Whether the thread takes a step of user code within a pause of its own, whose driver stands this far
below the step. -/
def Moment.isEngaged (m : ManagerId) (thread : ThreadId) (depth : Nat) (moment : Moment) : Bool :=
  moment.move.isOf thread &&
    match moment.world.stack thread with
    | [] => false
    | _ :: rest =>
      rest[depth]?.any (·.drivesAt m Pausing.Point.drives) && (rest.take depth).any (·.isScript)

theorem Moment.engaged_of_isEngaged {moment : Moment} {depth : Nat}
    (engaged : moment.isEngaged m thread depth = true) :
    moment.move = .run thread ∧ ∃ frame rest p, moment.world.stack thread = frame :: rest ∧
      rest[depth]? = some (.pausing p) ∧
      Engaged m (rest.take depth) p (rest.drop (depth + 1)) rest := by
  simp only [isEngaged, Bool.and_eq_true] at engaged
  obtain ⟨runs, engaged⟩ := engaged
  refine ⟨Move.isOf_iff.mp runs, ?_⟩
  split at engaged
  · simp at engaged
  · rename_i frame rest stack
    simp only [Bool.and_eq_true, Option.any_eq_true] at engaged
    obtain ⟨⟨driver, found, drives⟩, user⟩ := engaged
    cases driver with
    | pausing p =>
      simp only [Frame.drivesAt, Bool.and_eq_true, decide_eq_true_eq] at drives
      exact ⟨frame, rest, p, stack, found, eq_take_cons_drop found, drives.1, drives.2, user⟩
    | _ => simp [Frame.drivesAt] at drives

/-- The first of two threads drives a pause whose action pauses, polls and leaves. -/
def callingAction : List Move :=
  Move.repeated [
    (1, .submit 0 (.enter 0)), (14, .run 0), (1, .submit 1 (.enter 0)), (14, .run 1),
    (1, .submit 0 (.pauseWith 0 false [.pauseWith 0 false [], .pollFree 0, .leave 0])), (25, .run 0),
    (1, .submit 1 (.pollFree 0)), (9, .run 1), (20, .run 0)]

/-- The driver calls to leave in its action, which it starts once, and is turned away. -/
theorem driver_kept_out_callingAction : ∃ moments u, World.pair.IsFresh 0 ∧
    Course (Solitary 0) World.pair moments u ∧ Course (Orderly 0) World.pair moments u ∧
    (∃ pre moment post next frame rest above p below, moments = pre ++ moment :: post ∧
      moment.move = .run 0 ∧ moment.world.move moment.move = some (next, moment.notes) ∧
      moment.world.stack 0 = frame :: rest ∧ Engaged 0 above p below rest ∧ p.acts = true ∧
      frame.isCaller true = true ∧ (next.manager 0).barrier = (moment.world.manager 0).barrier ∧
      ∃ value, next.stack 0 = (Control.reply value).stack rest) ∧
    ∃ pre first mid post, moments = pre ++ first :: (mid ++ post) ∧
      (0, .invalidated 0 0) ∈ first.observed ∧ (0, .finished 0 true) ∉ observations mid ∧
      (startsOn 0 0 (observations mid)).length = 1 := by
  have made : (World.pair.follow (fun w thread => w.isSolitary 0 thread && w.isOrderly 0 thread)
      callingAction).any (fun made =>
        made.1[41]?.any (fun first => shows 0 (·.isInvalidation 0 0) first.observed) &&
        made.1[81]?.any (fun moment => moment.isEngaged 0 0 2 &&
          (moment.world.stack 0)[3]?.any (·.isExit 0) &&
          (moment.world.stack 0)[0]?.any (·.isCaller true)) &&
        !shows 0 (·.isFinish 0 true) (observations (made.1.drop 42)) &&
        !(startsOn 0 0 (observations (made.1.drop 42))).isEmpty) = true := by
    decide +kernel
  obtain ⟨⟨moments, u⟩, follows, state⟩ := (Option.any_eq_true _ _).mp made
  simp only [Bool.and_eq_true, Option.any_eq_true] at state
  obtain ⟨⟨⟨⟨first, found, invalidates⟩, moment, found', ⟨engaged, driver, below, exits⟩, top, above,
    calls⟩, within⟩, starts⟩ := state
  have solitary : Course (Solitary 0) World.pair moments u := World.course_of_follow
    (fun w thread check => w.solitary_of_isSolitary 0 thread (Bool.and_eq_true_iff.mp check).1) follows
  have orderly : Course (Orderly 0) World.pair moments u := World.course_of_follow
    (fun w thread check => w.orderly_of_isOrderly 0 thread (Bool.and_eq_true_iff.mp check).2) follows
  have on : (0, Note.finished 0 true) ∉ observations (moments.drop 42) := by
    intro mem
    simp [(shows_iff Note.isFinish_iff).mpr mem] at within
  have begun : (0, Note.invalidated 0 0) ∈ first.observed :=
    (shows_iff Note.isInvalidation_iff).mp invalidates
  have parts : moments = moments.take 41 ++ first :: (moments.drop 42 ++ []) := by
    rw [List.append_nil]
    exact eq_take_cons_drop found
  obtain ⟨runs, frame, rest, p, stack, stands, engaged⟩ := Moment.engaged_of_isEngaged engaged
  obtain ⟨next, -, -, moved, -⟩ := solitary.split (eq_take_cons_drop found')
  rw [stack] at below above
  obtain rfl : frame = top := by simpa using above
  obtain rfl : driver = .pausing p := Option.some.inj (below.symm.trans stands)
  have acts : p.acts = true := (Bool.and_eq_true_iff.mp exits).2
  obtain ⟨keeps, once⟩ := driver_kept_out World.pair_isFresh solitary
  refine ⟨moments, u, World.pair_isFresh, solitary, orderly,
    ⟨_, moment, _, next, frame, rest, _, p, _, eq_take_cons_drop found', runs, moved, stack, engaged,
      acts, calls, ?_⟩, ⟨_, first, _, _, parts, begun, on, ?_⟩⟩
  · exact (keeps _ moment _ 0 next frame rest _ p _ (eq_take_cons_drop found') runs moved stack engaged
      (.inl acts)).imp_right (· (acts ▸ calls))
  · refine le_antisymm (once orderly _ first _ _ 0 0 parts begun on 0) ?_
    rw [Nat.one_le_iff_ne_zero, ne_eq, List.length_eq_zero_iff]
    intro none
    simp [none] at starts

/-- The first of two threads drives a pause that wakes the second, with a callback that polls. The
second polls twice. -/
def pollingCallback : List Move :=
  Move.repeated [
    (1, .submit 0 (.enter 0)), (14, .run 0), (1, .submit 1 (.enter 0)), (14, .run 1),
    (1, .submit 1 (.blockOn none "b" [.pollFree 0])), (1, .run 1),
    (1, .submit 0 (.pauseWith 0 false [.log "a"])), (26, .run 0),
    (1, .submit 1 (.pollFree 0)), (9, .run 1), (10, .run 0), (15, .run 1), (17, .run 0),
    (1, .submit 1 (.pollFree 0)), (9, .run 1), (5, .run 0)]

/-- A poll that a callback makes takes the driver through the phases of its own pause, and the driver
starts the action a second time when it goes through them itself. -/
theorem driver_reenters_pollingCallback : ∃ moments u, World.pair.IsFresh 0 ∧
    Course (Solitary 0) World.pair moments u ∧
    (∃ pre moment post next frame rest above p below, moments = pre ++ moment :: post ∧
      moment.move = .run 0 ∧ moment.world.move moment.move = some (next, moment.notes) ∧
      moment.world.stack 0 = frame :: rest ∧ Engaged 0 above p below rest ∧
      (next.manager 0).barrier ≠ (moment.world.manager 0).barrier) ∧
    ∃ pre first mid, moments = pre ++ first :: mid ∧
      (0, .invalidated 0 0) ∈ first.observed ∧ (0, .finished 0 true) ∉ observations mid ∧
      (startsOn 0 0 (observations mid)).length = 2 := by
  have made : (World.pair.follow (World.isSolitary 0) pollingCallback).any (fun made =>
      made.1[43]?.any (fun first => shows 0 (·.isInvalidation 0 0) first.observed) &&
      made.1[58]?.any (fun moment => moment.isEngaged 0 0 5 &&
        (moment.world.move moment.move).any fun moved =>
          (moved.1.manager 0).barrier ≠ (moment.world.manager 0).barrier) &&
      !shows 0 (·.isFinish 0 true) (observations (made.1.drop 44)) &&
      (startsOn 0 0 (observations (made.1.drop 44))).length = 2) = true := by
    decide +kernel
  obtain ⟨⟨moments, u⟩, follows, state⟩ := (Option.any_eq_true _ _).mp made
  simp only [Bool.and_eq_true, Option.any_eq_true, decide_eq_true_eq] at state
  obtain ⟨⟨⟨⟨first, found, invalidates⟩, moment, found', engaged, moved, moves, changes⟩, within⟩,
    twice⟩ := state
  have course := World.course_of_follow (World.solitary_of_isSolitary 0) follows
  obtain ⟨runs, frame, rest, p, stack, -, engaged⟩ := Moment.engaged_of_isEngaged engaged
  obtain ⟨next, -, -, moves', -⟩ := course.split (eq_take_cons_drop found')
  obtain rfl := Option.some.inj (moves'.symm.trans moves)
  refine ⟨moments, u, World.pair_isFresh, course,
    ⟨_, moment, _, next, frame, rest, _, p, _, eq_take_cons_drop found', runs, moves', stack, engaged,
      changes⟩,
    ⟨_, first, _, eq_take_cons_drop found, (shows_iff Note.isInvalidation_iff).mp invalidates, ?_,
      twice⟩⟩
  intro mem
  simp [(shows_iff Note.isFinish_iff).mpr mem] at within

end

end StopTheWorld
