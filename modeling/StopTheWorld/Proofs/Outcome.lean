import StopTheWorld.Proofs.Footprint
import StopTheWorld.Proofs.PauseCall

namespace StopTheWorld

/-! A call has no outcome of the phases before it is out of them. -/

/-- If the frame is that of a call that is not out of the phases, no outcome is kept in it. -/
def Frame.IsWhole : Frame → Prop
  | polling p => p.point ≠ .exitPhases → p.outcome = none
  | pausing p => p.point.stage < 2 → p.outcome = none
  | _ => True

def Control.IsWhole : Control → Prop
  | goto frame => frame.IsWhole
  | call child back => child.IsWhole ∧ back.IsWhole
  | _ => True

/-- No call has an outcome of phases that it is not out of. -/
def World.IsWhole (w : World) : Prop := ∀ thread, ∀ frame ∈ w.stack thread, frame.IsWhole

section

variable {m : ManagerId} {w v : World} {self : ThreadId} {frame parent : Frame}
  {rest : List Frame} {effect : Effect} {moments : List Moment}

theorem Op.whole {op : Op} (step : op.advance self w = some effect) : effect.control.IsWhole := by
  cases op with
  | access a =>
    obtain ⟨-, -, ⟨value, control⟩ | ⟨message, control⟩⟩ := Access.agrees (m := 0) step <;>
      exact control ▸ trivial
  | release n =>
    obtain ⟨_, -, replies⟩ := Option.bind_eq_some_iff.mp step
    obtain rfl := Option.some.inj replies
    trivial
  | deferLookup | unlock =>
    simp only [advance] at step
    split at step <;> obtain rfl := Option.some.inj step <;> trivial
  | _ =>
    obtain rfl := Option.some.inj step
    first
      | trivial
      | exact ⟨trivial, trivial⟩
      | exact fun _ => rfl

theorem Frame.whole (whole : frame.IsWhole) (step : frame.advance self w = some effect) :
    effect.control.IsWhole := by
  cases frame with
  | start op => exact Op.whole step
  | polling p =>
    have none (point : p.point ≠ .exitPhases) : p.outcome = none := whole point
    simp only [advance, Polling.advance] at step
    repeat' split at step
    all_goals first
      | (obtain rfl := Option.some.inj step
         simp_all [Control.IsWhole, IsWhole])
      | (obtain ⟨_, -, goes⟩ := Option.bind_eq_some_iff.mp step
         obtain rfl := Option.some.inj goes
         simp_all [Control.IsWhole, IsWhole])
  | pausing p =>
    have none (early : p.point.stage < 2) : p.outcome = none := whole early
    simp only [advance, Pausing.advance] at step
    repeat' split at step
    all_goals first
      | (obtain rfl := Option.some.inj step
         simp_all [Control.IsWhole, IsWhole, Pausing.Point.stage])
      | (obtain ⟨_, -, goes⟩ := Option.bind_eq_some_iff.mp step
         obtain rfl := Option.some.inj goes
         simp_all [Control.IsWhole, IsWhole, Pausing.Point.stage])
  | _ =>
    simp only [advance, Acquisition.advance, Acquisition.took, Acquisition.gaveUp, Release.advance,
      OwnedLock.advanceNotify, Arrival.advance, Sleeping.advance, Parking.advance,
      Interruption.advance, Enrolment.advance, Withdrawal.advance, Visit.advance, Script.advance,
      Sequence.advance, Drain.advance, Phases.advance, Resuming.advance, Entering.advance,
      Leaving.advance, Foreign.advance, Acquiring.advance, Blocking.advance, Trial.advance] at step
    repeat' split at step
    all_goals first
      | (obtain rfl := Option.some.inj step
         first
           | trivial
           | exact ⟨trivial, trivial⟩
           | exact ⟨fun _ => rfl, trivial⟩)
      | (obtain ⟨_, -, goes⟩ := Option.bind_eq_some_iff.mp step
         obtain rfl := Option.some.inj goes
         trivial)
      | simp at step

/-- Only the phases of a call reply that an action has unwound. -/
theorem Frame.Awaits.unwound {message : String} (awaits : parent.Awaits m frame rest)
    (step : frame.advance self w = some effect) (unwound : effect.control = .reply (.unwound message)) :
    (∀ p, parent = .polling p → p.point = .exitPhases) ∧
      ∀ p, parent = .pausing p → p.point = .exitPhases := by
  constructor
  · rintro p rfl
    cases frame with
    | phases q => exact awaits.1
    | _ => exact awaits.elim
  · rintro p rfl
    cases frame with
    | phases q => exact awaits.1
    | polling | resuming | acquisition | notify | visit | release =>
      simp only [advance, Acquisition.advance, Acquisition.took, Acquisition.gaveUp,
        Release.advance, OwnedLock.advanceNotify, Visit.advance, Resuming.advance,
        Polling.advance] at step
      repeat' split at step
      all_goals first
        | (obtain rfl := Option.some.inj step
           simp at unwound)
        | (obtain ⟨_, -, goes⟩ := Option.bind_eq_some_iff.mp step
           obtain rfl := Option.some.inj goes
           simp at unwound)
        | simp at step
    | _ => exact awaits.elim

theorem Frame.whole_resume {value : Reply} (whole : parent.IsWhole)
    (awaits : parent.Awaits m frame rest) (step : frame.advance self w = some effect)
    (replies : effect.control = .reply value) : (parent.resume value).IsWhole := by
  cases parent with
  | foreign f =>
    unfold resume
    dsimp only
    split <;> trivial
  | polling p =>
    cases value with
    | unwound message =>
      exact fun before => absurd ((awaits.unwound step replies).1 p rfl) before
    | _ => exact whole
  | pausing p =>
    cases value with
    | unwound message =>
      intro early
      have exit := (awaits.unwound step replies).2 p rfl
      rw [show p.point = .exitPhases from exit] at early
      simp [Pausing.Point.stage] at early
    | failed failure =>
      intro _
      by_cases begun : p.point.stage ≠ 0
      · exact absurd replies (awaits.not_failed begun step failure)
      · exact whole (by omega)
    | _ => exact whole
  | _ => cases value <;> trivial

theorem Frame.whole_unwind {message : String} (whole : ∀ frame ∈ rest, frame.IsWhole) :
    ∀ frame ∈ Frame.unwind message rest, frame.IsWhole := by
  induction rest with
  | nil => exact whole
  | cons parent below ih =>
    obtain ⟨-, beneath⟩ := List.forall_mem_cons.mp whole
    unfold Frame.unwind
    split
    · rename_i handler caught
      refine List.forall_mem_cons.mpr ⟨?_, beneath⟩
      unfold Frame.catch? at caught
      repeat' split at caught
      all_goals first
        | (obtain rfl := Option.some.inj caught
           first | trivial | simp [IsWhole, Pausing.Point.stage])
        | simp at caught
    · exact ih beneath

theorem World.IsWhole.move {move : Move} {notes : List Note} (whole : w.IsWhole)
    (coherent : w.Coherent m) (moves : w.move move = some (v, notes)) : v.IsWhole := by
  intro thread
  have frames := whole thread
  by_cases runs : move = .run thread
  · subst runs
    have sound := coherent.sound thread
    obtain ⟨frame, rest, effect, stack, step, rfl, -⟩ := World.step_eq_some moves
    rw [stack] at frames sound
    rw [World.stack_setStack, if_pos rfl]
    obtain ⟨here, beneath⟩ := List.forall_mem_cons.mp frames
    have after := Frame.whole here step
    cases control : effect.control with
    | goto frame' =>
      rw [control] at after
      exact List.forall_mem_cons.mpr ⟨after, beneath⟩
    | call child back =>
      rw [control] at after
      exact List.forall_mem_cons.mpr ⟨after.1, List.forall_mem_cons.mpr ⟨after.2, beneath⟩⟩
    | reply value =>
      cases rest with
      | nil => exact beneath
      | cons parent below =>
        obtain ⟨parents, under⟩ := List.forall_mem_cons.mp beneath
        exact List.forall_mem_cons.mpr ⟨Frame.whole_resume parents sound.2.1 step control, under⟩
    | unwind message => exact Frame.whole_unwind beneath
  · obtain ⟨-, same | ⟨op, -, told⟩ | ⟨frame, frame', rest, before, after, rouses⟩⟩ :=
      World.move_other moves runs
    · exact same ▸ frames
    · rw [told]
      simp [Frame.IsWhole]
    · rw [before] at frames
      rw [after]
      refine List.forall_mem_cons.mpr ⟨?_, (List.forall_mem_cons.mp frames).2⟩
      cases rouses <;> trivial

theorem Course.isWhole (course : Course (Orderly m) w moments v) (coherent : w.Coherent m)
    (whole : w.IsWhole) : v.IsWhole := by
  induction course with
  | nil => exact whole
  | snoc before orderly moves ih => exact ih.move (before.coherent coherent) moves

theorem World.IsFresh.isWhole (fresh : w.IsFresh m) : w.IsWhole :=
  fun thread => by simp [fresh.idle]

end

end StopTheWorld
