import StopTheWorld.Proofs.Records

namespace StopTheWorld

/-! Every thread registers, takes part in pauses and drains queues with records of its own, with however
many managers and whatever user code does, as long as only threads run that have a record. -/

/-- The step is one of a thread for which a record has been made. -/
def Recorded (w : World) (thread : ThreadId) : Prop := w.Owns (w.recordOf thread) thread

/-- Decides whether a record has been made for the thread. -/
def World.isRecorded (w : World) (thread : ThreadId) : Bool :=
  w.recordOf thread < w.nextRecord && (w.record (w.recordOf thread)).thread = thread

/-- With every manager, every thread is registered and takes part in pauses with a record of its own,
and no thread is about to register another. -/
structure World.IsPossessed (w : World) : Prop where
  owned : ∀ m, w.IsOwned m
  enrols : ∀ m thread, w.isAt (·.enrolsOther m thread) thread = false

section

variable {m : ManagerId} {w v : World} {self thread : ThreadId} {frame : Frame} {rest : List Frame}
  {effect : Effect} {notes : List Note} {moments : List Moment} {custom : World → ThreadId → Prop}

theorem World.recorded_of_isRecorded (w : World) (thread : ThreadId)
    (recorded : w.isRecorded thread = true) : Recorded w thread := by
  simp only [isRecorded, Bool.and_eq_true, decide_eq_true_eq] at recorded
  exact ⟨recorded.1, recorded.2⟩

theorem Frame.isLeaf_of_enrolsOther (enrols : frame.enrolsOther m self = true) :
    frame.isLeaf = true := by
  cases frame <;> first | rfl | simp [enrolsOther] at enrols

/-- Only a thread that registers itself comes to add an entry to the registry of a manager. -/
theorem Frame.enters_enrolsOther (own : frame.enrolsOther m self = false)
    (step : frame.advance self w = some effect) :
    effect.control.enters (·.enrolsOther m self) = false := by
  cases frame with
  | start op =>
    cases op with
    | access a =>
      obtain ⟨-, -, ⟨value, control⟩ | ⟨message, control⟩⟩ := Access.agrees (m := 0) step <;>
        exact control ▸ rfl
    | release n =>
      obtain ⟨_, -, replies⟩ := Option.bind_eq_some_iff.mp step
      obtain rfl := Option.some.inj replies
      rfl
    | deferLookup | unlock =>
      simp only [advance, Op.advance] at step
      split at step <;> obtain rfl := Option.some.inj step <;> rfl
    | _ =>
      obtain rfl := Option.some.inj step
      rfl
  | enrolment x =>
    simp only [advance, Enrolment.advance] at step
    repeat' split at step
    all_goals first
      | (obtain rfl := Option.some.inj step
         first
           | rfl
           | exact own)
      | simp at step
  | _ =>
    simp only [advance, Acquisition.advance, Acquisition.took, Acquisition.gaveUp, Release.advance,
      OwnedLock.advanceNotify, Arrival.advance, Sleeping.advance, Parking.advance,
      Interruption.advance, Withdrawal.advance, Visit.advance, Script.advance, Sequence.advance,
      Drain.advance, Phases.advance, Resuming.advance, Polling.advance, Entering.advance,
      Leaving.advance, Pausing.advance, Foreign.advance, Acquiring.advance, Blocking.advance,
      Trial.advance] at step
    repeat' split at step
    all_goals first
      | (obtain rfl := Option.some.inj step
         first
           | rfl
           | simp [Control.enters, Control.top?, enrolsOther])
      | (obtain ⟨_, -, goes⟩ := Option.bind_eq_some_iff.mp step
         obtain rfl := Option.some.inj goes
         rfl)
      | simp at step

namespace World.IsPossessed

theorem move {move : Move} (possessed : w.IsPossessed) (laid : w.IsLaid)
    (recorded : ∀ thread, move = .run thread → Recorded w thread)
    (moves : w.move move = some (v, notes)) : v.IsPossessed := by
  refine ⟨fun m => ?_, fun m thread => ?_⟩
  · by_cases runs : ∃ self, move = .run self
    · obtain ⟨self, rfl⟩ := runs
      refine (possessed.owned m).step_of_own (recorded self rfl) (fun _ _ lookup => ?_)
        (possessed.enrols m self) moves
      have mine := (possessed.owned _).members _ (List.mem_of_find?_eq_some lookup)
      rwa [Registry.get?_identity lookup] at mine
    · exact (possessed.owned m).idle (fun thread same => runs ⟨thread, same⟩) moves
  · have before := possessed.enrols m thread
    by_cases own : move = .run thread
    · subst own
      obtain ⟨frame, rest, effect, stack, step, rfl, -⟩ := World.step_eq_some moves
      have here : frame.enrolsOther m thread = false := by
        simpa [World.isAt, stack] using before
      rw [World.isAt_step Frame.isLeaf_of_enrolsOther (stack ▸ laid thread) step, if_pos rfl]
      exact Frame.enters_enrolsOther here step
    · rw [World.isAt_other (fun _ => rfl) (fun rouses => by cases rouses <;> rfl) moves own]
      exact before

end World.IsPossessed

theorem World.isPossessed_of_isFresh (fresh : ∀ m, w.IsFresh m) : w.IsPossessed :=
  ⟨fun m => (fresh m).isOwned, fun _ thread => World.isAt_nil ((fresh 0).idle thread)⟩

/-- In a course of threads that have records, all of them use their own. -/
theorem Course.isPossessed (course : Course Recorded w moments v) (laid : w.IsLaid)
    (possessed : w.IsPossessed) : v.IsPossessed := by
  induction course with
  | nil => exact possessed
  | snoc before recorded moves ih => exact ih.move (before.isLaid laid) recorded moves

end

end StopTheWorld
