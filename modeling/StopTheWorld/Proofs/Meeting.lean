import StopTheWorld.Proofs.Footprint
import StopTheWorld.Proofs.Whereabouts

namespace StopTheWorld

/-! A thread that is in the phases of a pause has joined it, by the call that the phases stand on. -/

/-- The thread is in the phases of a pause that it joined by the call on top of `below`. -/
inductive Meeting (below : List Frame) : List Frame → Prop
  | here (q : Phases) : Meeting below (.phases q :: below)
  | above (frame : Frame) {rest : List Frame} (meeting : Meeting below rest) :
      Meeting below (frame :: rest)

/-- What the control puts on a stack has no part in the phases. -/
def Control.isApart : Control → Bool
  | goto frame => !frame.isPhases
  | call child back => !child.isPhases && !back.isPhases
  | reply _ | unwind _ => true

section

variable {m : ManagerId} {w v : World} {self thread : ThreadId} {frame parent back : Frame}
  {rest below base : List Frame} {effect : Effect} {control : Control} {moments : List Moment}
  {custom : World → ThreadId → Prop}

/-- A step goes into the phases, or on in them, or has no part in them. -/
theorem Frame.phasing (step : frame.advance self w = some effect) :
    effect.control.isApart = true ∨ frame.isPhases = true ∨ ∃ q back,
      effect.control = .call (.phases q) back ∧ back.isPhases = false ∧
        effect.notes = [.joined q.manager q.drives] := by
  cases frame with
  | phases => exact .inr (.inl rfl)
  | start op =>
    left
    cases op with
    | access a =>
      obtain ⟨-, -, ⟨value, control⟩ | ⟨message, control⟩⟩ := Access.agrees (m := 0) step <;>
        exact control ▸ rfl
    | release n =>
      obtain ⟨_, -, replies⟩ := Option.bind_eq_some_iff.mp step
      obtain rfl := Option.some.inj replies
      rfl
    | deferLookup | unlock =>
      simp only [advance, Op.advance] at step
      split at step <;> obtain rfl := Option.some.inj step <;> rfl
    | _ =>
      obtain rfl := Option.some.inj step
      rfl
  | _ =>
    simp only [advance, Acquisition.advance, Acquisition.took, Acquisition.gaveUp, Release.advance,
      OwnedLock.advanceNotify, Arrival.advance, Sleeping.advance, Parking.advance,
      Interruption.advance, Enrolment.advance, Withdrawal.advance, Visit.advance, Script.advance,
      Sequence.advance, Drain.advance, Resuming.advance, Polling.advance, Entering.advance,
      Leaving.advance, Pausing.advance, Foreign.advance, Acquiring.advance, Blocking.advance,
      Trial.advance] at step
    repeat' split at step
    all_goals first
      | (obtain rfl := Option.some.inj step
         first
           | exact .inl rfl
           | exact .inr (.inr ⟨_, _, rfl, rfl, rfl⟩))
      | (obtain ⟨_, -, goes⟩ := Option.bind_eq_some_iff.mp step
         obtain rfl := Option.some.inj goes
         exact .inl rfl)
      | simp at step

namespace Meeting

theorem of_cons (meeting : Meeting below (frame :: rest)) (plain : frame.isPhases = false) :
    Meeting below rest := by
  cases meeting with
  | here => simp [Frame.isPhases] at plain
  | above _ meeting => exact meeting

theorem isPhases (meeting : Meeting below rest) : rest.any (·.isPhases) = true := by
  induction meeting with
  | here => rfl
  | above frame _ ih => rw [List.any_cons, ih, Bool.or_true]

theorem length_lt (meeting : Meeting below rest) : below.length < rest.length := by
  induction meeting with
  | here => exact Nat.lt_succ_self _
  | above _ _ ih => exact Nat.lt_succ_of_lt ih

theorem isPhases_resume (frame : Frame) (value : Reply) :
    (frame.resume value).isPhases = frame.isPhases := by
  cases frame with
  | foreign f =>
    unfold Frame.resume
    dsimp only
    split <;> rfl
  | _ => cases value <;> rfl

theorem isPhases_catch {message : String} {handler : Frame}
    (caught : frame.catch? message = some handler) : handler.isPhases = frame.isPhases := by
  unfold Frame.catch? at caught
  repeat' split at caught
  all_goals first
    | (obtain rfl := Option.some.inj caught
       rfl)
    | simp at caught

theorem exchange (meeting : Meeting below (parent :: rest))
    (same : parent.isPhases = frame.isPhases) : Meeting below (frame :: rest) := by
  cases meeting with
  | here =>
    cases frame with
    | phases q => exact .here q
    | _ => simp [Frame.isPhases] at same
  | above _ meeting => exact .above frame meeting

theorem of_unwind {message : String} (meeting : Meeting below (Frame.unwind message rest)) :
    Meeting below rest := by
  induction rest with
  | nil => exact meeting
  | cons parent tail ih =>
    unfold Frame.unwind at meeting
    split at meeting
    · rename_i handler caught
      exact meeting.exchange (isPhases_catch caught)
    · exact .above parent (ih meeting)

theorem of_stack (meeting : Meeting below (control.stack rest)) (apart : control.isApart = true) :
    Meeting below rest := by
  cases control with
  | goto top => exact meeting.of_cons (by simpa [Control.isApart] using apart)
  | call child back =>
    have apart : child.isPhases = false ∧ back.isPhases = false := by
      simpa [Control.isApart] using apart
    exact (meeting.of_cons apart.1).of_cons apart.2
  | reply value =>
    cases rest with
    | nil => exact meeting
    | cons parent tail => exact meeting.exchange (isPhases_resume parent value)
  | unwind message => exact meeting.of_unwind

/-- Whoever is in the phases after a step was in them before, or goes into them by the step. -/
theorem of_step (step : frame.advance self w = some effect)
    (meeting : Meeting below (effect.control.stack rest)) :
    Meeting below (frame :: rest) ∨ ∃ q back, below = back :: rest ∧
      effect.control = .call (.phases q) back ∧ effect.notes = [.joined q.manager q.drives] := by
  obtain apart | phases | ⟨q, back, control, plain, notes⟩ := Frame.phasing step
  · exact .inl (.above frame (meeting.of_stack apart))
  · left
    cases frame with
    | phases p =>
      simp only [Frame.advance, Phases.advance] at step
      repeat' split at step
      all_goals
        obtain rfl := Option.some.inj step
        first
          | exact meeting.exchange rfl
          | exact (meeting.of_cons rfl).exchange rfl
          | exact .above _ (meeting.of_stack rfl)
    | _ => simp [Frame.isPhases] at phases
  · rw [control] at meeting
    cases meeting with
    | here => exact .inr ⟨q, back, rfl, control, notes⟩
    | above _ meeting => exact .inl (.above frame (meeting.of_cons plain))

theorem of_append (above : List Frame) (q : Phases) (below : List Frame) :
    Meeting below (above ++ .phases q :: below) := by
  induction above with
  | nil => exact .here q
  | cons frame above ih => exact .above frame ih

end Meeting

theorem World.Coherent.meeting (coherent : w.Coherent m)
    (meets : (w.posture m thread).meets = true) : ∃ below, Meeting below (w.stack thread) := by
  have sound := coherent.sound thread
  unfold World.posture at meets
  cases place : StopTheWorld.posture m (w.stack thread) with
  | meeting leads point arrival =>
    obtain ⟨above, p, below, stack, -⟩ := sound.meeting place
    exact ⟨below, stack ▸ .of_append above p below⟩
  | _ => simp [place, Posture.meets] at meets

/-- Whoever is in the phases has joined the pause at some moment, and has been in the phases since. -/
theorem Course.joined (course : Course custom w moments v) (idle : w.stack thread = [])
    (meeting : Meeting below (v.stack thread)) :
    ∃ early first mid joiner back base q next, moments = early ++ first :: mid ∧
      (thread, .joined q.manager q.drives) ∈ first.observed ∧
      first.world.stack thread = joiner :: base ∧ below = back :: base ∧
      first.world.move first.move = some (next, first.notes) ∧
      next.stack thread = .phases q :: below ∧
      ∀ moment ∈ mid, Meeting below (moment.world.stack thread) := by
  induction course with
  | nil =>
    rw [idle] at meeting
    cases meeting
  | @snoc moments v u move notes before allowed moves ih =>
    have since (earlier : Meeting below (v.stack thread)) :
        ∃ early first mid joiner back base q next,
          moments ++ [⟨v, move, notes⟩] = early ++ first :: mid ∧
          (thread, .joined q.manager q.drives) ∈ first.observed ∧
          first.world.stack thread = joiner :: base ∧ below = back :: base ∧
          first.world.move first.move = some (next, first.notes) ∧
          next.stack thread = .phases q :: below ∧
          ∀ moment ∈ mid, Meeting below (moment.world.stack thread) := by
      obtain ⟨early, first, mid, joiner, back, base, q, next, rfl, joins, stack, parts, moved, on,
        within⟩ := ih earlier
      refine ⟨early, first, mid ++ [⟨v, move, notes⟩], joiner, back, base, q, next, by simp, joins,
        stack, parts, moved, on, fun moment mem => ?_⟩
      obtain mem | last := List.mem_append.mp mem
      · exact within moment mem
      · obtain rfl := List.mem_singleton.mp last
        exact earlier
    by_cases runs : move = .run thread
    · subst runs
      obtain ⟨frame, rest, effect, stack, step, rfl, rfl⟩ := World.step_eq_some moves
      rw [World.stack_setStack, if_pos rfl] at meeting
      obtain earlier | ⟨q, back, rfl, control, noted⟩ := Meeting.of_step step meeting
      · exact since (stack ▸ earlier)
      · refine ⟨moments, _, [], frame, back, rest, q, _, rfl, ?_, stack, rfl, moves, ?_, by simp⟩
        · simp [noted]
        · rw [World.stack_setStack, if_pos rfl, control]
          rfl
    · obtain ⟨-, same | ⟨op, none, told⟩ | ⟨frame, frame', rest, earlier, later, rouses⟩⟩ :=
        World.move_other moves runs
      · exact since (same ▸ meeting)
      · rw [told] at meeting
        obtain _ | ⟨_, none⟩ := meeting
        cases none
      · rw [later] at meeting
        rw [earlier] at since
        exact since (meeting.exchange (by cases rouses <;> rfl))

/-- Whoever is registered in the third phase of a pause is in the phases of it. -/
theorem World.Coherent.meets_of_third {entry : Registration} (coherent : w.Coherent m)
    (third : (w.core m).phaser.phase % 3 = 2)
    (found : (w.manager m).registry.get? thread = some entry) :
    (w.posture m thread).meets = true := by
  refine Bool.eq_true_of_not_eq_false fun absent => ?_
  have registered : thread ∈ (w.core m).identities :=
    Core.lookup_isSome.mp (Option.isSome_of_mem found)
  have early : (w.core m).phaser.phase = 3 * (w.core m).pauses ∨
      (w.core m).phaser.phase = 3 * (w.core m).pauses + 3 :=
    (coherent.lawful.admits thread).absent (.inl registered) absent
  omega

/-- The call below the phases counts on the record that they run the action with. -/
theorem Sound.bond_eq {q : Phases} (sound : Sound m self (.phases q :: back :: base)) :
    back.bond? = some q.record := by
  obtain ⟨p, below, parts, exit, -, same⟩ | ⟨p, below, parts, exit, -, same⟩ := sound.below_phases <;>
    obtain ⟨rfl, rfl⟩ := List.cons.inj parts <;>
    simp [Frame.bond?, exit, same, Polling.Point.relies, Pausing.Point.relies]

theorem World.Coherent.bond_eq {entry : Registration} (coherent : w.Coherent m)
    (meeting : Meeting (back :: base) (w.stack thread))
    (found : (w.manager m).registry.get? thread = some entry) : back.bond? = some entry.record := by
  have sound := coherent.sound thread
  have bonded := coherent.bonded thread
  generalize w.stack thread = stack at meeting sound bonded
  induction meeting with
  | above frame _ ih => exact ih sound.tail fun record mem => bonded record (by simp [mem])
  | here q =>
    have bond := sound.bond_eq
    obtain ⟨other, found', record⟩ := bonded q.record (by simp [bond])
    obtain rfl := Option.some.inj (found.symm.trans found')
    exact record ▸ bond

end

end StopTheWorld
