import StopTheWorld.Proofs.Coherent

namespace StopTheWorld

/-! What a move leaves of the threads as it was, in any world and whatever user code does. -/

/-- Two worlds in which the threads stand at the same points and under the same marks. -/
structure World.Spares (w v : World) : Prop where
  stack : ∀ thread, v.stack thread = w.stack thread
  inPause : ∀ thread, (v.thread thread).inPause = (w.thread thread).inPause

/-- Whether the note tells of something that only the calls of a manager lead to. -/
def Note.isManaged : Note → Bool
  | action _ _ _ | deferred _ _ _ | slowPoll _ | joined _ _ | finished _ _ | invalidated _ _
  | republished _ _ | drained _ _ => true
  | _ => false

/-- Whether the note tells that a mark was set or taken down. -/
def Note.isMarking : Note → Bool
  | joined _ _ | finished _ _ => true
  | _ => false

/-- What a step makes of the marks. -/
inductive Effect.Marking (self : ThreadId) (w : World) (effect : Effect) : Prop
  | keeps (spares : w.Spares effect.world) (quiet : ∀ note ∈ effect.notes, note.isMarking = false)
  | joins {m : ManagerId} {drives : Bool} {p : Phases} {back : Frame}
      (world : effect.world = w.setInPause self true) (notes : effect.notes = [.joined m drives])
      (control : effect.control = .call (.phases p) back) (marks : back.marks = true)
  | finishes {m : ManagerId} {drives : Bool} (world : effect.world = w.setInPause self false)
      (notes : effect.notes = [.finished m drives])

/-- What becomes of a waiting frame that is woken without a reason. -/
inductive Frame.Rouses : Frame → Frame → Prop
  | parking : Rouses (.parking .parked) (.parking .recheck)
  | sleeping (s : Sleeping) : Rouses (.sleeping s) (.sleeping { s with point := .check })

section

variable {w v : World} {self thread : ThreadId} {frame : Frame} {effect : Effect}

@[simp] theorem World.stack_modifyInterrupter (w : World) (target thread : ThreadId)
    (f : Interrupter Wake → Interrupter Wake) :
    (w.modifyInterrupter target f).stack thread = w.stack thread :=
  (World.Agrees.modifyInterrupter (m := 0) w target f).stack thread

@[simp] theorem World.inPause_modifyInterrupter (w : World) (target thread : ThreadId)
    (f : Interrupter Wake → Interrupter Wake) :
    ((w.modifyInterrupter target f).thread thread).inPause = (w.thread thread).inPause :=
  (World.Agrees.modifyInterrupter (m := 0) w target f).inPause thread

@[simp] theorem World.stack_modifyRecord (w : World) (record : RecordId)
    (f : Record Deferred → Record Deferred) (thread : ThreadId) :
    (w.modifyRecord record f).stack thread = w.stack thread := rfl

@[simp] theorem World.stack_publish (w : World) (m : ManagerId) (event : Event)
    (thread : ThreadId) : (w.publish m event).stack thread = w.stack thread := rfl

@[simp] theorem World.thread_publish (w : World) (m : ManagerId) (event : Event)
    (thread : ThreadId) : (w.publish m event).thread thread = w.thread thread := rfl

/-- A step that goes on once the thread has given a global lock up. -/
theorem World.leaves_of_bind {lock : GlobalId} {control : Control}
    (step : (w.leaveGlobal lock self).bind (fun (v, notes) => some ⟨v, control, notes⟩) =
      some effect) :
    ∃ v notes, w.leaveGlobal lock self = some (v, notes) ∧ effect = ⟨v, control, notes⟩ := by
  obtain ⟨⟨v, notes⟩, leaves, gone⟩ := Option.bind_eq_some_iff.mp step
  exact ⟨v, notes, leaves, (Option.some.inj gone).symm⟩

namespace World.Spares

theorem refl (w : World) : w.Spares w := ⟨fun _ => rfl, fun _ => rfl⟩

theorem of_agrees {m : ManagerId} (agrees : w.Agrees m v) : w.Spares v :=
  ⟨agrees.stack, agrees.inPause⟩

theorem leaveGlobal {lock : GlobalId} {owner : ThreadId} {notes : List Note}
    (leaves : w.leaveGlobal lock owner = some (v, notes)) :
    w.Spares v ∧ ∀ note ∈ notes, note.isManaged = false := by
  refine ⟨of_agrees (m := 0) (World.Agrees.leaveGlobal leaves).1, ?_⟩
  simp only [World.leaveGlobal] at leaves
  split at leaves
  · obtain ⟨-, rfl⟩ := Prod.mk.inj (Option.some.inj leaves)
    split <;> simp [Note.isManaged]
  · simp at leaves

theorem checkInterrupt {reply : Reply} (checks : w.checkInterrupt thread = (v, reply)) :
    w.Spares v := by
  have agrees : w.Agrees 0 (w.checkInterrupt thread).1 := .checkInterrupt w thread
  rw [checks] at agrees
  exact of_agrees agrees

theorem depart {phaser : PhaserRef} {phase : Nat} {notes : List Note}
    (departs : w.depart phaser = .ok (v, phase, notes)) :
    w.Spares v ∧ ∀ note ∈ notes, note.isManaged = false := by
  unfold World.depart at departs
  dsimp only at departs
  split at departs
  · simp at departs
  · simp only [Except.ok.injEq, Prod.mk.injEq] at departs
    obtain ⟨rfl, -, rfl⟩ := departs
    refine ⟨⟨by simp, by simp⟩, ?_⟩
    split <;> simp [Note.isManaged]

end World.Spares

theorem Note.isMarking_of_plain {note : Note} (plain : note.isManaged = false) :
    note.isMarking = false := by
  cases note <;> first | rfl | simp [isManaged] at plain

theorem Access.plain {m : ManagerId} {access : Access}
    (step : access.advance self w = some effect) :
    w.Agrees m effect.world ∧ ∀ note ∈ effect.notes, note.isManaged = false := by
  refine ⟨(Access.agrees step).1, ?_⟩
  cases access with
  | globalLeave lock owner =>
    obtain ⟨⟨v, notes⟩, leaves, replies⟩ := Option.bind_eq_some_iff.mp step
    obtain rfl := Option.some.inj replies
    exact (World.Spares.leaveGlobal leaves).2
  | phaserDepart phaser =>
    simp only [advance] at step
    split at step <;> obtain rfl := Option.some.inj step
    · simp
    · exact (World.Spares.depart ‹_›).2
  | globalTryEnter | unblock =>
    simp only [advance] at step
    repeat' split at step
    all_goals first
      | (obtain rfl := Option.some.inj step
         simp [Note.isManaged])
      | simp at step
  | _ =>
    obtain rfl := Option.some.inj step
    simp [Note.isManaged]

/-- The first step of an operation has nothing to do with pauses. -/
theorem Op.plain {m : ManagerId} {op : Op} (step : op.advance self w = some effect) :
    w.Agrees m effect.world ∧ ∀ note ∈ effect.notes, note.isManaged = false := by
  cases op with
  | access a => exact Access.plain step
  | release m =>
    obtain ⟨⟨v, notes⟩, leaves, replies⟩ := Option.bind_eq_some_iff.mp step
    obtain rfl := Option.some.inj replies
    exact ⟨(World.Agrees.leaveGlobal leaves).1, (World.Spares.leaveGlobal leaves).2⟩
  | blockOn thread tag script =>
    obtain rfl := Option.some.inj step
    exact ⟨.blockOn w _ tag script, by simp⟩
  | deferLookup | unlock =>
    simp only [advance] at step
    split at step <;> obtain rfl := Option.some.inj step <;>
      exact ⟨⟨rfl, fun _ => rfl, fun _ => rfl⟩, by simp [Note.isManaged]⟩
  | _ =>
    obtain rfl := Option.some.inj step
    exact ⟨⟨rfl, fun _ => rfl, fun _ => rfl⟩, by simp [Note.isManaged]⟩

namespace Effect.Marking

theorem of_plain (plain : w.Spares effect.world ∧ ∀ note ∈ effect.notes, note.isManaged = false) :
    effect.Marking self w :=
  .keeps plain.1 fun note mem => Note.isMarking_of_plain (plain.2 note mem)

theorem of_leaveGlobal {lock : GlobalId} {control : Control}
    (step : (w.leaveGlobal lock self).bind (fun (v, notes) => some ⟨v, control, notes⟩) =
      some effect) : effect.Marking self w := by
  obtain ⟨v, notes, leaves, rfl⟩ := World.leaves_of_bind step
  exact of_plain (World.Spares.leaveGlobal leaves)

end Effect.Marking

theorem Acquisition.marking {a : Acquisition} (step : a.advance self w = some effect) :
    effect.Marking self w := by
  simp only [advance, took, gaveUp] at step
  repeat' split at step
  all_goals first
    | (obtain rfl := Option.some.inj step
       exact .keeps ⟨by simp, by simp⟩ (by simp [Note.isMarking]))
    | simp at step

theorem Sleeping.marking {s : Sleeping} (step : s.advance self w = some effect) :
    effect.Marking self w := by
  cases point : s.point with
  | check =>
    simp only [advance, point] at step
    split at step <;> obtain rfl := Option.some.inj step <;> exact .keeps (.checkInterrupt ‹_›) (by simp)
  | _ =>
    simp only [advance, point] at step
    repeat' split at step
    all_goals first
      | (obtain rfl := Option.some.inj step
         exact .keeps ⟨by simp, by simp⟩ (by simp))
      | simp at step

theorem Parking.marking {point : Parking.Point}
    (step : Parking.advance point self w = some effect) : effect.Marking self w := by
  cases point with
  | check =>
    simp only [advance] at step
    split at step <;> obtain rfl := Option.some.inj step <;> exact .keeps (.checkInterrupt ‹_›) (by simp)
  | parked =>
    simp only [advance] at step
    split at step
    · obtain rfl := Option.some.inj step
      exact .keeps ⟨by simp, by simp⟩ (by simp)
    · simp at step
  | recheck =>
    obtain rfl := Option.some.inj step
    exact .keeps (.checkInterrupt (Prod.eta _).symm) (by simp)

theorem Trial.marking {t : Trial} (step : t.advance self w = some effect) :
    effect.Marking self w := by
  cases point : t.point with
  | check =>
    simp only [advance, point] at step
    split at step <;> obtain rfl := Option.some.inj step <;> exact .keeps (.checkInterrupt ‹_›) (by simp)
  | _ =>
    simp only [advance, point] at step
    repeat' split at step
    all_goals
      obtain rfl := Option.some.inj step
      exact .keeps (.refl w) (by simp [Note.isMarking])

/-- Only the way in and out of the phases changes a mark. No step touches the stacks; what becomes of
the thread's own is said by the control. -/
theorem Frame.marking (step : frame.advance self w = some effect) : effect.Marking self w := by
  cases frame with
  | start op =>
    obtain ⟨agrees, plain⟩ := Op.plain (m := 0) step
    exact .of_plain ⟨.of_agrees agrees, plain⟩
  | acquisition a => exact a.marking step
  | sleeping s => exact s.marking step
  | parking point => exact Parking.marking step
  | trial t => exact t.marking step
  | keepGuard =>
    obtain rfl := Option.some.inj step
    exact .keeps ⟨fun _ => rfl, fun _ => rfl⟩ (by simp)
  | withdrawal x =>
    simp only [advance, Withdrawal.advance] at step
    repeat' split at step
    all_goals first
      | obtain rfl := Option.some.inj step
      | simp at step
    all_goals first
      | exact .of_plain (World.Spares.depart ‹_›)
      | exact .keeps ⟨by simp, by simp⟩ (by simp [Note.isMarking])
  | polling p =>
    simp only [advance, Polling.advance] at step
    split at step
    case h_4 => exact .of_leaveGlobal step
    case h_5 =>
      obtain rfl := Option.some.inj step
      exact .joins rfl rfl rfl rfl
    case h_6 =>
      obtain rfl := Option.some.inj step
      exact .finishes rfl rfl
    all_goals
      repeat' split at step
      all_goals
        obtain rfl := Option.some.inj step
        exact .keeps ⟨fun _ => rfl, fun _ => rfl⟩ (by simp [Note.isMarking])
  | pausing p =>
    simp only [advance, Pausing.advance] at step
    cases point : p.point <;> simp only [point] at step
    case leaveGlobal =>
      split at step
      · exact .of_leaveGlobal step
      · obtain rfl := Option.some.inj step
        exact .keeps (.refl w) (by simp)
    case enterPhases =>
      obtain rfl := Option.some.inj step
      exact .joins rfl rfl rfl rfl
    case exitPhases =>
      obtain rfl := Option.some.inj step
      exact .finishes rfl rfl
    all_goals
      repeat' split at step
      all_goals
        obtain rfl := Option.some.inj step
        exact .keeps ⟨fun _ => rfl, fun _ => rfl⟩ (by simp [Note.isMarking])
  | blocking b =>
    simp only [advance, Blocking.advance] at step
    split at step
    case h_1 =>
      split at step
      · exact .of_leaveGlobal step
      · obtain rfl := Option.some.inj step
        exact .keeps (.refl w) (by simp)
    all_goals
      repeat' split at step
      all_goals
        obtain rfl := Option.some.inj step
        exact .keeps (.refl w) (by simp)
  | _ =>
    simp only [advance, Release.advance, OwnedLock.advanceNotify, Arrival.advance,
      Interruption.advance, Enrolment.advance, Visit.advance, Script.advance, Sequence.advance,
      Drain.advance, Phases.advance, Resuming.advance, Entering.advance, Leaving.advance,
      Foreign.advance, Acquiring.advance] at step
    repeat' split at step
    all_goals first
      | (obtain rfl := Option.some.inj step
         exact .keeps ⟨by simp, by simp⟩ (by simp [Note.isMarking]))
      | simp at step

theorem Frame.advance_stack (step : frame.advance self w = some effect) (thread : ThreadId) :
    effect.world.stack thread = w.stack thread := by
  cases Frame.marking step with
  | keeps spares => exact spares.stack thread
  | joins world | finishes world => rw [world, World.stack_setInPause]

theorem Frame.advance_inPause (step : frame.advance self w = some effect)
    (other : thread ≠ self) :
    (effect.world.thread thread).inPause = (w.thread thread).inPause := by
  cases Frame.marking step with
  | keeps spares => exact spares.inPause thread
  | joins world | finishes world => rw [world, World.setInPause_other _ _ other]

/-- A move that is no step of a thread leaves it where it stands, unless it is told what to do or woken
without a reason. -/
theorem World.move_other {move : Move} {notes : List Note}
    (moves : w.move move = some (v, notes)) (other : move ≠ .run thread) :
    (v.thread thread).inPause = (w.thread thread).inPause ∧
      (v.stack thread = w.stack thread ∨
        (∃ op, w.stack thread = [] ∧ v.stack thread = [.start op]) ∨
        ∃ frame frame' rest, w.stack thread = frame :: rest ∧ v.stack thread = frame' :: rest ∧
          frame.Rouses frame') := by
  cases move with
  | run self =>
    have ne : thread ≠ self := fun same => other (same ▸ rfl)
    obtain ⟨frame, rest, effect, -, step, rfl, -⟩ := World.step_eq_some moves
    refine ⟨?_, .inl ?_⟩
    · rw [World.inPause_setStack, Frame.advance_inPause step ne]
    · rw [World.stack_setStack, if_neg ne, Frame.advance_stack step]
  | submit self op =>
    obtain ⟨u, submit, same⟩ := Option.map_eq_some_iff.mp moves
    obtain ⟨rfl, rfl⟩ := Prod.mk.inj same
    unfold World.submit at submit
    split at submit
    · rename_i idle
      obtain rfl := Option.some.inj submit
      refine ⟨by simp, ?_⟩
      rw [World.stack_setStack]
      split
      · rename_i same
        exact .inr (.inl ⟨op, same ▸ List.isEmpty_iff.mp idle, rfl⟩)
      · exact .inl rfl
    · simp at submit
  | elapse span =>
    obtain ⟨rfl, rfl⟩ := Prod.mk.inj (Option.some.inj moves)
    exact ⟨rfl, .inl rfl⟩
  | rouse self =>
    obtain ⟨rfl, rfl⟩ := Prod.mk.inj (Option.some.inj moves)
    have woken {frame frame' : Frame} {rest : List Frame} (stack : w.stack self = frame :: rest)
        (rouses : frame.Rouses frame') :
        ((w.setStack self (frame' :: rest)).thread thread).inPause = (w.thread thread).inPause ∧
          ((w.setStack self (frame' :: rest)).stack thread = w.stack thread ∨
            (∃ op, w.stack thread = [] ∧
              (w.setStack self (frame' :: rest)).stack thread = [.start op]) ∨
            ∃ top top' below, w.stack thread = top :: below ∧
              (w.setStack self (frame' :: rest)).stack thread = top' :: below ∧
              top.Rouses top') := by
      refine ⟨by simp, ?_⟩
      rw [World.stack_setStack]
      split
      · rename_i same
        exact .inr (.inr ⟨frame, frame', rest, same ▸ stack, rfl, rouses⟩)
      · exact .inl rfl
    unfold World.rouse
    split
    · exact ⟨by simp, .inl (by simp)⟩
    · rename_i rest stack
      exact woken stack .parking
    · rename_i s rest stack
      split
      · exact woken stack (.sleeping s)
      · exact ⟨rfl, .inl rfl⟩
    · exact ⟨rfl, .inl rfl⟩

end

end StopTheWorld
