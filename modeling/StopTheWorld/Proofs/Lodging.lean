import StopTheWorld.Proofs.Driver
import StopTheWorld.Proofs.Layout

namespace StopTheWorld

/-! User code whose panics stay within pause actions, and where they go when an action unwinds: a
thread that is registered for one call only has no record, so that it has no action to run either. -/

/-- A callback or a deferred action runs on this stack. -/
def isAside (stack : List Frame) : Bool := inCallback stack || stack.any (·.isDrain)

/-- The record is that of the thread. -/
structure World.Owns (w : World) (record : RecordId) (thread : ThreadId) : Prop where
  made : record < w.nextRecord
  own : (w.record record).thread = thread

/-- The step that a thread is about to take is orderly, and a record has been made for the thread. -/
structure Known (m : ManagerId) (w : World) (thread : ThreadId) : Prop extends Orderly m w thread where
  known : w.Owns (w.recordOf thread) thread

/-- The step that a thread is about to take is one of user code whose callbacks and deferred actions
neither call the manager nor unwind. Pause actions may do anything. -/
structure Contained (m : ManagerId) (w : World) (thread : ThreadId) : Prop where
  /-- The thread is one for which a record has been made. -/
  known : w.Owns (w.recordOf thread) thread
  /-- There is no other manager. -/
  single : ∀ {op rest}, w.stack thread = .start op :: rest → op.calls? = none ∨ op.calls? = some m
  outside : ∀ {op rest}, w.stack thread = .start op :: rest → isAside rest = true →
    op.calls? = none
  steady : ∀ {frame rest effect}, w.stack thread = frame :: rest → isAside rest = true →
    frame.advance thread w = some effect → ∀ message, effect.control ≠ .unwind message

/-- Decides whether a step is contained. -/
def World.isContained (m : ManagerId) (w : World) (thread : ThreadId) : Bool :=
  w.recordOf thread < w.nextRecord && (w.record (w.recordOf thread)).thread = thread &&
  match w.stack thread with
  | [] => true
  | frame :: rest =>
    (match frame with
      | .start op => op.calls? = none || op.calls? = some m && !isAside rest
      | _ => true) &&
    (!isAside rest ||
      match (frame.advance thread w).map (·.control) with
      | some (Control.unwind _) => false
      | _ => true)

theorem World.contained_of_isContained (m : ManagerId) (w : World) (thread : ThreadId)
    (contained : w.isContained m thread = true) : Contained m w thread := by
  unfold World.isContained at contained
  rw [Bool.and_eq_true, Bool.and_eq_true] at contained
  obtain ⟨⟨made, own⟩, contained⟩ := contained
  refine ⟨⟨of_decide_eq_true made, of_decide_eq_true own⟩, ?_, ?_, ?_⟩
  · intro op rest stack
    rw [stack] at contained
    simp only [Bool.and_eq_true, Bool.or_eq_true, decide_eq_true_eq] at contained
    exact contained.1.imp_right (·.1)
  · intro op rest stack aside
    rw [stack] at contained
    simp only [Bool.and_eq_true, Bool.or_eq_true, decide_eq_true_eq, aside] at contained
    simpa using contained.1
  · intro frame rest effect stack aside step message unwinds
    rw [stack] at contained
    simp only [Bool.and_eq_true, aside, step, Option.map_some, unwinds] at contained
    simp at contained

namespace Frame

def isForeign : Frame → Bool
  | foreign _ => true
  | _ => false

def isEntering : Frame → Bool
  | entering _ => true
  | _ => false

end Frame

def overForeign (stack : List Frame) : Bool := stack.head?.any (·.isForeign)

def overEntering (stack : List Frame) : Bool := stack.head?.any (·.isEntering)

/-- Nothing on this stack is a call for which a thread registers, unless it is in the phases. -/
def Clear (stack : List Frame) : Prop :=
  stack.any (·.isForeign) = true → stack.any (·.isPhases) = true

/-- What a frame says of the thread being registered without a record, as for one call only. -/
def Frame.Vouches (m : ManagerId) (lodges : Prop) (rest : List Frame) : Frame → Prop
  | foreign f => Clear rest ∧ (f.added = true → lodges)
  | leaving _ => Clear rest
  | answer reply => overForeign rest = true → reply = .succeeded (.truth true) → lodges
  | entering e => overForeign rest = true → e.record = none ∧ (e.added = true → lodges)
  | enrolment x =>
    x.registry = .manager m → overForeign rest.tail = true → x.entry.record = none
  | _ => True

def Vouched (m : ManagerId) (lodges : Prop) : List Frame → Prop
  | [] => True
  | frame :: rest => frame.Vouches m lodges rest ∧ Vouched m lodges rest

/-- What the control makes of a frame vouches for as much. -/
def Control.Vouches (m : ManagerId) (lodges : Prop) (rest : List Frame) : Control → Prop
  | goto frame => frame.Vouches m lodges rest
  | call child back => child.Vouches m lodges (back :: rest) ∧ back.Vouches m lodges rest
  | reply value =>
    (overForeign rest = true → value = .succeeded (.truth true) → lodges) ∧
      (overEntering rest = true → overForeign rest.tail = true → value = .truth true → lodges)
  | unwind _ => True

/-- The entry is that of a thread that is registered for one call only. -/
def IsLodger (entry : Option Registration) : Prop :=
  ∃ registration, entry = some registration ∧ registration.record = none

section

variable {m : ManagerId} {w v : World} {self thread : ThreadId} {frame : Frame}
  {rest stack above below : List Frame} {effect : Effect} {moments : List Moment}
  {lodges lodges' : Prop}

theorem World.Coherent.orderly_of_contained (coherent : w.Coherent m)
    (contained : Contained m w thread) : Orderly m w thread := by
  refine coherent.orderly contained.single ?_ ?_ ?_
  · intro op rest stack inside
    exact contained.outside stack (by simp [isAside, inside])
  · intro frame rest effect stack inside
    exact contained.steady stack (by simp [isAside, inside])
  · intro rest stack drains
    have quiet := contained.outside stack (by simp [isAside, drains])
    simp [Op.calls?] at quiet

theorem World.Coherent.known (coherent : w.Coherent m) (contained : Contained m w thread) :
    Known m w thread :=
  ⟨coherent.orderly_of_contained contained, contained.known⟩

/-- A course of user code that is orderly as long as the pauses work is orderly. -/
theorem Course.known {custom : World → ThreadId → Prop} (course : Course custom w moments v)
    (coherent : w.Coherent m)
    (keeps : ∀ {u thread}, u.Coherent m → custom u thread → Known m u thread) :
    Course (Known m) w moments v := by
  induction course with
  | nil => exact .nil
  | snoc before allowed moves ih =>
    have reached := (ih.mono fun _ _ known => known.toOrderly).coherent coherent
    exact ih.snoc (fun thread runs => keeps reached (allowed thread runs)) moves

theorem Course.orderly (course : Course (Known m) w moments v) : Course (Orderly m) w moments v :=
  course.mono fun _ _ known => known.toOrderly

theorem Course.orderly_of_contained (course : Course (Contained m) w moments v)
    (coherent : w.Coherent m) : Course (Orderly m) w moments v :=
  (course.known coherent fun reached contained => reached.known contained).orderly

namespace Clear

theorem cons (clear : Clear rest) (plain : frame.isForeign = false) : Clear (frame :: rest) := by
  intro houses
  have phases := clear (by simpa [plain] using houses)
  simp [phases]

end Clear

/-- Only the procedures that a call for which a thread registers goes through stand on it. -/
theorem Frame.hosted_foreign (hosted : frame.isHosted rest = true)
    (houses : overForeign rest = true) :
    (∃ e, frame = .entering e) ∨ (∃ reply, frame = .answer reply) ∨ (∃ p, frame = .pausing p) ∨
      ∃ message, frame = .rethrow message := by
  cases rest with
  | nil => simp [overForeign] at houses
  | cons parent below =>
    cases parent with
    | foreign f => cases frame <;> simp_all [isHosted, hosts]
    | _ => simp [overForeign, isForeign] at houses

theorem Frame.hosted_entering (hosted : frame.isHosted rest = true)
    (enters : overEntering rest = true) :
    (∃ a, frame = .acquisition a) ∨ ∃ x, frame = .enrolment x := by
  cases rest with
  | nil => simp [overEntering] at enters
  | cons parent below =>
    cases parent with
    | entering e => cases frame <;> simp_all [isHosted, hosts]
    | _ => simp [overEntering, isEntering] at enters

/-- A script is what an interruption, a drain or the phases wait for. -/
theorem Frame.hosted_script {s : Script} (hosted : (Frame.script s).isHosted rest = true)
    (aside : isAside rest = false) : rest.any (·.isPhases) = true := by
  cases rest with
  | nil => simp [isHosted, isOp] at hosted
  | cons parent below =>
    cases parent with
    | phases p => rfl
    | interruption i => simp [isAside, isInterruption] at aside
    | drain d => simp [isAside, isDrain] at aside
    | _ => simp [isHosted, hosts, isOp] at hosted

theorem isAside_cons_eq_false (aside : isAside (frame :: rest) = false) : isAside rest = false := by
  simp only [isAside, inCallback_cons, List.any_cons, Bool.or_eq_false_iff] at aside ⊢
  exact ⟨aside.1.2, aside.2.2⟩

namespace Laid

/-- A list of operations outside of scripts stands on other such lists only. -/
theorem clear_sequence {s : Sequence} (laid : Laid (.sequence s :: rest))
    (aside : isAside rest = false) : Clear rest := by
  induction rest generalizing s with
  | nil => simp [Clear]
  | cons parent below ih =>
    have aside := isAside_cons_eq_false aside
    have hosted : parent.hosts (.sequence s) = true := laid.1
    cases parent with
    | script t =>
      intro _
      simp [Frame.hosted_script laid.2.1 aside]
    | sequence t => exact (ih laid.tail aside).cons rfl
    | _ => simp [Frame.hosts] at hosted

/-- An operation outside of pause actions, callbacks and deferred actions is not part of any call. -/
theorem clear {op : Op} (laid : Laid (.start op :: rest)) (aside : isAside rest = false) :
    Clear rest := by
  cases rest with
  | nil => simp [Clear]
  | cons parent below =>
    have aside := isAside_cons_eq_false aside
    have hosted : parent.hosts (.start op) = true := laid.1
    cases parent with
    | script t =>
      intro _
      simp [Frame.hosted_script laid.2.1 aside]
    | sequence t => exact (laid.tail.clear_sequence aside).cons rfl
    | _ => simp [Frame.hosts] at hosted

end Laid

theorem Op.vouches {op : Op} (clear : op.calls? ≠ none → Clear rest)
    (hosted : (Frame.start op).isHosted rest = true) (step : op.advance self w = some effect) :
    effect.control.Vouches m lodges rest := by
  have replied (value : Reply) : (Control.reply value).Vouches m lodges rest := by
    refine ⟨fun houses => ?_, fun enters => ?_⟩
    · simpa using Frame.hosted_foreign hosted houses
    · simpa using Frame.hosted_entering hosted enters
  cases op with
  | access a =>
    obtain ⟨-, -, ⟨value, control⟩ | ⟨message, control⟩⟩ := Access.agrees (m := 0) step
    · exact control ▸ replied value
    · exact control ▸ trivial
  | release n =>
    obtain ⟨_, -, replies⟩ := Option.bind_eq_some_iff.mp step
    obtain rfl := Option.some.inj replies
    exact replied _
  | deferLookup =>
    simp only [advance] at step
    split at step <;> obtain rfl := Option.some.inj step <;> exact replied _
  | unlock l =>
    simp only [advance] at step
    split at step <;> obtain rfl := Option.some.inj step
    · exact ⟨trivial, by simp [Frame.Vouches]⟩
    · exact replied _
  | log | defer | blockOn =>
    obtain rfl := Option.some.inj step
    exact replied _
  | leave | pauseForeign =>
    obtain rfl := Option.some.inj step
    have clear := clear (by simp [calls?])
    simp [Control.Vouches, Frame.Vouches, clear]
  | _ =>
    obtain rfl := Option.some.inj step
    simp [Control.Vouches, Frame.Vouches, overForeign, Frame.isForeign]

theorem Frame.vouches (clear : ∀ op, frame = .start op → op.calls? ≠ none → Clear rest)
    (hosted : frame.isHosted rest = true) (awaited : frame.Awaited m rest)
    (vouches : frame.Vouches m lodges rest) (implies : lodges → lodges')
    (inserts : ∀ x, frame = .enrolment x → x.registry = .manager m → x.point = .insert →
      x.entry.record = none → lodges')
    (step : frame.advance self w = some effect) : effect.control.Vouches m lodges' rest := by
  -- What most frames reply comes neither to a call for which a thread registers nor to the registering.
  have replied (plain : (∀ e, frame ≠ .entering e) ∧ (∀ reply, frame ≠ .answer reply) ∧
      (∀ p, frame ≠ .pausing p) ∧ (∀ message, frame ≠ .rethrow message) ∧
      (∀ a, frame ≠ .acquisition a) ∧ ∀ x, frame ≠ .enrolment x) (value : Reply) :
      (Control.reply value).Vouches m lodges' rest := by
    refine ⟨fun houses => ?_, fun enters => ?_⟩
    · simpa [plain] using Frame.hosted_foreign hosted houses
    · simpa [plain] using Frame.hosted_entering hosted enters
  have alone (within : (∀ e, frame ≠ .entering e) ∧ (∀ reply, frame ≠ .answer reply) ∧
      (∀ p, frame ≠ .pausing p) ∧ ∀ message, frame ≠ .rethrow message) :
      overForeign rest = false := by
    refine Bool.eq_false_of_not_eq_true fun houses => ?_
    have stands := Frame.hosted_foreign hosted houses
    simp [within] at stands
  cases frame with
  | start op => exact Op.vouches (clear op rfl) hosted step
  | answer reply =>
    obtain rfl := Option.some.inj step
    refine ⟨fun houses same => implies (vouches houses same), fun enters => ?_⟩
    simpa using Frame.hosted_entering hosted enters
  | rethrow message =>
    obtain rfl := Option.some.inj step
    trivial
  | acquisition a =>
    simp only [advance, Acquisition.advance, Acquisition.took, Acquisition.gaveUp] at step
    repeat' split at step
    all_goals first
      | (obtain rfl := Option.some.inj step
         first
           | trivial
           | exact ⟨by simp, by simp⟩)
      | simp at step
  | enrolment x =>
    simp only [advance, Enrolment.advance] at step
    split at step
    · split at step
      · simp at step
      · split at step <;> obtain rfl := Option.some.inj step
        · exact ⟨by simp, by simp⟩
        · exact vouches
    · rename_i insert
      obtain rfl := Option.some.inj step
      refine ⟨by simp, fun enters houses _ => ?_⟩
      have bound : x.registry = .manager m := by
        cases rest with
        | nil => simp [overEntering] at enters
        | cons parent below =>
          cases parent with
          | entering e => exact awaited.2
          | _ => simp [overEntering, isEntering] at enters
      exact inserts x rfl bound insert (vouches bound houses)
  | entering e =>
    have goes (point : Entering.Point) :
        (Frame.entering { e with point }).Vouches m lodges' rest :=
      fun houses => (vouches houses).imp_right fun added same => implies (added same)
    simp only [advance, Entering.advance] at step
    repeat' split at step
    all_goals obtain rfl := Option.some.inj step
    all_goals first
      | exact goes _
      | exact ⟨by simp, by simp⟩
      | exact ⟨trivial, goes _⟩
      | exact ⟨fun _ houses => (vouches houses).1, goes _⟩
      | exact ⟨trivial, fun houses same => implies ((vouches houses).2 (by simpa using same))⟩
  | leaving l =>
    simp only [advance, Leaving.advance] at step
    repeat' split at step
    all_goals obtain rfl := Option.some.inj step
    all_goals first
      | exact vouches
      | exact replied (by simp) _
      | exact ⟨trivial, vouches⟩
  | pausing p =>
    simp only [advance, Pausing.advance] at step
    repeat' split at step
    all_goals first
      | (obtain rfl := Option.some.inj step
         first
           | trivial
           | exact ⟨trivial, trivial⟩
           | exact ⟨trivial, by simp [Vouches]⟩
           | exact ⟨by simp, by simp⟩)
      | (obtain ⟨_, -, goes⟩ := Option.bind_eq_some_iff.mp step
         obtain rfl := Option.some.inj goes
         trivial)
  | foreign f =>
    obtain ⟨clear, added⟩ := vouches
    simp only [advance, Foreign.advance] at step
    split at step
    · obtain rfl := Option.some.inj step
      exact ⟨by simp [Vouches], clear, fun same => implies (added same)⟩
    · obtain rfl := Option.some.inj step
      exact ⟨trivial, clear, fun same => implies (added same)⟩
    · split at step <;> obtain rfl := Option.some.inj step
      · exact ⟨clear.cons rfl, by simp [Vouches, alone]⟩
      · exact replied (by simp) _
    · obtain rfl := Option.some.inj step
      exact ⟨clear.cons rfl, trivial⟩
  | blocking b =>
    have outside := alone (by simp)
    simp only [advance, Blocking.advance] at step
    repeat' split at step
    all_goals first
      | (obtain rfl := Option.some.inj step
         first
           | trivial
           | exact ⟨trivial, by simp [Vouches, outside]⟩
           | exact replied (by simp) _)
      | (obtain ⟨_, -, goes⟩ := Option.bind_eq_some_iff.mp step
         obtain rfl := Option.some.inj goes
         trivial)
  | _ =>
    simp only [advance, Release.advance, OwnedLock.advanceNotify, Arrival.advance, Sleeping.advance, Parking.advance,
      Interruption.advance, Withdrawal.advance, Visit.advance, Script.advance,
      Sequence.advance, Drain.advance, Phases.advance, Resuming.advance, Polling.advance,
      Acquiring.advance, Trial.advance] at step
    repeat' split at step
    all_goals first
      | (obtain rfl := Option.some.inj step
         first
           | exact replied (by simp) _
           | trivial)
      | (obtain ⟨_, -, goes⟩ := Option.bind_eq_some_iff.mp step
         obtain rfl := Option.some.inj goes
         trivial)
      | simp at step

namespace Vouched

theorem tail (vouched : Vouched m lodges (frame :: rest)) : Vouched m lodges rest := vouched.2

theorem imp (vouched : Vouched m lodges stack) (implies : lodges → lodges') :
    Vouched m lodges' stack := by
  induction stack with
  | nil => trivial
  | cons frame rest ih =>
    refine ⟨?_, ih vouched.2⟩
    have here := vouched.1
    cases frame with
    | foreign f => exact here.imp_right fun added same => implies (added same)
    | answer reply => exact fun houses same => implies (here houses same)
    | entering e =>
      exact fun houses => (here houses).imp_right fun added same => implies (added same)
    | _ => exact here

/-- Where nobody registers for one call, there is nothing to vouch for. -/
theorem of_bare (bare : stack.any (·.isForeign) = false) : Vouched m lodges stack := by
  have above {stack : List Frame} (bare : stack.any (·.isForeign) = false) :
      overForeign stack = false := by
    cases stack with
    | nil => rfl
    | cons frame rest =>
      rw [List.any_cons, Bool.or_eq_false_iff] at bare
      exact bare.1
  induction stack with
  | nil => trivial
  | cons frame rest ih =>
    rw [List.any_cons, Bool.or_eq_false_iff] at bare
    refine ⟨?_, ih bare.2⟩
    have outside := above bare.2
    have clear : Clear rest := by simp [Clear, bare.2]
    cases frame with
    | foreign f => simp [Frame.isForeign] at bare
    | enrolment x =>
      have beneath : overForeign rest.tail = false := by
        cases rest with
        | nil => rfl
        | cons parent below =>
          rw [List.any_cons, Bool.or_eq_false_iff] at bare
          exact above bare.2.2
      simp [Frame.Vouches, beneath]
    | _ => first | trivial | exact clear | simp [Frame.Vouches, outside]

theorem resume {parent : Frame} {value : Reply} (vouched : Vouched m lodges (parent :: below))
    (replies : (Control.reply value).Vouches m lodges (parent :: below)) :
    Vouched m lodges (parent.resume value :: below) := by
  obtain ⟨here, beneath⟩ := vouched
  refine ⟨?_, beneath⟩
  cases parent with
  | foreign f =>
    unfold Frame.resume
    dsimp only
    split
    · simp [Frame.Vouches]
    · rename_i added _
      exact ⟨here.1, fun same => replies.1 rfl (by rw [show added = true from same])⟩
    · exact here
  | entering e =>
    cases value with
    | truth added =>
      exact fun houses => ⟨(here houses).1, fun same => replies.2 rfl houses (congrArg _ same)⟩
    | _ => exact here
  | discard | word | keepGuard => cases value <;> simp [Frame.resume, Frame.Vouches]
  | _ => cases value <;> exact here

theorem unwind (vouched : Vouched m lodges stack) (message : String) :
    Vouched m lodges (Frame.unwind message stack) := by
  induction stack with
  | nil => trivial
  | cons parent below ih =>
    unfold Frame.unwind
    split
    · rename_i handler caught
      refine ⟨?_, vouched.tail⟩
      have here := vouched.1
      unfold Frame.catch? at caught
      repeat' split at caught
      all_goals first
        | (obtain rfl := Option.some.inj caught
           exact here)
        | simp at caught
    · exact ih vouched.tail

theorem step (vouched : Vouched m lodges (frame :: rest)) (laid : Laid (frame :: rest))
    (awaited : frame.Awaited m rest)
    (clear : ∀ op, frame = .start op → op.calls? ≠ none → Clear rest)
    (implies : lodges → lodges')
    (inserts : ∀ x, frame = .enrolment x → x.registry = .manager m → x.point = .insert →
      x.entry.record = none → lodges')
    (step : frame.advance self w = some effect) :
    Vouched m lodges' (effect.control.stack rest) := by
  have vouches := Frame.vouches clear laid.1 awaited vouched.1 implies inserts step
  have beneath := vouched.tail.imp implies
  cases control : effect.control with
  | goto frame' =>
    rw [control] at vouches
    exact ⟨vouches, beneath⟩
  | call child back =>
    rw [control] at vouches
    exact ⟨vouches.1, vouches.2, beneath⟩
  | reply value =>
    rw [control] at vouches
    cases rest with
    | nil => trivial
    | cons parent below => exact beneath.resume vouches
  | unwind message => exact beneath.unwind message

end Vouched

/-- A thread whose entry is gone and whose party is not is in the midst of leaving. -/
theorem Sound.departing (sound : Sound m self stack) (departs : posture m stack = .departing) :
    ∃ x rest, stack = .withdrawal x :: rest ∧ x.registry = .manager m := by
  induction stack with
  | nil => simp at departs
  | cons frame rest ih =>
    by_cases here : ∃ x, frame = .withdrawal x ∧ x.registry = .manager m
    · obtain ⟨x, rfl, registry⟩ := here
      exact ⟨x, rest, rfl, registry⟩
    · have beneath : posture m rest = .departing := by
        rw [posture_cons] at departs
        cases frame with
        | withdrawal x =>
          have other : x.registry ≠ .manager m := fun registry => here ⟨x, rfl, registry⟩
          rwa [Frame.posture_withdrawal other] at departs
        | _ =>
          simp only [Frame.posture] at departs
          repeat' split at departs
          all_goals first | exact departs | simp at departs
      obtain ⟨x, below, rfl, -⟩ := ih sound.tail beneath
      exact sound.2.1.elim

/-- The threads that are registered for one call have no record. -/
def World.IsVouched (m : ManagerId) (w : World) : Prop :=
  ∀ thread, Vouched m (IsLodger ((w.core m).lookup thread)) (w.stack thread)

theorem Advances.departs {core : Core} {before after : Posture}
    (advances : Advances core self before .remove after) : after = .departing := by
  cases advances
  rfl

/-- Whoever is in the midst of leaving is not in a call for which it registered. -/
theorem World.Coherent.departed (coherent : w.Coherent m)
    (vouched : Vouched m lodges (w.stack thread)) (departs : w.posture m thread = .departing) :
    (w.stack thread).any (·.isForeign) = false := by
  have sound := coherent.sound thread
  obtain ⟨x, rest, stack, registry⟩ := sound.departing departs
  rw [stack] at sound vouched ⊢
  obtain ⟨l, below, rfl, announce⟩ := sound.below_withdrawal registry
  have quiet : Quiet m below := sound.tail.1.2.1.resolve_right (by simp [announce])
  have clear : Clear below := vouched.tail.1
  refine Bool.eq_false_of_not_eq_true fun houses => ?_
  have marked := sound.tail.tail.marked (clear (by simpa [Frame.isForeign] using houses))
  simp [quiet.unmarked] at marked

/-- Who enters itself in the registry is registered as it has asked for. -/
theorem Enrolment.lists {x : Enrolment} (ready : Ready m self w (.enrolment x :: rest))
    (registry : x.registry = .manager m) (insert : x.point = .insert)
    (step : x.advance w = some effect) : (effect.world.core m).lookup self = some x.entry := by
  have own : x.entry.identity = self := by
    have fits := ready.sound.1
    simp only [Frame.Fits, registry, if_true] at fits
    exact fits.1
  have claiming : posture m (.enrolment x :: rest) = .claiming := by
    simp [Frame.posture, registry, insert]
  have absent : self ∉ (w.core m).identities := by
    have halfway := ready.admits.halfway
    rw [claiming] at halfway
    exact halfway rfl
  simp only [advance, insert] at step
  obtain rfl := Option.some.inj step
  have before : (w.core m).lookup self = .none := by
    rwa [← Option.not_isSome_iff_eq_none, Core.lookup_isSome]
  rw [registry, World.core_modifyRegistry]
  simp only [Core.lookup] at before ⊢
  simp only [Registry.insert, List.find?_append, List.find?_cons, own]
  have before : List.find? (fun x => decide (x.identity = self))
    (w.registry (.manager m)).members = .none := before
  simp [before]

theorem World.IsVouched.step {notes : List Note} (vouched : w.IsVouched m)
    (coherent : w.Coherent m) (laid : w.IsLaid) (contained : Contained m w self)
    (step : w.step self = some (v, notes)) : v.IsVouched m := by
  have orderly := coherent.orderly_of_contained contained
  obtain ⟨coherent', deed, moves, -⟩ := coherent.step orderly step
  have core : v.core m = (w.core m).after self deed := moves.core
  have advances := moves.advances
  have ready := coherent.ready self
  have departed (vouched : Vouched m True (v.stack self)) (departs : v.posture m self = .departing) :=
    coherent'.departed vouched departs
  intro thread
  by_cases other : thread ≠ self
  · rw [core, coherent.stack_other orderly step other]
    exact Core.lookup_after_of_ne advances other ▸ vouched thread
  obtain rfl : thread = self := Classical.not_not.mp other
  clear other
  have here := vouched thread
  have placed := laid thread
  obtain ⟨frame, rest, effect, stack, advance, rfl, rfl⟩ := World.step_eq_some step
  rw [stack] at here placed ready
  have clear (op : Op) (same : frame = .start op) (calls : op.calls? ≠ none) : Clear rest := by
    subst same
    refine placed.clear (Bool.eq_false_of_not_eq_true fun aside => calls ?_)
    exact contained.outside stack aside
  rw [World.stack_setStack, if_pos rfl] at departed ⊢
  by_cases leaves : deed = .remove
  · subst leaves
    exact .of_bare (departed (here.step placed ready.sound.2.1 clear (fun _ => trivial)
      (fun _ _ _ _ _ => trivial) advance) advances.departs)
  · refine here.step placed ready.sound.2.1 clear ?_ ?_ advance
    · rintro ⟨entry, found, none⟩
      exact ⟨entry, core ▸ Core.lookup_after_of_some advances found leaves, none⟩
    · rintro x rfl registry insert none
      exact ⟨_, Enrolment.lists ready registry insert advance, none⟩

theorem World.IsVouched.move {move : Move} {notes : List Note} (vouched : w.IsVouched m)
    (coherent : w.Coherent m) (laid : w.IsLaid)
    (contained : ∀ thread, move = .run thread → Contained m w thread)
    (moves : w.move move = some (v, notes)) : v.IsVouched m := by
  by_cases runs : ∃ self, move = .run self
  · obtain ⟨self, rfl⟩ := runs
    exact vouched.step coherent laid (contained self rfl) moves
  · have idle (thread : ThreadId) : move ≠ .run thread := fun same => runs ⟨thread, same⟩
    have core : v.core m = w.core m := by
      have turns := (coherent.move (fun thread same => absurd same (idle thread)) moves).2
      have scene : v.scene m = w.scene m := by
        generalize v.scene m = scene at turns
        cases turns with
        | run => exact absurd rfl (idle _)
        | idle => rfl
      exact congrArg Scene.core scene
    intro thread
    have here := vouched thread
    rw [core]
    obtain ⟨-, same | ⟨op, -, told⟩ | ⟨frame, frame', rest, before, after, rouses⟩⟩ :=
      World.move_other moves (idle thread)
    · exact same ▸ here
    · rw [told]
      exact ⟨trivial, trivial⟩
    · rw [before] at here
      rw [after]
      refine ⟨?_, here.tail⟩
      cases rouses <;> trivial

/-- The stacks of a course of contained user code are laid, and vouch for what they say. -/
theorem Course.isVouched (course : Course (Contained m) w moments v) (coherent : w.Coherent m)
    (laid : w.IsLaid) (vouched : w.IsVouched m) : v.IsVouched m := by
  induction course with
  | nil => exact vouched
  | snoc before contained moves ih =>
    have reached := (before.orderly_of_contained coherent).coherent coherent
    exact ih.move reached (before.isLaid laid) contained moves

theorem World.IsFresh.isVouched (fresh : w.IsFresh m) : w.IsVouched m := by
  intro thread
  rw [fresh.idle]
  trivial

theorem World.IsFresh.isLaid (fresh : w.IsFresh m) : w.IsLaid := by
  intro thread
  rw [fresh.idle]
  trivial

theorem Vouched.lodges_of_mem {f : Foreign} (vouched : Vouched m lodges stack)
    (mem : .foreign f ∈ stack) (added : f.added = true) : lodges := by
  induction stack with
  | nil => simp at mem
  | cons frame rest ih =>
    obtain rfl | deeper := List.mem_cons.mp mem
    · exact vouched.1.2 added
    · exact ih vouched.tail deeper

/-- An unwinding that comes from outside of the phases goes all the way out, unless there is a call
for which the thread registered. -/
theorem Sound.unwind_out {message : String} (sound : Sound m self rest) (quiet : Quiet m rest)
    (awaited : frame.Awaited m rest) (loose : frame.isFirm = false)
    (stays : ∀ f, .foreign f ∈ rest → f.added = false) : Frame.unwind message rest = [] := by
  induction rest generalizing frame with
  | nil => rfl
  | cons parent below ih =>
    have stays' (f : Foreign) (mem : .foreign f ∈ below) : f.added = false :=
      stays f (List.mem_cons_of_mem _ mem)
    have outside := quiet.outside
    have unmarked := quiet.unmarked
    have free := quiet.free
    simp only [posture_cons, isMarked_cons, inCallback_cons, Bool.or_eq_false_iff] at outside unmarked free
    have on (dropped : parent.catch? message = none) (under : posture m below = .outside)
        (soft : parent.isFirm = false) : Frame.unwind message (parent :: below) = [] := by
      simp only [Frame.unwind, dropped]
      exact ih sound.tail ⟨under, unmarked.2, free.2⟩ sound.2.1 soft stays'
    cases parent with
    | interruption => simp [Frame.isInterruption] at free
    | phases p =>
      simp only [Frame.posture] at outside
      split at outside <;> simp at outside
    | visit v =>
      simp only [Frame.Awaited] at awaited
      cases frame <;> first
        | exact awaited.elim
        | simp [Frame.isFirm] at loose
    | pausing p =>
      cases drives : p.point.drives with
      | true => simp [Frame.posture, drives] at outside
      | false =>
        refine on ?_ (by simpa [Frame.posture, drives] using outside) rfl
        cases point : p.point <;> simp_all [Frame.catch?, Pausing.Point.drives]
    | polling p =>
      simp only [Frame.Awaited] at awaited
      cases frame <;> first
        | exact awaited.elim
        | simp [Frame.isFirm] at loose
    | entering e =>
      have owns : e.point.owns = true := by
        simp only [Frame.Awaited] at awaited
        cases frame <;> first
          | exact awaited.elim
          | simp [awaited.1, Entering.Point.owns]
      simp [Frame.posture, owns] at outside
    | foreign f =>
      exact on (by simp [Frame.catch?, stays f List.mem_cons_self]) outside rfl
    | start | acquisition | release | notify | arrival | enrolment | withdrawal | sleeping | parking =>
      exact awaited.elim
    | _ => exact on rfl outside rfl

end

end StopTheWorld
