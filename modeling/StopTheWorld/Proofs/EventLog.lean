import StopTheWorld.Proofs.Counted

namespace StopTheWorld

/-! What can be read off the events of a manager when nothing moves. -/

/-- Nobody can take a step: each thread is idle, or waits for something that only others provide. -/
def World.IsQuiescent (w : World) : Prop := ∀ thread, w.step thread = none

/-- What the events of a manager tell, after these moments. -/
structure EventLog (m : ManagerId) (moments : List Moment) (v : World) : Prop where
  /-- Of each thread they tell one stay after the other: it enters, drives pauses, each of which is over
  before the next begins, and leaves. -/
  stays : ∀ thread, ∃ stays : List (List (Nat × Nat)),
    eventsNaming m thread moments <+: stays.flatMap (stay thread)
  /-- A thread that is idle or waits is registered if it has entered more often than it has left. -/
  members : ∀ {thread}, v.step thread = none →
    (thread ∈ (v.manager m).registry.identities ↔
      (eventsOf m moments).count (.left thread) < (eventsOf m moments).count (.entered thread))
  completed : completions m moments ≤ (v.manager m).statistics.pauses
  settled : v.IsQuiescent → (v.manager m).pauseLock.IsFree →
    completions m moments = (v.manager m).statistics.pauses

section

variable {m : ManagerId} {self thread : ThreadId} {w v : World} {frame : Frame} {rest : List Frame}
  {moments : List Moment}

/-- A driver that has counted its pause gives the pause lock back before it does anything else, and then
announces the end. -/
theorem Sound.counted {stack : List Frame} (sound : Sound m self stack)
    (counted : stack.any (·.drivesAt m Pausing.Point.isCounted) = true) :
    (∃ p rest, stack = .pausing p :: rest ∧ p.point.isCounted = true) ∨
      ∃ point rest, stack = .release (.pause m) point :: rest := by
  obtain ⟨frame, mem, counted⟩ := List.any_eq_true.mp counted
  obtain ⟨p, rfl, point⟩ : ∃ p, frame = .pausing p ∧ p.point.isCounted = true := by
    cases frame with
    | pausing p =>
      simp only [Frame.drivesAt, Bool.and_eq_true] at counted
      exact ⟨p, rfl, counted.2⟩
    | _ => simp [Frame.drivesAt] at counted
  obtain ⟨above, below, rfl⟩ := List.append_of_mem mem
  obtain rfl | ⟨higher, child, rfl⟩ := above.eq_nil_or_concat
  · exact .inl ⟨p, below, rfl, point⟩
  · rw [List.concat_eq_append, List.append_assoc] at sound ⊢
    have stands : (Frame.pausing p).Awaits m child below := sound.of_append.2.1
    obtain ⟨at_, rfl⟩ : ∃ at_, child = .release (.pause m) at_ := by
      cases child with
      | release lock at_ => exact ⟨at_, by rw [stands.2]⟩
      | notify => obtain same | same := stands <;> simp [same, Pausing.Point.isCounted] at point
      | polling | resuming | visit =>
        simp only [Frame.Awaits] at stands
        simp [stands, Pausing.Point.isCounted] at point
      | acquisition | phases =>
        simp only [Frame.Awaits] at stands
        simp [stands.1, Pausing.Point.isCounted] at point
      | _ => exact stands.elim
    obtain rfl | ⟨inner, waits⟩ := sound.child
    · exact .inr ⟨at_, _, rfl⟩
    · exact waits.elim

namespace World

theorem advance_eq_none (stack : w.stack self = frame :: rest) (stuck : w.step self = none) :
    frame.advance self w = none := by
  by_contra moves
  obtain ⟨effect, step⟩ := Option.ne_none_iff_exists'.mp moves
  exact Option.some_ne_none _ ((move_of_advance stack step).symm.trans stuck)

/-- A thread that has news can announce it, or goes on to where it can. -/
theorem newsOf?_of_stuck (stuck : w.step self = none) : newsOf? m (w.stack self) = none := by
  cases stack : w.stack self with
  | nil => rfl
  | cons frame rest =>
    have stuck := advance_eq_none stack stuck
    rw [newsOf?_cons]
    cases frame with
    | entering e =>
      simp only [Frame.news?, ite_eq_right_iff, reduceCtorEq, imp_false, not_and]
      intro _ point added
      simp only [Frame.advance, Entering.advance, point, added, if_true] at stuck
      exact Option.some_ne_none _ stuck
    | leaving l =>
      simp only [Frame.news?, ite_eq_right_iff, reduceCtorEq, imp_false, not_and]
      intro _ point left
      simp only [Frame.advance, Leaving.advance, point, left, if_true] at stuck
      exact Option.some_ne_none _ stuck
    | withdrawal x =>
      simp only [Frame.news?, ite_eq_right_iff, reduceCtorEq, imp_false, not_and]
      intro _ point _
      simp only [Frame.advance, Withdrawal.advance, point] at stuck
      split at stuck <;> exact Option.some_ne_none _ stuck
    | _ => rfl

/-- Nobody waits between the counting of a pause and the announcement of its end, unless for the pause
lock. -/
theorem Coherent.uncounted (coherent : w.Coherent m) (tended : w.Tended m)
    (stuck : w.step self = none) (free : (w.manager m).pauseLock.IsFree) :
    w.isCounted m self = false := by
  refine Bool.eq_false_iff.mpr fun counted => ?_
  obtain ⟨p, rest, stack, point⟩ | ⟨point, rest, stack⟩ := (coherent.sound self).counted counted
  · have stuck := advance_eq_none stack stuck
    simp only [Frame.advance, Pausing.advance] at stuck
    cases at_ : p.point <;> simp only [at_, Pausing.Point.isCounted, Bool.false_eq_true] at point
    all_goals
      rw [at_] at stuck
      exact Option.some_ne_none _ stuck
  · have stuck := advance_eq_none stack stuck
    cases point with
    | clear =>
      have owner : (w.manager m).pauseLock.owner = some self := by
        rw [tended.owner, stack]
        simp [Frame.hold]
      exact Option.some_ne_none _ (owner.symm.trans free)
    | notify => exact Option.some_ne_none _ stuck

end World

/-- The events of a manager tell its history, as long as callbacks keep away from the manager and do not
unwind, and no thread leaves while it waits for a pause of its own. -/
theorem events_tell_history (fresh : w.IsFresh m) (course : Course (Orderly m) w moments v) :
    EventLog m moments v := by
  have coherent := course.coherent fresh.coherent
  have tended := (course.tame fresh.coherent).tended fresh
  obtain ⟨counted, mem_iff, pauses⟩ := course.counts fresh
  have pauses : (v.manager m).statistics.pauses = completions m moments + counted.card := pauses
  refine ⟨fun thread => ?_, fun {thread} stuck => ?_, by omega, fun quiescent free => ?_⟩
  · obtain ⟨inside, chronicle, -⟩ := course.chronicle fresh thread
    exact chronicle.isPrefix
  · obtain ⟨inside, chronicle, reflects⟩ := course.chronicle fresh thread
    rw [World.newsOf?_of_stuck stuck] at reflects
    have count := chronicle.count_entered
    rw [eventsNaming, List.count_filter (by simp [Event.thread]),
      List.count_filter (by simp [Event.thread])] at count
    rw [← Registry.contains_iff, count]
    change v.isMember m thread = true ↔ _
    generalize v.isMember m thread = member at reflects ⊢
    cases reflects
    cases inside <;> simp
  · have none : counted = ∅ := Finset.eq_empty_of_forall_notMem fun thread mem => by
      have uncounted := coherent.uncounted tended (quiescent thread) free
      exact Bool.false_ne_true (uncounted.symm.trans ((mem_iff thread).mp mem))
    simp [pauses, none]

/-- The first thread registers twice, of which the second time comes to nothing, and drives a pause whose
action unwinds. The second thread joins it and leaves. -/
def pauseAndLeave : List Move :=
  Move.repeated [
    (1, .submit 0 (.enter 0)), (14, .run 0), (1, .submit 1 (.enter 0)), (14, .run 1),
    (1, .submit 0 (.enter 0)), (4, .run 0),
    (1, .submit 0 (.pauseWith 0 false [.unwind "a"])), (25, .run 0),
    (1, .submit 1 (.pollFree 0)), (9, .run 1), (9, .run 0), (10, .run 1), (12, .run 0),
    (1, .submit 1 (.leave 0)), (9, .run 1)]

/-- Each of the two threads enters once. -/
theorem events_tell_history_pauseAndLeave : ∃ moments v, World.pair.IsFresh 0 ∧
    Course (Orderly 0) World.pair moments v ∧
    eventsNaming 0 0 moments = [.entered 0, .pauseStarted 0, .pauseCompleted 0 2 0] ∧
    eventsNaming 0 1 moments = [.entered 1, .left 1] ∧
    (v.manager 0).registry.identities = [0] ∧ EventLog 0 moments v := by
  have made : (World.pair.follow (·.isOrderly 0) pauseAndLeave).any (fun made =>
      decide (eventsNaming 0 0 made.1 = [.entered 0, .pauseStarted 0, .pauseCompleted 0 2 0]) &&
      decide (eventsNaming 0 1 made.1 = [.entered 1, .left 1]) &&
      decide ((made.2.manager 0).registry.identities = [0])) = true := by
    decide +kernel
  obtain ⟨⟨moments, v⟩, follows, state⟩ := (Option.any_eq_true _ _).mp made
  simp only [Bool.and_eq_true, decide_eq_true_eq] at state
  obtain ⟨⟨first, second⟩, registered⟩ := state
  have course : Course (Orderly 0) World.pair moments v :=
    World.course_of_follow (World.orderly_of_isOrderly 0) follows
  exact ⟨moments, v, World.pair_isFresh, course, first, second, registered,
    events_tell_history World.pair_isFresh course⟩

end

end StopTheWorld
