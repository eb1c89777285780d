import StopTheWorld.Proofs.Streams

namespace StopTheWorld

/-! Pauses exclude each other, and their events show it as far as they can: the start of a pause is
announced while the pause lock is owned, its end after that has been given back. -/

/-- What the events of a manager tell of the order of its pauses, after these moments. -/
structure PauseOrder (m : ManagerId) (w : World) (moments : List Moment) (v : World) : Prop where
  /-- Between the start of a pause and that of the next, of whichever driver, the driver has given the
  pause lock back, and so it has between the start of its pause and the end. -/
  releases : ∀ {pre mid post first last driver thread event},
    moments = pre ++ first :: (mid ++ last :: post) →
    (driver, .published m (.pauseStarted driver)) ∈ first.observed →
    (thread, .published m event) ∈ last.observed →
    event = .pauseStarted thread ∨
      (∃ participants duration, event = .pauseCompleted driver participants duration) →
    (driver, .cleared (.pause m)) ∈ observations mid
  /-- The pauses of each driver show as pairs of a start and an end, but for the last of them, whose end
  may be yet to come. -/
  pairs : ∀ driver, ∃ pauses : List (Nat × Nat),
    pauseEvents m driver moments <+: pauses.flatMap (pausePair driver)
  /-- A subscriber receives what is published while it is there, in that order, and nothing else. -/
  streams : ∀ {before after x s}, moments = before ++ after → Course Tame w before x →
    Course Tame x after v → s.manager = m →
    (∀ moment ∈ after, s ∈ moment.world.subscriptions) → s ∈ v.subscriptions →
    v.received s = x.received s ++ eventsOf m after

section

variable {m : ManagerId} {self thread driver : ThreadId} {w v : World} {frame : Frame}
  {rest : List Frame} {effect : Effect} {notes : List Note} {moments : List Moment} {event : Event}

theorem Note.event?_eq_some {note : Note} : note.event? m = some event ↔ note = .published m event := by
  cases note with
  | published n other =>
    by_cases same : n = m <;> simp [Note.event?, same]
  | _ => simp [Note.event?]

/-- Where a driver stands that announces the start of a pause, or the end. -/
theorem World.announces (moves : w.move (.run self) = some (v, notes))
    (told : .published m event ∈ notes) (pause : event.isPause = true) :
    ∃ p rest, w.stack self = .pausing p :: rest ∧ p.manager = m ∧ event.thread = self ∧
      (p.point = .announceStart ∧ event = .pauseStarted self ∧
          v.stack self = .pausing { p with point := .store } :: rest ∨
        p.point = .announceEnd ∧ event = .pauseCompleted self p.participants p.duration) := by
  obtain ⟨frame, rest, effect, stack, step, rfl, rfl⟩ := World.step_eq_some moves
  have mem : event ∈ effect.notes.filterMap (Note.event? m) :=
    List.mem_filterMap.mpr ⟨_, Effect.told told (by simp), Note.event?_eq_some.mpr rfl⟩
  cases Frame.announces (m := m) step with
  | silent quiet => simp [quiet] at mem
  | enters _ _ _ _ single | leaves _ _ _ _ single =>
    rw [single, List.mem_singleton] at mem
    simp [mem, Event.isPause] at pause
  | @starts p top manager point single control =>
    rw [single, List.mem_singleton] at mem
    exact ⟨p, rest, top ▸ stack, manager, mem ▸ rfl, .inl ⟨point, mem, by
      rw [World.stack_setStack, if_pos rfl, control]; rfl⟩⟩
  | @completes p top manager point single control =>
    rw [single, List.mem_singleton] at mem
    exact ⟨p, rest, top ▸ stack, manager, mem ▸ rfl, .inr ⟨point, mem⟩⟩

namespace World.Tended

/-- Whoever gives the pause lock back shows it. -/
theorem clears {move : Move} (tended : w.Tended m) (tame : ∀ thread, move = .run thread → Tame w thread)
    (moves : w.move move = some (v, notes)) (owned : (w.manager m).pauseLock.owner = some thread)
    (released : (v.manager m).pauseLock.owner ≠ some thread) :
    (thread, .cleared (.pause m)) ∈ (⟨w, move, notes⟩ : Moment).observed := by
  obtain ⟨rfl, -, -⟩ := tended.gives_back tame moves owned released
  obtain ⟨frame, rest, effect, stack, step, rfl, rfl⟩ := World.step_eq_some moves
  have owner : (w.lock (.pause m)).owner = some thread := owned
  have gone : (effect.world.lock (.pause m)).owner ≠ some thread := released
  refine Moment.mem_observed.mpr ⟨rfl, List.mem_append_left _ ?_⟩
  have handles : effect.Handles (.pause m) thread w frame := Frame.handles step
  cases handles with
  | keeps same | enters _ _ _ _ _ same | exits _ _ _ same | awaits _ _ _ _ same | notifies same =>
    exact absurd (by rw [same]; exact owner) gone
  | takes _ _ _ _ free => exact absurd (free.symm.trans owner) (by simp)
  | tries _ own | leaves own => simp at own
  | clears top isOpen =>
    subst top
    simp only [Frame.advance, Release.advance, isOpen, if_true] at step
    obtain rfl := Option.some.inj step
    simp

/-- The driver that announces the start of a pause owns the pause lock, before and after. -/
theorem owner_of_starts {p : Pausing} (tended : w.Tended m) (stack : w.stack thread = .pausing p :: rest)
    (manager : p.manager = m) (drives : p.point.drives = true) :
    (w.manager m).pauseLock.owner = some thread := by
  rw [tended.owner, stack]
  simp [Frame.hold, manager, drives]

/-- The driver that announces the end of a pause does not own the pause lock. -/
theorem not_owner_of_ends {p : Pausing} (tended : w.Tended m)
    (stack : w.stack thread = .pausing p :: rest) (manager : p.manager = m)
    (point : p.point = .announceEnd) : (w.manager m).pauseLock.owner ≠ some thread := by
  have straight : Straight m thread (.pausing p :: rest) := stack ▸ tended.straight thread
  rw [Ne, tended.owner, stack, holdOf_cons]
  simp [Frame.hold, point, Pausing.Point.drives, straight.1.2 manager (by simp [point])]

/-- As long as the owner of the pause lock does not show that it gives it back, it owns it, and the end
of its pause is not announced. -/
theorem stays (tended : w.Tended m) (course : Course Tame w moments v)
    (owned : (w.manager m).pauseLock.owner = some thread)
    (announced : w.isAnnounced m thread = true)
    (kept : (thread, .cleared (.pause m)) ∉ observations moments) :
    v.Tended m ∧ (v.manager m).pauseLock.owner = some thread ∧ v.isAnnounced m thread = true := by
  induction course with
  | nil => exact ⟨tended, owned, announced⟩
  | @snoc moments x y move notes _ tame moves ih =>
    rw [observations_append, observations_cons, List.mem_append, not_or] at kept
    obtain ⟨tended, owner, announced⟩ := ih kept.1
    refine ⟨tended.move tame moves, by_contra fun released => kept.2 ?_, ?_⟩
    · exact List.mem_append_left _ (tended.clears tame moves owner released)
    by_cases own : move = .run thread
    · subst own
      have publishes := tended.publishes moves
      rw [announced] at publishes
      generalize told : notes.filterMap (Note.event? m) = events at publishes
      generalize y.isAnnounced m thread = after at publishes ⊢
      cases publishes with
      | silent | enters | leaves => rfl
      | completes participants duration =>
        have mem : .published m (.pauseCompleted thread participants duration) ∈ notes := by
          have mem : .pauseCompleted thread participants duration ∈
              notes.filterMap (Note.event? m) := by simp [told]
          obtain ⟨note, mem, is_event⟩ := List.mem_filterMap.mp mem
          exact Note.event?_eq_some.mp is_event ▸ mem
        obtain ⟨p, rest, stack, manager, -, ⟨-, event, -⟩ | ⟨point, -⟩⟩ :=
          World.announces moves mem rfl
        · simp at event
        · exact absurd owner (tended.not_owner_of_ends stack manager point)
    · exact (World.isAnnounced_other moves own).trans announced

end World.Tended

/-- Between the announcements of two starts, and between that of a start and that of the end, the driver
gives the pause lock back. -/
theorem Course.releases {pre mid post : List Moment} {first last : Moment} (fresh : w.IsFresh m)
    (course : Course Tame w moments v) (parts : moments = pre ++ first :: (mid ++ last :: post))
    (starts : (driver, .published m (.pauseStarted driver)) ∈ first.observed)
    (next : (thread, .published m event) ∈ last.observed)
    (either : event = .pauseStarted thread ∨
      ∃ participants duration, event = .pauseCompleted driver participants duration) :
    (driver, .cleared (.pause m)) ∈ observations mid := by
  by_contra kept
  obtain ⟨x, before, tame, moved, after⟩ := course.split parts
  obtain ⟨y, during, tame', moved', -⟩ := after.split rfl
  obtain ⟨runs, told⟩ := Moment.mem_observed.mp starts
  obtain ⟨runs', told'⟩ := Moment.mem_observed.mp next
  have tended : x.Tended m := (before.tended fresh).move tame moved
  rw [runs] at moved
  rw [runs'] at moved'
  obtain ⟨p, rest, -, manager, -, ⟨-, -, stack⟩ | ⟨-, ends⟩⟩ := World.announces moved told rfl
  swap
  · simp at ends
  have owner := tended.owner_of_starts stack manager rfl
  have announced : x.isAnnounced m driver = true := by
    simp [World.isAnnounced, stack, Frame.drivesAt, manager, Pausing.Point.isAnnounced]
  obtain ⟨tended, owner, announced⟩ := tended.stays during owner announced kept
  have pause : event.isPause = true := by obtain rfl | ⟨_, _, rfl⟩ := either <;> rfl
  obtain ⟨q, rest, stack, manager, named, ⟨point, event_eq, -⟩ | ⟨point, event_eq⟩⟩ :=
    World.announces moved' told' pause
  · -- The next start: its driver owns the lock, and so is the one that is not done.
    have owner' := tended.owner_of_starts stack manager (by simp [point, Pausing.Point.drives])
    obtain rfl := Option.some.inj (owner.symm.trans owner')
    have straight : Straight m driver (.pausing q :: rest) := stack ▸ tended.straight driver
    have away := straight.alone manager (by simp [point])
    rw [World.isAnnounced, stack, List.any_cons, away, Bool.or_false] at announced
    simp [Frame.drivesAt, point, Pausing.Point.isAnnounced] at announced
  · obtain rfl | ⟨_, _, rfl⟩ := either
    · simp at event_eq
    · obtain rfl : driver = thread := named
      exact tended.not_owner_of_ends stack manager point owner

/-- The pause events of a driver are a prefix of pairs of a start and an end. -/
theorem Course.pairs (fresh : w.IsFresh m) (course : Course Tame w moments v) (driver : ThreadId) :
    ∃ pauses : List (Nat × Nat), pauseEvents m driver moments <+: pauses.flatMap (pausePair driver) := by
  obtain ⟨pauses, told⟩ := course.paired fresh driver
  rw [told]
  split
  · exact ⟨pauses ++ [(0, 0)], by simp [pausePair, List.prefix_append_right_inj]⟩
  · exact ⟨pauses, by simp⟩

/-- The starts of pauses are announced one after the other, each once the lock of the one before has been
given back, and the pauses of each driver in full before its next. All this is so as long as no callback
that a driver runs unwinds. -/
theorem pauses_in_order (fresh : w.IsFresh m) (tuned : w.IsTuned)
    (course : Course Tame w moments v) : PauseOrder m w moments v where
  releases := course.releases fresh
  pairs := course.pairs fresh
  streams := by
    rintro before after x s - first second rfl there stays
    exact second.received (first.isTuned tuned) there stays

theorem World.pair_isTuned : World.pair.IsTuned := by
  have bus (m : ManagerId) : (World.pair.manager m).bus = {} := by
    unfold World.pair World.initial World.manager
    rw [Table.get_ofList]
    cases m <;> rfl
  exact ⟨fun m channel mem => by simp [bus] at mem, by simp [World.pair, World.initial],
    by simp [World.pair, World.initial]⟩

/-- The first thread drives a pause and has just given the pause lock back when the second one begins a
pause of its own. Only then does it announce that its pause is over. -/
def overtakingPauses : List Move :=
  Move.repeated [
    (1, .submit 0 (.enter 0)), (14, .run 0), (1, .submit 1 (.enter 0)), (14, .run 1),
    (1, .submit 0 (.access (.subscribe 0 "s"))), (1, .run 0),
    (1, .submit 0 (.pauseWith 0 false [.log "a"])), (25, .run 0),
    (1, .submit 1 (.pollFree 0)), (9, .run 1), (11, .run 0), (15, .run 1), (8, .run 0),
    (1, .submit 1 (.pauseWith 0 false [.log "b"])), (25, .run 1), (8, .run 0),
    (1, .submit 0 (.pollFree 0)), (9, .run 0), (11, .run 1), (15, .run 0), (16, .run 1)]

theorem World.exists_overtaking : ∃ moments v s,
    Course (fun w t => Orderly 0 w t ∧ Tame w t) World.pair moments v ∧
    v.subscriptions = [s] ∧ s.manager = 0 ∧
    v.received s = [.pauseStarted 0, .pauseStarted 1, .pauseCompleted 0 2 0, .pauseCompleted 1 2 0] := by
  have made : (World.pair.follow (fun w t => w.isOrderly 0 t && w.isTame t) overtakingPauses).any
      (fun made => decide (made.2.subscriptions = [⟨"s", 0, 0⟩]) &&
        decide (made.2.received ⟨"s", 0, 0⟩ =
          [.pauseStarted 0, .pauseStarted 1, .pauseCompleted 0 2 0, .pauseCompleted 1 2 0])) = true := by
    decide +kernel
  obtain ⟨⟨moments, v⟩, follows, state⟩ := (Option.any_eq_true _ _).mp made
  simp only [Bool.and_eq_true, decide_eq_true_eq] at state
  have course : Course (fun w t => Orderly 0 w t ∧ Tame w t) World.pair moments v :=
    World.course_of_follow (fun w t checked => by
      rw [Bool.and_eq_true] at checked
      exact ⟨World.orderly_of_isOrderly 0 w t checked.1, World.tame_of_isTame checked.2⟩) follows
  exact ⟨moments, v, _, course, state.1, rfl, state.2⟩

/-- Each of the two pauses shows as a pair, and is over before the same driver begins another, although
the second begins before the end of the first is announced. -/
theorem pauses_in_order_overtaking : ∃ moments v s, World.pair.IsFresh 0 ∧ World.pair.IsTuned ∧
    Course Tame World.pair moments v ∧ v.subscriptions = [s] ∧
    v.received s = [.pauseStarted 0, .pauseStarted 1, .pauseCompleted 0 2 0, .pauseCompleted 1 2 0] ∧
    PauseOrder 0 World.pair moments v := by
  obtain ⟨moments, v, s, course, subscribed, -, received⟩ := World.exists_overtaking
  have tame := course.mono fun _ _ both => both.2
  exact ⟨moments, v, s, World.pair_isFresh, World.pair_isTuned, tame, subscribed, received,
    pauses_in_order World.pair_isFresh World.pair_isTuned tame⟩

/-- In the stream of a subscriber the start of a pause can come between the start and the end of that of
another driver, in a run of orderly user code in which nothing unwinds. -/
theorem pauses_overlap : ∃ moments v s before between after, World.pair.IsFresh 0 ∧
    Course (Orderly 0) World.pair moments v ∧ Course Tame World.pair moments v ∧
    s ∈ v.subscriptions ∧ s.manager = 0 ∧
    v.received s = before ++ .pauseStarted 0 :: (between ++ .pauseCompleted 0 2 0 :: after) ∧
    .pauseStarted 1 ∈ between := by
  obtain ⟨moments, v, s, course, subscribed, manager, received⟩ := World.exists_overtaking
  exact ⟨moments, v, s, [], [.pauseStarted 1], [.pauseCompleted 1 2 0], World.pair_isFresh,
    course.mono fun _ _ both => both.1, course.mono fun _ _ both => both.2, by simp [subscribed],
    manager, received, by simp⟩

end

end StopTheWorld
