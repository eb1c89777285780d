import StopTheWorld.Proofs.ActionOnce
import StopTheWorld.Proofs.Driver
import StopTheWorld.Proofs.PauseCall
import StopTheWorld.Proofs.PauseState

namespace StopTheWorld

/-! Pauses of one manager come one after the other. -/

/-- The note tells that the pause lock was taken or given back. -/
def Note.locks (m : ManagerId) : Note → Bool
  | took lock _ | cleared lock => lock = .pause m
  | _ => false

/-- What is told of the pause lock when these threads have owned it, one after the other. -/
def tenures (m : ManagerId) (owners : List ThreadId) : List (ThreadId × Note) :=
  owners.flatMap fun owner => [(owner, .took (.pause m) owner), (owner, .cleared (.pause m))]

/-- Nobody takes the pause lock before the one who took it last has given it back. -/
def Core.Held (m : ManagerId) (core : Core) (history : List (ThreadId × Note)) : Prop :=
  ∃ owners : List ThreadId, history.filter (·.2.locks m) =
    tenures m owners ++ core.owner.toList.map fun owner => (owner, .took (.pause m) owner)

/-- The thread starts an action of the `k`-th pause, which is the last that has begun. -/
structure Moment.Starts (m : ManagerId) (thread : ThreadId) (k : Nat) (before : List Moment)
    (moment : Moment) : Prop where
  starts : ∃ record bound, (thread, .action m record bound) ∈ moment.observed
  begun : Invalidated m before k
  last : ¬ Invalidated m before (k + 1)

/-- The thread is in a call that drives a pause and has found itself registered, but the pause lock
is not its own. -/
structure World.Waits (m : ManagerId) (w : World) (thread : ThreadId) : Prop where
  calls : ∃ p, Frame.pausing p ∈ w.stack thread ∧ p.manager = m ∧ p.point.relies = true
  owner : (w.manager m).pauseLock.owner ≠ some thread

instance (m : ManagerId) (w : World) (thread : ThreadId) : Decidable (w.Waits m thread) :=
  decidable_of_iff ((∃ p, Frame.pausing p ∈ w.stack thread ∧ p.manager = m ∧
      p.point.relies = true) ∧ (w.manager m).pauseLock.owner ≠ some thread)
    ⟨fun ⟨calls, owner⟩ => ⟨calls, owner⟩, fun ⟨calls, owner⟩ => ⟨calls, owner⟩⟩

section

variable {m : ManagerId} {w v : World} {thread : ThreadId} {moments : List Moment}

theorem Scene.Lawful.held {s s' : Scene} {deed : Deed} {history : List (ThreadId × Note)}
    (lawful : s.Lawful) (held : s.core.Held m history) (moves : s.Moves thread deed s') :
    s'.core.Held m (history ++ (s.core.notes m thread deed).map ((thread, ·))) := by
  obtain ⟨owners, told⟩ := held
  have admits := lawful.admits thread
  have advances := moves.advances
  rw [moves.core]
  generalize s.posture thread = before at advances admits
  generalize s'.posture thread = after at advances
  have kept (owner : (s.core.after thread deed).owner = s.core.owner)
      (silent : ((s.core.notes m thread deed).map ((thread, ·))).filter (·.2.locks m) = []) :
      (s.core.after thread deed).Held m
        (history ++ (s.core.notes m thread deed).map ((thread, ·))) := by
    refine ⟨owners, ?_⟩
    rw [List.filter_append, silent, List.append_nil, owner, told]
  cases advances with
  | drive free | own free =>
    refine ⟨owners, ?_⟩
    rw [List.filter_append, told, free]
    simp [Core.notes, Core.after, Note.locks]
  | free =>
    have owner : s.core.owner = some thread := admits.owner.mp rfl
    refine ⟨owners ++ [thread], ?_⟩
    rw [List.filter_append, told, owner]
    simp [Core.notes, Core.after, Note.locks, tenures]
  | wait early => exact kept rfl (by simp [Core.notes, Note.locks, early])
  | complete last => exact kept rfl (by simp [Core.notes, Note.locks, last])
  | depart =>
    refine kept rfl ?_
    simp only [Core.notes]
    split <;> simp [Note.locks]
  | _ => exact kept rfl (by simp [Core.notes, Note.locks])

theorem Course.held (course : Course (Orderly m) w moments v) (fresh : w.IsFresh m) :
    (v.core m).Held m (told m moments) := by
  refine course.tells (P := fun history s => s.core.Held m history)
    (fun lawful held moves => lawful.held held moves) fresh.coherent ⟨[], ?_⟩
  simp [World.scene, World.core, Manager.core, fresh.new.pauseLock, tenures]

theorem Scene.Lawful.pauses_of_second {s s' : Scene} {deed : Deed} (lawful : s.Lawful)
    (moves : s.Moves thread deed s') (second : s.core.phaser.phase = 3 * s.core.pauses + 2) :
    s'.core.pauses = s.core.pauses := by
  have admits := lawful.admits thread
  have advances := moves.advances
  rw [moves.core]
  generalize s.posture thread = before at advances admits
  generalize s'.posture thread = after at advances
  cases advances with
  | account =>
    have stands : s.core.Stands true 1 none 3 := admits.demands rfl
    have phase := stands.phase
    omega
  | _ => rfl

theorem Course.pauses_of_second (course : Course (Orderly m) w moments v) (coherent : w.Coherent m)
    (second : ∀ moment ∈ moments,
      (moment.world.core m).phaser.phase = 3 * (moment.world.core m).pauses + 2) :
    (v.core m).pauses = (w.core m).pauses := by
  induction course with
  | nil => rfl
  | @snoc moments v u move notes before orderly moves ih =>
    have here := second ⟨v, move, notes⟩ (List.mem_append_right _ List.mem_cons_self)
    have reached := before.coherent coherent
    obtain ⟨-, turns⟩ := reached.move orderly moves
    rw [← ih fun moment mem => second moment (List.mem_append_left _ mem)]
    have scene : u.core m = (u.scene m).core := rfl
    rw [scene]
    generalize u.scene m = scene at turns
    cases turns with
    | run turn => exact reached.lawful.pauses_of_second turn here
    | idle => rfl

theorem Core.Turned.invalidated_iff_lt {core : Core} {k : Nat}
    (turned : core.Turned m (told m moments)) (valid : core.epoch.valid = true) :
    Invalidated m moments k ↔ k < core.epoch.generation := by
  obtain ⟨drivers, count, state⟩ := turned
  obtain ⟨-, filtered⟩ := state.resolve_right (by simp [valid])
  rw [invalidated_iff, filtered, mem_turnover_invalidated, count]

/-- An action of the `k`-th pause starts when `k` pauses are over, between the second phase of the
pause and the third. -/
theorem Moment.Starts.within {moment : Moment} {before : List Moment} {k : Nat}
    (starts : moment.Starts m thread k before) (fresh : w.IsFresh m)
    (course : Course (Orderly m) w before moment.world)
    (orderly : ∀ self, moment.move = .run self → Orderly m moment.world self)
    (moves : moment.world.move moment.move = some (v, moment.notes)) :
    (moment.world.core m).pauses = k ∧
      (moment.world.core m).phaser.phase = 3 * (moment.world.core m).pauses + 2 ∧
      Acts m (v.stack thread) := by
  obtain ⟨record, bound, observed⟩ := starts.starts
  obtain ⟨runs, noted⟩ := Moment.mem_observed.mp observed
  rw [runs] at moves
  obtain ⟨action, stands, acts, -⟩ :=
    (course.coherent fresh.coherent).starts (orderly thread runs) moves noted
  have turned := course.turned fresh
  have begun := (turned.invalidated_iff_lt stands.valid).mp starts.begun
  have last := (turned.invalidated_iff_lt stands.valid).not.mp starts.last
  have generation := stands.generation
  exact ⟨by omega, stands.phase, acts⟩

theorem Scene.Moves.free_of_took {s s' : Scene} {self owner : ThreadId} {deed : Deed}
    (moves : s.Moves self deed s') (mem : Note.took (.pause m) owner ∈ s.core.notes m self deed) :
    s.core.owner = none := by
  have advances := moves.advances
  generalize s.posture self = before at advances
  generalize s'.posture self = after at advances
  cases advances with
  | drive free | own free => exact free
  | wait | complete | depart =>
    simp only [Core.notes] at mem
    split at mem <;> simp at mem
  | _ => simp [Core.notes] at mem

/-- Whoever waits for the pause lock from the beginning of a pause until the lock is free again takes
part in the pause. -/
theorem Course.attends {pause : Pause} (course : Course (Orderly m) w moments v)
    (coherent : w.Coherent m) (recounts : (w.scene m).Recounts m pause [])
    (waits : ∀ moment ∈ moments, moment.world.Waits m thread) (free : (v.core m).owner = none) :
    (thread, .joined m false) ∈ observations moments ∧ ∀ round < 3,
      (thread, .arrived (.registry (.manager m)) (3 * pause.number + round)) ∈
        observations moments := by
  -- The driver has given the lock back, so it has come out of the phases before.
  have ended : (pause.driver, .finished m true) ∈ observations moments := by
    by_contra on
    have owner := (course.recounts coherent recounts on).toUnderway.owner
      (course.coherent coherent).lawful
    have free : (v.scene m).core.owner = none := free
    simp [free] at owner
  obtain ⟨before, moment, after, rfl, on, finished⟩ := exists_first_observed ended
  obtain ⟨next, reach, orderly, moved, -⟩ := course.split rfl
  have reached := reach.coherent coherent
  have recounts := reach.recounts coherent recounts on
  obtain ⟨runs, noted⟩ := Moment.mem_observed.mp finished
  rw [runs] at moved
  have third : (moment.world.core m).phaser.phase = 3 * pause.number + 3 := by
    have round := (reached.finished thread (orderly _ runs) moved noted).1
    have number : (moment.world.core m).pauses = pause.number := recounts.number
    simp only [Bool.true_eq_false, and_false, or_false] at round
    omega
  obtain ⟨⟨p, mem, -, relies⟩, disowned⟩ := waits moment (by simp)
  have here : thread ∈ (moment.world.core m).identities := reached.registered mem relies
  have other : thread ≠ pause.driver := by
    intro same
    subst same
    exact disowned (recounts.toUnderway.owner reached.lawful)
  have earlier {entry : ThreadId × Note} (mem : entry ∈ told m before) :
      entry ∈ observations (before ++ moment :: after) := by
    rw [observations_append]
    exact List.mem_append_left _ (List.mem_filter.mp mem).1
  constructor
  · have joined := recounts.joined thread (.inr ⟨third.symm ▸ by omega, here⟩)
    rw [decide_eq_false other] at joined
    exact earlier joined
  · intro round le
    exact earlier (recounts.arrived thread round (.inr ⟨third.symm ▸ by omega, here⟩))

/-- The pause lock is owned by one thread after another. An action of one pause is over, on every
thread, before an action of another starts. A thread that waits for the pause lock from the beginning
of a pause until it takes the lock takes part in that pause, without driving it, in between. A call
to drive a pause that succeeds has conducted one pause, with its own action, and one that fails has
conducted none. -/
theorem pauses_serialised (fresh : w.IsFresh m) (course : Course (Orderly m) w moments v) :
    (∃ owners : List ThreadId, (observations moments).filter (·.2.locks m) =
      tenures m owners ++ (v.manager m).pauseLock.owner.toList.map fun owner =>
        (owner, .took (.pause m) owner)) ∧
    (∀ pre first mid second post thread other k k',
      moments = pre ++ first :: (mid ++ second :: post) →
      first.Starts m thread k pre → second.Starts m other k' (pre ++ first :: mid) → k ≠ k' →
      (∃ next, first.world.move first.move = some (next, first.notes) ∧
        Acts m (next.stack thread)) ∧
      ∃ moment ∈ mid ++ [second], ¬ Acts m (moment.world.stack thread)) ∧
    (∀ pre first mid last post thread driver k,
      moments = pre ++ first :: (mid ++ last :: post) →
      (driver, .invalidated m k) ∈ first.observed →
      (∀ moment ∈ mid, moment.world.Waits m thread) →
      (thread, .took (.pause m) thread) ∈ last.observed →
      (thread, .joined m false) ∈ observations mid ∧ ∀ round < 3,
        (thread, .arrived (.registry (.manager m)) (3 * k + round)) ∈ observations mid) ∧
    ∀ pre first mid last post thread p rest value,
      moments = pre ++ first :: (mid ++ last :: post) →
      first.world.stack thread = .pausing p :: rest → p.manager = m → p.point = .gate →
      (∀ moment ∈ mid, rest.length < (moment.world.stack thread).length) →
      last.Replies thread rest value →
      (∃ failure, value = .failed failure) ∧
          conducted m thread (rest.length + 1) (first :: mid) = [] ∨
        value = .succeeded .nothing ∧ ∃ k,
          conducted m thread (rest.length + 1) (first :: mid) = conduct m k ∧
            ∃ moment ∈ first :: mid, moment.Begins m thread p.action rest k := by
  have coherent := fresh.coherent
  refine ⟨?_, ?_, ?_, ?_⟩
  · have filtered : (told m moments).filter (·.2.locks m) =
        (observations moments).filter (·.2.locks m) := by
      refine told_filter fun entry locks => ?_
      obtain ⟨thread, note⟩ := entry
      cases note <;> simp_all [Note.locks, Note.tellsOf]
    rw [← filtered]
    exact course.held fresh
  · intro pre first mid second post thread other k k' parts starts later ne
    obtain ⟨next, before, orderly, moved, -⟩ := course.split parts
    obtain ⟨number, phase, acts⟩ := starts.within fresh before orderly moved
    refine ⟨⟨next, moved, acts⟩, ?_⟩
    by_contra lasting
    have lasting (moment : Moment) (mem : moment ∈ mid ++ [second]) :
        Acts m (moment.world.stack thread) := by
      by_contra ended
      exact lasting ⟨moment, mem, ended⟩
    have parts' : moments = (pre ++ first :: mid) ++ second :: post := by simp [parts]
    obtain ⟨next', reach, orderly', moved', -⟩ := course.split parts'
    obtain ⟨number', -, -⟩ := later.within fresh reach orderly' moved'
    have between := course.between parts
    have reached := before.coherent coherent
    -- As long as the first thread runs its action, no other pause comes to be counted.
    have kept : (second.world.core m).pauses = (first.world.core m).pauses := by
      refine between.pauses_of_second reached fun moment mem => ?_
      obtain rfl | mem := List.mem_cons.mp mem
      · exact phase
      · obtain ⟨earlier, rest, rfl⟩ := List.append_of_mem mem
        have parts'' : first :: (earlier ++ moment :: rest) =
            (first :: earlier) ++ moment :: rest := rfl
        obtain ⟨-, during, -, -, -⟩ := between.split parts''
        exact (during.coherent reached).acts (lasting moment (by simp))
    exact ne (by rw [← number, ← number', kept])
  · intro pre first mid last post thread driver k parts begins waits takes
    obtain ⟨next, before, orderly, moved, after⟩ := course.split parts
    obtain ⟨runs, noted⟩ := Moment.mem_observed.mp begins
    rw [runs] at moved
    obtain ⟨begun, -, p, rest, -, -, -, recounts⟩ :=
      (before.coherent coherent).begins (orderly driver runs) moved noted
    obtain ⟨u, during, orderly', moved', -⟩ := after.split rfl
    refine during.attends begun recounts waits ?_
    obtain ⟨runs', noted'⟩ := Moment.mem_observed.mp takes
    obtain ⟨self, deed, -, moves, told⟩ := (during.coherent begun).telling orderly' moved' noted'
      (by simp [Note.tellsOf])
    exact moves.free_of_took told
  · intro pre first mid last post thread p rest value parts stack manager gate within replies
    obtain ⟨next, before, -, -, -⟩ := course.split parts
    have between := course.between parts
    have here : rest.length < (first.world.stack thread).length := by simp [stack]
    have there : rest.length < (last.world.stack thread).length := by
      obtain ⟨frame, effect, stack', -⟩ := replies.stands
      simp [stack']
    refine (between.calling (before.coherent coherent) stack manager gate ?_ there).replies replies
    exact List.forall_mem_cons.mpr ⟨here, within⟩

/-- Both threads register, and the second waits to drive a pause of its own while the first drives
one. The first joins the pause of the second by a poll. -/
def pausesOfTwo : List Move :=
  Move.repeated [
    (1, .submit 0 (.enter 0)), (14, .run 0), (1, .submit 1 (.enter 0)), (14, .run 1),
    (1, .submit 0 (.pauseWith 0 false [.log "a"])), (6, .run 0),
    (1, .submit 1 (.pauseWith 0 false [.log "b"])), (9, .run 1), (20, .run 0), (12, .run 1),
    (11, .run 0), (21, .run 1), (16, .run 0), (20, .run 1),
    (1, .submit 0 (.pollFree 0)), (9, .run 0), (11, .run 1), (15, .run 0), (16, .run 1)]

/-- Whether the stack is that of a thread which is at the beginning of a call to drive a pause. -/
def isAtGate (m : ManagerId) : List Frame → Bool
  | [.pausing p] => p.manager = m && p.point = .gate
  | _ => false

theorem isAtGate_iff {m : ManagerId} {stack : List Frame} :
    isAtGate m stack = true ↔ ∃ p, stack = [.pausing p] ∧ p.manager = m ∧ p.point = .gate := by
  unfold isAtGate
  split <;> simp_all

/-- Whether the thread is at the end of an operation that it was told to perform, which succeeds
with no answer. -/
def Moment.succeeds (thread : ThreadId) (moment : Moment) : Bool :=
  match moment.move, moment.world.stack thread with
  | .run self, [.answer (.succeeded .nothing)] => self = thread
  | _, _ => false

theorem Moment.replies_of_succeeds {moment : Moment} (succeeds : moment.succeeds thread = true) :
    moment.Replies thread [] (.succeeded .nothing) := by
  unfold Moment.succeeds at succeeds
  split at succeeds
  · rename_i self runs stack
    obtain rfl : self = thread := of_decide_eq_true succeeds
    exact ⟨runs, _, _, stack, rfl, rfl⟩
  · simp at succeeds

/-- The second of two threads takes part in the pause of the first while it waits for its own, and
its call conducts one pause. -/
theorem pauses_serialised_pausesOfTwo : ∃ moments v, World.pair.IsFresh 0 ∧
    Course (Orderly 0) World.pair moments v ∧
    (∃ pre first mid last post, moments = pre ++ first :: (mid ++ last :: post) ∧
      (0, .invalidated 0 0) ∈ first.observed ∧ (∀ moment ∈ mid, moment.world.Waits 0 1) ∧
      (1, .took (.pause 0) 1) ∈ last.observed ∧ (1, .joined 0 false) ∈ observations mid) ∧
    ∃ pre first mid last post p, moments = pre ++ first :: (mid ++ last :: post) ∧
      first.world.stack 1 = [.pausing p] ∧ last.Replies 1 [] (.succeeded .nothing) ∧
      ∃ k, conducted 0 1 1 (first :: mid) = conduct 0 k := by
  have made : (World.pair.follow (World.isOrderly 0) pausesOfTwo).any (fun made =>
      made.1[51]?.any (fun first => shows 0 (·.isInvalidation 0 0) first.observed) &&
      (made.1.drop 52)[75]?.any (fun last =>
        shows 1 (·.isTaking (.pause 0) 1) last.observed) &&
      ((made.1.drop 52).take 75).all (fun moment => moment.world.Waits 0 1) &&
      made.1[39]?.any (fun first => isAtGate 0 (first.world.stack 1)) &&
      (made.1.drop 40)[158]?.any (·.succeeds 1) &&
      ((made.1.drop 40).take 158).all (fun moment => 0 < (moment.world.stack 1).length)) =
        true := by
    decide +kernel
  obtain ⟨⟨moments, v⟩, follows, state⟩ := (Option.any_eq_true _ _).mp made
  simp only [Bool.and_eq_true, Option.any_eq_true, List.all_eq_true, decide_eq_true_eq] at state
  obtain ⟨⟨⟨⟨⟨⟨first, found, invalidates⟩, last, found', acquires⟩, waits⟩, enter, entered,
    gate⟩, answer, answered, replies⟩, within⟩ := state
  have course := World.course_of_follow (World.orderly_of_isOrderly 0) follows
  have parts : moments = _ ++ first :: (_ ++ last :: _) :=
    (eq_take_cons_drop found).trans (congrArg (_ ++ first :: ·) (eq_take_cons_drop found'))
  have parts' : moments = _ ++ enter :: (_ ++ answer :: _) :=
    (eq_take_cons_drop entered).trans (congrArg (_ ++ enter :: ·) (eq_take_cons_drop answered))
  have begun : (0, Note.invalidated 0 0) ∈ first.observed :=
    (shows_iff Note.isInvalidation_iff).mp invalidates
  have taken : (1, Note.took (.pause 0) 1) ∈ last.observed :=
    (shows_iff Note.isTaking_iff).mp acquires
  obtain ⟨p, stack, manager, point⟩ := isAtGate_iff.mp gate
  have done := Moment.replies_of_succeeds replies
  obtain ⟨-, -, attends, conducts⟩ := pauses_serialised World.pair_isFresh course
  refine ⟨moments, v, World.pair_isFresh, course, ⟨_, first, _, last, _, parts, begun, waits, taken,
    (attends _ first _ last _ 1 0 0 parts begun waits taken).1⟩,
    _, enter, _, answer, _, p, parts', stack, done, ?_⟩
  obtain ⟨⟨failure, failed⟩, -⟩ | ⟨-, k, told, -⟩ :=
    conducts _ enter _ answer _ 1 p [] _ parts' stack manager point within done
  · simp at failed
  · exact ⟨k, told⟩

end

end StopTheWorld
