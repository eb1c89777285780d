import StopTheWorld.Proofs.Delivery
import StopTheWorld.Proofs.Possession

namespace StopTheWorld

/-! What becomes of an action that is queued on a record: it stays where it is in the queue until a drain
takes the queue as a whole, and that drain starts it, once, unless an action ahead of it unwinds. This
holds of every record, whatever user code does. -/

namespace Moment

/-- The action is queued on the record, behind those that are in the queue. -/
structure Queues (record : RecordId) (queue : List Deferred) (action : Deferred)
    (moment : Moment) : Prop where
  made : record < moment.world.nextRecord
  found : (moment.world.record record).deferred = queue
  noted : ∃ self, (self, .queued record action.tag) ∈ moment.observed
  grows : ∃ next, moment.world.move moment.move = some (next, moment.notes) ∧
    (next.record record).deferred = queue ++ [action]

/-- The thread takes what is queued on the record, all of it, by a drain on this stack. -/
structure Collects (thread : ThreadId) (below : List Frame) (record : RecordId)
    (batch : List Deferred) (moment : Moment) : Prop where
  runs : moment.move = .run thread
  drain : ∃ d, moment.world.stack thread = .drain d :: below ∧ d.record = record ∧ d.point = .take
  found : (moment.world.record record).deferred = batch

end Moment

/-- Whether the note is that the queue of the record is taken. -/
def Note.isDraining (record : RecordId) : Note → Bool
  | drained other _ => other = record
  | _ => false

/-- Nothing is taken from the queue of the record. -/
def Undrained (record : RecordId) (moments : List Moment) : Prop :=
  ∀ entry ∈ observations moments, entry.2.isDraining record = false

/-- A drain on this stack has these actions of the record left to start. -/
def Emptying (below : List Frame) (record : RecordId) (left : List Deferred)
    (stack : List Frame) : Prop :=
  ∃ above d, stack = above ++ .drain d :: below ∧ d.record = record ∧ d.point = .run ∧ d.queue = left

/-- Of the batch, the thread has started all but what is left, each action once. An action is known by
what comes behind it in the batch. -/
structure Spent (thread : ThreadId) (below : List Frame) (record : RecordId)
    (batch left : List Deferred) (moments : List Moment) : Prop where
  remains : left <:+ batch
  started : ∀ {action behind}, action :: behind <:+ batch → left.length ≤ behind.length →
    OnceIn (Moment.Serves thread below record action behind) moments
  waiting : ∀ {action behind}, behind.length < left.length →
    ∀ moment ∈ moments, ¬ moment.Serves thread below record action behind

section

variable {custom : World → ThreadId → Prop} {w v : World} {self thread : ThreadId}
  {frame : Frame} {rest below : List Frame} {record : RecordId} {move : Move} {notes : List Note}
  {moments : List Moment} {moment : Moment} {action : Deferred} {batch left behind : List Deferred}

theorem Undrained.of_append {first second : List Moment}
    (undrained : Undrained record (first ++ second)) :
    Undrained record first ∧ Undrained record second := by
  unfold Undrained at undrained
  rw [observations_append, List.forall_mem_append] at undrained
  exact undrained

theorem World.made_move (made : record < w.nextRecord) (moves : w.move move = some (v, notes)) :
    record < v.nextRecord :=
  (World.Owns.move ⟨made, rfl⟩ moves).made

theorem exists_drained {entries : List (ThreadId × Note)}
    (shown : shows thread (·.isDraining record) entries = true) :
    ∃ taken, (thread, .drained record taken) ∈ entries := by
  simp only [shows, List.any_eq_true, Bool.and_eq_true, decide_eq_true_eq] at shown
  obtain ⟨⟨self, note⟩, mem, rfl, drains⟩ := shown
  cases note with
  | drained other taken =>
    obtain rfl : other = record := by simpa [Note.isDraining] using drains
    exact ⟨taken, mem⟩
  | _ => simp [Note.isDraining] at drains

/-- Only a drain takes anything from a queue, and it tells. -/
theorem World.adds (made : record < w.nextRecord) (undrained : Undrained record [⟨w, move, notes⟩])
    (moves : w.move move = some (v, notes)) :
    (w.record record).deferred <+: (v.record record).deferred := by
  by_cases runs : ∃ self, move = .run self
  · obtain ⟨self, rfl⟩ := runs
    obtain ⟨frame, rest, effect, -, step, rfl, rfl⟩ := World.step_eq_some moves
    show _ <+: (effect.world.record record).deferred
    cases (Frame.books step).treats record made with
    | leaves same | sets same => simp [same]
    | queues same => simp [same]
    | @drains d drain own same =>
      subst drain
      simp only [Frame.advance, Drain.advance] at step
      split at step <;> obtain rfl := Option.some.inj step
      · have silent := undrained (self, .drained d.record (w.record d.record).deferred.length) (by simp)
        simp [Note.isDraining, own] at silent
      · exact List.prefix_rfl
      · exact List.prefix_rfl
  · have idle (thread : ThreadId) : move ≠ .run thread := fun same => runs ⟨thread, same⟩
    simp [World.record, (World.Tallies.of_idle idle moves).records]

/-- As long as nothing is taken from a queue, it only grows at its end. -/
theorem Course.adds (course : Course custom w moments v) (made : record < w.nextRecord)
    (undrained : Undrained record moments) :
    (w.record record).deferred <+: (v.record record).deferred := by
  induction course with
  | nil => exact List.prefix_rfl
  | @snoc moments v u move notes before _ moves ih =>
    obtain ⟨earlier, last⟩ := undrained.of_append
    have owns : w.Owns record (w.record record).thread := ⟨made, rfl⟩
    have reached : record < v.nextRecord := (before.owns owns).made
    exact (ih earlier).trans (World.adds reached last moves)

namespace Moment

/-- Whoever tells that an action has been queued has queued it. -/
theorem queues_of_observed {tag : Tag} (made : record < moment.world.nextRecord)
    (observed : (self, .queued record tag) ∈ moment.observed)
    (moves : moment.world.move moment.move = some (v, moment.notes)) :
    ∃ action, action.tag = tag ∧
      moment.Queues record (moment.world.record record).deferred action := by
  obtain ⟨runs, noted⟩ := mem_observed.mp observed
  obtain ⟨⟨action, named, grown⟩, -⟩ := World.queues (runs ▸ moves) noted
  exact ⟨action, named, made, rfl, ⟨self, named ▸ observed⟩, v, moves, grown⟩

/-- Whoever tells that a queue has been taken has taken it. -/
theorem collects_of_observed {taken : Nat} (observed : (thread, .drained record taken) ∈ moment.observed)
    (moves : moment.world.move moment.move = some (v, moment.notes)) :
    ∃ below, moment.Collects thread below record (moment.world.record record).deferred := by
  obtain ⟨runs, d, below, effect, stack, step, noted⟩ := World.drain_of_deferring moves observed rfl
  refine ⟨below, runs, ⟨d, stack, ?_⟩, rfl⟩
  simp only [Drain.advance] at step
  split at step <;> obtain rfl := Option.some.inj step
  · exact ⟨(Note.drained.inj (List.mem_singleton.mp noted)).1.symm, ‹_›⟩
  · simp at noted
  · simp at noted

/-- What has been taken is there to be started. -/
theorem Collects.emptying (collects : moment.Collects thread below record batch)
    (moves : moment.world.move moment.move = some (v, moment.notes)) :
    Emptying below record batch (v.stack thread) := by
  obtain ⟨d, stack, own, take⟩ := collects.drain
  obtain ⟨frame, rest, effect, stack', step, rfl, -⟩ := World.step_eq_some (collects.runs ▸ moves)
  obtain ⟨rfl, rfl⟩ := List.cons.inj (stack.symm.trans stack')
  simp only [Frame.advance, Drain.advance, take] at step
  obtain rfl := Option.some.inj step
  rw [World.stack_setStack, if_pos rfl]
  exact ⟨[], _, rfl, own, rfl, own ▸ collects.found⟩

end Moment

namespace Emptying

theorem length_lt (emptying : Emptying below record left rest) : below.length < rest.length := by
  obtain ⟨above, d, rfl, -⟩ := emptying
  simp
  omega

/-- The drain that a thread goes on with is the one on this stack, if it is as deep. -/
theorem of_length (emptying : Emptying below record left rest)
    (deep : rest.length = below.length + 1) :
    ∃ d, rest = .drain d :: below ∧ d.record = record ∧ d.point = .run ∧ d.queue = left := by
  obtain ⟨above, d, rfl, own, run, queue⟩ := emptying
  obtain rfl : above = [] := by
    rw [← List.length_eq_zero_iff]
    simpa using deep
  exact ⟨d, rfl, own, run, queue⟩

/-- What the thread starts from the drain is the first of what is left. -/
theorem serves_left (emptying : Emptying below record left (moment.world.stack thread))
    (serves : moment.Serves thread below record action behind) : left = action :: behind := by
  obtain ⟨d, stack, -, queue⟩ := serves.drain
  rw [stack] at emptying
  obtain ⟨d', same, -, -, rfl⟩ := emptying.of_length rfl
  obtain rfl := Frame.drain.inj (List.cons.inj same).1
  exact queue

/-- Other threads leave the drain as it is. -/
theorem other (emptying : Emptying below record left (w.stack thread)) (other : move ≠ .run thread)
    (moves : w.move move = some (v, notes)) : Emptying below record left (v.stack thread) := by
  obtain ⟨-, same | ⟨op, idle, -⟩ | ⟨top, top', rest, before, after, rouses⟩⟩ :=
    World.move_other moves other
  · exact same ▸ emptying
  · have lt := emptying.length_lt
    simp [idle] at lt
  · obtain ⟨above, d, stack, own, run, queue⟩ := emptying
    rw [before] at stack
    cases above with
    | nil =>
      obtain ⟨rfl, -⟩ := List.cons.inj stack
      cases rouses
    | cons head above =>
      obtain ⟨-, rfl⟩ := List.cons.inj stack
      exact ⟨top' :: above, d, after, own, run, queue⟩

/-- A step of the thread leaves the drain as it is, or starts the first of what is left, or ends the
drain; then nothing is left or what the drain has started unwinds. -/
theorem own (emptying : Emptying below record left (w.stack thread))
    (moves : w.move (.run thread) = some (v, notes)) :
    (Emptying below record left (v.stack thread) ∧ ∀ action behind,
      ¬ Moment.Serves thread below record action behind ⟨w, .run thread, notes⟩) ∨
    (∃ action behind, left = action :: behind ∧
      Moment.Serves thread below record action behind ⟨w, .run thread, notes⟩ ∧
      Emptying below record behind (v.stack thread)) ∨
    (v.stack thread).length ≤ below.length ∧
      (∀ behind, behind.length < left.length →
        Moment.Drops thread below behind ⟨w, .run thread, notes⟩) ∧
      ∀ action behind, ¬ Moment.Serves thread below record action behind ⟨w, .run thread, notes⟩ := by
  have kept := emptying
  obtain ⟨above, d, parts, own, run, rfl⟩ := emptying
  obtain ⟨frame, rest, effect, stack, step, rfl, rfl⟩ := World.step_eq_some moves
  rw [stack] at parts
  have deep (high : above ≠ []) (action : Deferred) (behind : List Deferred) : ¬ Moment.Serves thread
      below record action behind ⟨w, .run thread, effect.notes ++ effect.control.completion rest⟩ := by
    intro serves
    obtain ⟨_, -, rfl, -⟩ := serves.stack stack
    have lengths := congrArg List.length parts
    have positive := List.length_pos_iff.mpr high
    simp only [List.length_cons, List.length_append] at lengths
    omega
  rw [World.stack_setStack, if_pos rfl]
  obtain ⟨rfl, empty, replies⟩ | ⟨first, left, rfl, queue, same⟩ |
      ⟨high, ⟨above', same⟩ | ⟨above', message, inside, unwinds, same⟩⟩ := Frame.drains run parts step
  · obtain ⟨rfl, rfl⟩ := List.cons.inj parts
    refine .inr (.inr ⟨?_, fun behind lt => by simp [empty] at lt, fun action behind serves => ?_⟩)
    · rw [replies]
      exact Control.length_stack_le_reply _ _
    · have taken := kept.serves_left serves
      simp [empty] at taken
  · obtain ⟨rfl, rfl⟩ := List.cons.inj parts
    refine .inr (.inl ⟨first, left, queue, Moment.serves_of_drain run own queue stack moves, ?_⟩)
    rw [same]
    exact ⟨[_], _, rfl, own, rfl, rfl⟩
  · rw [same]
    exact .inl ⟨⟨above', d, rfl, own, run, rfl⟩, deep high⟩
  · rw [same]
    refine .inr (.inr ⟨Frame.length_unwind_le message below, fun behind lt => ⟨rfl, frame, above', d,
      effect, message, inside ▸ stack, lt, step, unwinds, inside ▸ same⟩, deep high⟩)

end Emptying

namespace Spent

theorem start : Spent thread below record batch batch [] where
  remains := List.suffix_rfl
  started inside le := by
    have lt := inside.length_le
    simp only [List.length_cons] at lt
    omega
  waiting _ := by simp

/-- A moment at which nothing is started changes nothing. -/
theorem on (spent : Spent thread below record batch left moments)
    (none : ∀ action behind, ¬ moment.Serves thread below record action behind) :
    Spent thread below record batch left (moments ++ [moment]) where
  remains := spent.remains
  started inside le := (spent.started inside le).snoc (none _ _)
  waiting lt := never_snoc (spent.waiting lt) (none _ _)

/-- The first of what is left is started. -/
theorem serve (spent : Spent thread below record batch (action :: behind) moments)
    (emptying : Emptying below record (action :: behind) (moment.world.stack thread))
    (serves : moment.Serves thread below record action behind) :
    Spent thread below record batch behind (moments ++ [moment]) where
  remains := (List.suffix_cons action behind).trans spent.remains
  started {other left} inside le := by
    obtain same | lt := Nat.eq_or_lt_of_le le
    · obtain ⟨rfl, rfl⟩ : other = action ∧ left = behind := by
        refine List.cons.inj (List.IsSuffix.eq_of_length ?_ (by simp [same]))
        exact List.suffix_of_suffix_length_le inside spent.remains (by simp [same])
      exact .last (spent.waiting (by simp)) serves
    · refine (spent.started inside lt).snoc fun again => ?_
      obtain ⟨-, rfl⟩ := List.cons.inj (emptying.serves_left again)
      exact Nat.lt_irrefl _ lt
  waiting {other left} lt := by
    refine never_snoc (spent.waiting (Nat.lt_succ_of_lt lt)) fun again => ?_
    obtain ⟨-, rfl⟩ := List.cons.inj (emptying.serves_left again)
    exact Nat.lt_irrefl _ lt

end Spent

/-- As long as the drain stands where it began, it has started what is no longer left. -/
theorem Course.spent (course : Course custom w moments v)
    (start : Emptying below record batch (w.stack thread))
    (within : ∀ moment ∈ moments, below.length < (moment.world.stack thread).length)
    (on : below.length < (v.stack thread).length) :
    ∃ left, Emptying below record left (v.stack thread) ∧
      Spent thread below record batch left moments := by
  induction course with
  | nil => exact ⟨batch, start, .start⟩
  | @snoc moments v u move notes before _ moves ih =>
    obtain ⟨left, emptying, spent⟩ := ih (fun moment mem => within moment (List.mem_append_left _ mem))
      (within ⟨v, move, notes⟩ (by simp))
    by_cases runs : move = .run thread
    · subst runs
      obtain ⟨kept, none⟩ | ⟨action, behind, rfl, serves, kept⟩ | ⟨ended, -⟩ := emptying.own moves
      · exact ⟨left, kept, spent.on none⟩
      · exact ⟨behind, kept, spent.serve emptying serves⟩
      · exact absurd on (Nat.not_lt.mpr ended)
    · exact ⟨left, emptying.other runs moves, spent.on fun _ _ serves => runs serves.runs⟩

/-- When a drain has come to its end, each action of its batch has been started once, or not at all and
an action ahead of it unwinds out of the drain. -/
theorem Course.batch_ends {last : Moment} (course : Course custom w moments last.world)
    (start : Emptying below record batch (w.stack thread))
    (within : ∀ moment ∈ moments ++ [last], below.length < (moment.world.stack thread).length)
    (moves : last.world.move last.move = some (v, last.notes))
    (ends : (v.stack thread).length ≤ below.length) (inside : action :: behind <:+ batch) :
    OnceIn (Moment.Serves thread below record action behind) (moments ++ [last]) ∨
      last.Drops thread below behind ∧
        ∀ moment ∈ moments ++ [last], ¬ moment.Serves thread below record action behind := by
  obtain ⟨left, emptying, spent⟩ := course.spent start
    (fun moment mem => within moment (List.mem_append_left _ mem)) (within last (by simp))
  have runs : last.move = .run thread := by
    by_contra other
    exact Nat.not_lt.mpr ends (emptying.other other moves).length_lt
  obtain ⟨world, move, notes⟩ := last
  subst runs
  obtain ⟨kept, -⟩ | ⟨_, _, -, -, kept⟩ | ⟨-, drops, none⟩ := emptying.own moves
  · exact absurd kept.length_lt (Nat.not_lt.mpr ends)
  · exact absurd kept.length_lt (Nat.not_lt.mpr ends)
  · by_cases gone : left.length ≤ behind.length
    · exact .inl ((spent.started inside gone).snoc (none _ _))
    · have lt := Nat.lt_of_not_le gone
      exact .inr ⟨drops behind lt, never_snoc (spent.waiting lt) (none _ _)⟩

/-- No deferred action is lost, in any course of events: an action queued on a record stays in the queue,
behind those that were there before it, until the queue is taken as a whole; and when the drain that took
it has come to its end, the action has been started once. The only other way for the drain to end is that
an action ahead of this one, in the same batch, unwinds: then this one is never started. -/
theorem deferred_kept (course : Course custom w moments v) {pre post : List Moment} {queues : Moment}
    {tag : Tag} (parts : moments = pre ++ queues :: post)
    (observed : (self, .queued record tag) ∈ queues.observed)
    (made : record < queues.world.nextRecord) :
    ∃ queue action, action.tag = tag ∧ queues.Queues record queue action ∧
      (Undrained record post → queue ++ [action] <+: (v.record record).deferred) ∧
      ∀ {mid take later taker taken}, post = mid ++ take :: later → Undrained record mid →
        (taker, .drained record taken) ∈ take.observed →
        ∃ below behind, take.Collects taker below record (queue ++ action :: behind) ∧
          ∀ {during last after ended}, later = during ++ last :: after →
            (∀ moment ∈ during ++ [last], below.length < (moment.world.stack taker).length) →
            last.world.move last.move = some (ended, last.notes) →
            (ended.stack taker).length ≤ below.length →
              OnceIn (Moment.Serves taker below record action behind) (during ++ [last]) ∨
                last.Drops taker below behind ∧ ∀ moment ∈ during ++ [last],
                  ¬ moment.Serves taker below record action behind := by
  obtain ⟨next, -, -, moved, after⟩ := course.split parts
  obtain ⟨action, named, queued⟩ := Moment.queues_of_observed made observed moved
  have made : record < next.nextRecord := World.made_move made moved
  have grown : (next.record record).deferred = (queues.world.record record).deferred ++ [action] := by
    obtain ⟨next', moved', grown⟩ := queued.grows
    obtain rfl : next = next' := (Prod.mk.inj (Option.some.inj (moved.symm.trans moved'))).1
    exact grown
  refine ⟨_, action, named, queued, fun undrained => grown ▸ after.adds made undrained, ?_⟩
  intro mid take later taker taken parts' undrained drained
  obtain ⟨emptied, during, -, took, rest⟩ := after.split parts'
  obtain ⟨behind, found⟩ := during.adds made undrained
  rw [grown, List.append_assoc] at found
  obtain ⟨below, collects⟩ := Moment.collects_of_observed drained took
  rw [← found] at collects
  refine ⟨below, behind, collects, fun {stay last late ended} parts'' within moves ends => ?_⟩
  obtain ⟨_, before, -, -, -⟩ := rest.split parts''
  exact before.batch_ends (collects.emptying took) within moves ends (List.suffix_append ..)

/-- A thread of its own and a manager that nobody has used. -/
def World.solo : World := .initial [none] [{}]

theorem World.solo_isFresh (m : ManagerId) : World.solo.IsFresh m := by
  refine World.initial_isFresh ?_
  cases m <;> exact ⟨rfl, rfl, rfl, rfl, rfl⟩

/-- The thread queues two actions, and drives a pause after which it runs them. -/
def deferringTwice (script : List Op) : List Move :=
  Move.repeated [
    (1, .submit 0 (.enter 0)), (14, .run 0), (1, .submit 0 (.defer none "x" script)), (1, .run 0),
    (1, .submit 0 (.defer none "y" [])), (1, .run 0), (1, .submit 0 (.pauseWith 0 false [])),
    (42, .run 0)]

/-- The second action is taken together with the first, and has been started once when the drain comes
to its end. -/
theorem deferred_kept_deferringTwice : ∃ pre queues mid take during last post v,
    Course (fun _ _ => True) World.solo
      (pre ++ queues :: (mid ++ take :: (during ++ last :: post))) v ∧
    (0, .queued 0 "y") ∈ queues.observed ∧ 0 < queues.world.nextRecord ∧ Undrained 0 mid ∧
    ∃ below queue action behind, action.tag = "y" ∧
      take.Collects 0 below 0 (queue ++ action :: behind) ∧
      OnceIn (Moment.Serves 0 below 0 action behind) (during ++ [last]) := by
  have made : (World.solo.follow (fun _ _ => true)
      (deferringTwice [] ++ [.run 0, .run 0, .run 0, .run 0])).any (fun made =>
      made.1[18]?.any (fun queues => shows 0 (·.isQueueing 0 "y") queues.observed &&
        0 < queues.world.nextRecord) &&
      (observations ((made.1.drop 19).take 39)).all (fun entry => !entry.2.isDraining 0) &&
      (made.1.drop 19)[39]?.any (fun take => shows 0 (·.isDraining 0) take.observed &&
        (take.world.stack 0).length = 3) &&
      ((made.1.drop 19).drop 40)[4]?.any (fun last => !last.unwinds 0 &&
        (last.world.move last.move).any fun moved => (moved.1.stack 0).length ≤ 2) &&
      (((made.1.drop 19).drop 40).take 4).all (fun moment => 2 < (moment.world.stack 0).length) &&
      ((made.1.drop 19).drop 40)[4]?.all (fun last => 2 < (last.world.stack 0).length)) = true := by
    decide +kernel
  obtain ⟨⟨moments, v⟩, follows, state⟩ := (Option.any_eq_true _ _).mp made
  simp only [Bool.and_eq_true, decide_eq_true_eq, Option.any_eq_true, Bool.not_eq_true',
    List.all_eq_true, Option.all_eq_true] at state
  obtain ⟨⟨⟨⟨⟨⟨queues, found, queued, made⟩, quiet⟩, take, found', drains, depth⟩, last, found'',
    steady, ended, moves, out⟩, within⟩, busy⟩ := state
  have course : Course (fun _ _ => True) World.solo moments v :=
    World.course_of_follow (fun _ _ _ => trivial) follows
  specialize busy last found''
  have parts := eq_take_cons_drop found
  have deep := eq_take_cons_drop found'
  rw [eq_take_cons_drop found''] at deep
  generalize (List.drop 19 moments).take 39 = mid at deep quiet
  generalize ((List.drop 19 moments).drop 40).take 4 = during at deep within
  generalize ((List.drop 19 moments).drop 40).drop (4 + 1) = post at deep
  rw [show List.drop (18 + 1) moments = _ from deep] at parts
  generalize moments.take 18 = pre at parts
  have observed := (shows_iff Note.isQueueing_iff).mp queued
  obtain ⟨taken, drained⟩ := exists_drained drains
  subst parts
  obtain ⟨queue, action, named, -, -, kept⟩ := deferred_kept course rfl observed made
  obtain ⟨below, behind, collects, ends⟩ := kept rfl quiet drained
  obtain ⟨d, stack, -⟩ := collects.drain
  have two : below.length = 2 := by simpa [stack] using depth
  have within : ∀ moment ∈ during ++ [last], below.length < (moment.world.stack 0).length := by
    rw [List.forall_mem_append, two]
    exact ⟨within, by simpa using busy⟩
  obtain ⟨next, -, -, moved, after⟩ := course.split rfl
  obtain ⟨_, -, -, -, after⟩ := after.split rfl
  obtain ⟨u, -, -, moved, -⟩ := after.split rfl
  obtain rfl := Option.some.inj (moves.symm.trans moved)
  obtain once | ⟨drops, -⟩ := ends rfl within moved (two ▸ out)
  · exact ⟨pre, queues, mid, take, during, last, post, v, course, observed, made, quiet, below, queue,
      action, behind, named, collects, once⟩
  · obtain ⟨frame, above, d, effect, message, stack, -, step, control, -⟩ := drops.unwinds
    rw [Moment.unwinds_of_step stack step control] at steady
    simp at steady

/-- An action that unwinds takes those behind it along, which the queue no longer has and nobody has
started: the second one is lost. -/
theorem dropped_behind : ∃ pre queues post v, (∀ m, World.solo.IsFresh m) ∧
    Course (fun _ _ => True) World.solo (pre ++ queues :: post) v ∧
    (0, .queued 0 "y") ∈ queues.observed ∧ (v.record 0).deferred = [] ∧ v.stack 0 = [] ∧
    ∀ thread owner, (thread, .deferred 0 "y" owner) ∉ observations post := by
  have made : (World.solo.follow (fun _ _ => true) (deferringTwice [.unwind "boom"])).any (fun made =>
      made.1[18]?.any (fun queues => shows 0 (·.isQueueing 0 "y") queues.observed) &&
      (made.2.record 0).deferred.isEmpty && (made.2.stack 0).isEmpty &&
      (observations (made.1.drop 19)).all fun entry => !entry.2.isStart 0 "y") = true := by
    decide +kernel
  obtain ⟨⟨moments, v⟩, follows, state⟩ := (Option.any_eq_true _ _).mp made
  simp only [Bool.and_eq_true, Option.any_eq_true, Bool.not_eq_true', List.all_eq_true,
    List.isEmpty_iff] at state
  obtain ⟨⟨⟨⟨queues, found, queued⟩, empty⟩, idle⟩, never⟩ := state
  have course : Course (fun _ _ => True) World.solo moments v :=
    World.course_of_follow (fun _ _ _ => trivial) follows
  rw [eq_take_cons_drop found] at course
  refine ⟨_, queues, _, v, World.solo_isFresh, course, (shows_iff Note.isQueueing_iff).mp queued, empty,
    idle, fun thread owner mem => ?_⟩
  have starts := never _ mem
  simp [Note.isStart] at starts

end

end StopTheWorld
