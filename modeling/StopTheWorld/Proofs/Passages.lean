import StopTheWorld.Proofs.Batches

namespace StopTheWorld

/-! In which order a thread starts the actions queued on its record: in that of the queue, unless a drain
begins inside another one. -/

/-- The way of an action through the queue of a record: it is queued at one moment, taken by the first
drain after that, together with what is ahead of it and behind it by then, and started by this drain. The
moments are known by their places in the course of events. -/
structure Passage (moments : List Moment) (record : RecordId) where
  thread : ThreadId
  action : Deferred
  ahead : List Deferred
  behind : List Deferred
  /-- What the drain stands on. -/
  below : List Frame
  queued : Nat
  taken : Nat
  started : Nat
  queued_lt : queued < taken
  taken_lt : taken < started
  queues : ∃ moment ∈ moments[queued]?, moment.Queues record ahead action
  waits : ∀ k, queued < k → k < taken → ∀ moment ∈ moments[k]?, Undrained record [moment]
  collects : ∃ moment ∈ moments[taken]?,
    moment.Collects thread below record (ahead ++ action :: behind)
  within : ∀ k, taken < k → k < started → ∀ moment ∈ moments[k]?,
    below.length < (moment.world.stack thread).length
  serves : ∃ moment ∈ moments[started]?, moment.Serves thread below record action behind

section

variable {custom : World → ThreadId → Prop} {w v : World} {self thread : ThreadId}
  {record : RecordId} {moments : List Moment} {moment : Moment} {tag : Tag} {i j k : Nat}

/-- A course leads from one moment to any later one, through those in between. -/
theorem Course.after (course : Course custom w moments v) {first last : Moment}
    (found : moments[i]? = some first) (found' : moments[j]? = some last) (lt : i < j) :
    ∃ next mid, first.world.move first.move = some (next, first.notes) ∧
      Course custom next mid last.world ∧
      ∀ moment ∈ mid, ∃ k, i < k ∧ k < j ∧ moments[k]? = some moment := by
  obtain ⟨next, -, -, moved, after⟩ := course.split (eq_take_cons_drop found)
  have later : (moments.drop (i + 1))[j - (i + 1)]? = some last := by
    rw [List.getElem?_drop, show i + 1 + (j - (i + 1)) = j by omega]
    exact found'
  obtain ⟨_, during, -, -, -⟩ := after.split (eq_take_cons_drop later)
  refine ⟨next, _, moved, during, fun moment mem => ?_⟩
  obtain ⟨k, at_k⟩ := List.mem_iff_getElem?.mp mem
  rw [List.getElem?_take] at at_k
  split at at_k
  · exact ⟨i + 1 + k, by omega, by omega, by rw [← at_k, List.getElem?_drop]⟩
  · simp at at_k

theorem undrained_of_forall (quiet : ∀ moment ∈ moments, Undrained record [moment]) :
    Undrained record moments := by
  intro entry mem
  obtain ⟨moment, here, observed⟩ := List.mem_flatMap.mp mem
  exact quiet moment here entry (by simpa using observed)

/-- A queue that is taken tells of it. -/
theorem Moment.Collects.not_undrained {below : List Frame} {batch : List Deferred}
    (collects : moment.Collects thread below record batch)
    (moves : moment.world.move moment.move = some (v, moment.notes)) :
    ¬ Undrained record [moment] := by
  obtain ⟨d, stack, rfl, take⟩ := collects.drain
  obtain ⟨frame, rest, effect, stack', step, -, notes⟩ :=
    World.step_eq_some (collects.runs ▸ moves)
  obtain ⟨rfl, rfl⟩ := List.cons.inj (stack.symm.trans stack')
  simp only [Frame.advance, Drain.advance, take] at step
  obtain rfl := Option.some.inj step
  intro undrained
  have quiet := undrained (thread, .drained d.record (moment.world.record d.record).deferred.length)
    (by simp [Moment.mem_observed, collects.runs, notes])
  simp [Note.isDraining] at quiet

namespace Passage

variable (p first second : Passage moments record)

/-- The drain is not over before the action has been started. -/
theorem deep (gt : p.taken < k) (le : k ≤ p.started) (found : moments[k]? = some moment) :
    p.below.length < (moment.world.stack p.thread).length := by
  obtain lt | rfl := Nat.lt_or_eq_of_le le
  · exact p.within k gt lt moment found
  · obtain ⟨serves, found', starts⟩ := p.serves
    obtain rfl : moment = serves := Option.some.inj (found.symm.trans found')
    obtain ⟨d, stack, -⟩ := starts.drain
    simp [stack]

/-- Until it is started, the action is among those that the drain has left. -/
theorem left (course : Course custom w moments v) (gt : p.taken < k) (le : k ≤ p.started)
    (found : moments[k]? = some moment) :
    ∃ left, Emptying p.below record left (moment.world.stack p.thread) ∧
      p.action :: p.behind <:+ left := by
  obtain ⟨take, taken, collects⟩ := p.collects
  obtain ⟨serves, started, starts⟩ := p.serves
  obtain ⟨next, mid, took, during, between⟩ := course.after taken found gt
  obtain ⟨left, emptying, spent⟩ := during.spent (collects.emptying took)
    (fun moment mem => by
      obtain ⟨j, above, under, here⟩ := between moment mem
      exact p.deep above (by omega) here)
    (p.deep gt le found)
  refine ⟨left, emptying, ?_⟩
  obtain lt | rfl := Nat.lt_or_eq_of_le le
  · obtain ⟨next', mid', moved, during', between'⟩ := course.after found started lt
    have step : Course (fun _ _ => True) moment.world [moment] next' :=
      Course.single (fun _ _ => trivial) moved
    have within (x : Moment) (mem : x ∈ moment :: mid') :
        p.below.length < (x.world.stack p.thread).length := by
      obtain rfl | mem := List.mem_cons.mp mem
      · exact p.deep gt le found
      · obtain ⟨j, above, under, here⟩ := between' x mem
        exact p.deep (Nat.lt_trans gt above) (Nat.le_of_lt under) here
    have path := step.trans (during'.mono fun _ _ _ => trivial)
    obtain ⟨rest, emptying', spent'⟩ := path.spent emptying within
      (p.deep p.taken_lt (Nat.le_refl _) started)
    exact emptying'.serves_left starts ▸ spent'.remains
  · obtain rfl : moment = serves := Option.some.inj (found.symm.trans started)
    rw [emptying.serves_left starts]

/-- The action is queued behind those that were queued before it and have not been taken since. -/
theorem ahead_lt (course : Course custom w moments v) (before : first.queued < second.queued)
    (waits : second.queued < first.taken) : first.ahead.length < second.ahead.length := by
  obtain ⟨queues, found, queued⟩ := first.queues
  obtain ⟨queues', found', queued'⟩ := second.queues
  obtain ⟨next, mid, moved, during, between⟩ := course.after found found' before
  obtain ⟨next', moved', grown⟩ := queued.grows
  obtain rfl : next = next' := (Prod.mk.inj (Option.some.inj (moved.symm.trans moved'))).1
  have quiet : Undrained record mid := undrained_of_forall fun moment mem => by
    obtain ⟨k, above, under, here⟩ := between moment mem
    exact first.waits k above (Nat.lt_trans under waits) moment here
  have le := (during.adds (World.made_move queued.made moved) quiet).length_le
  rw [grown, queued'.found, List.length_append] at le
  exact le

/-- What is queued later is not taken earlier. -/
theorem taken_le (course : Course custom w moments v) (before : first.queued < second.queued) :
    first.taken ≤ second.taken := by
  by_contra lt
  obtain ⟨take, found, collects⟩ := second.collects
  obtain ⟨next, -, -, moved, -⟩ := course.split (eq_take_cons_drop found)
  exact collects.not_undrained moved (first.waits _ (Nat.lt_trans before second.queued_lt)
    (Nat.lt_of_not_le lt) take found)

/-- Of two actions of one batch, the one that was queued first has more behind it, and starts first. -/
theorem started_lt_of_batch (course : Course custom w moments v)
    (same : second.thread = first.thread) (before : first.queued < second.queued)
    (batch : first.taken = second.taken) : first.started < second.started := by
  by_contra le
  obtain ⟨take, found, collects⟩ := first.collects
  obtain ⟨take', found', collects'⟩ := second.collects
  obtain ⟨serves, started, starts⟩ := second.serves
  rw [← batch] at found'
  obtain rfl : take = take' := Option.some.inj (found.symm.trans found')
  obtain ⟨d, stack, -⟩ := collects.drain
  obtain ⟨d', stack', -⟩ := collects'.drain
  rw [same] at stack' starts
  have deep : second.below = first.below := (List.cons.inj (stack'.symm.trans stack)).2
  obtain ⟨left, emptying, waits⟩ := first.left course (batch ▸ second.taken_lt)
    (Nat.le_of_not_lt le) started
  have longer := waits.length_le
  rw [emptying.serves_left (deep ▸ starts)] at longer
  have ahead := first.ahead_lt second course before (batch ▸ second.queued_lt)
  have lengths := congrArg List.length (collects.found.symm.trans collects'.found)
  simp only [List.length_append, List.length_cons] at longer lengths
  omega

/-- A drain inside the drain that has taken an action is over before the action starts. -/
theorem overtaken (course : Course custom w moments v) (same : second.thread = first.thread)
    (later : first.taken < second.taken) (inside : second.taken < first.started) :
    second.started < first.started := by
  by_contra le
  obtain ⟨take, found, collects⟩ := second.collects
  obtain ⟨serves, started, starts⟩ := first.serves
  obtain ⟨left, ⟨above, d, stack, -, run, -⟩, -⟩ := first.left course later
    (Nat.le_of_lt inside) found
  obtain ⟨d', stack', -, point⟩ := collects.drain
  rw [same, stack] at stack'
  have higher : first.below.length < second.below.length := by
    cases above with
    | nil =>
      obtain rfl := Frame.drain.inj (List.cons.inj stack').1
      simp [run] at point
    | cons top above =>
      have lengths := congrArg List.length stack'
      simp only [List.length_append, List.length_cons] at lengths
      omega
  have deep := second.deep inside (Nat.le_of_not_lt le) started
  obtain ⟨d, stack, -⟩ := starts.drain
  rw [same, stack, List.length_cons] at deep
  omega

end Passage

/-- The thread that takes an action and starts it is the one whose record it is queued on. -/
theorem Passage.owns (p : Passage moments record) (fresh : ∀ m, w.IsFresh m)
    (course : Course Recorded w moments v) : v.Owns record p.thread := by
  obtain ⟨take, found, collects⟩ := p.collects
  obtain ⟨next, before, recorded, moved, after⟩ := course.split (eq_take_cons_drop found)
  have possessed := before.isPossessed (fresh 0).isLaid (World.isPossessed_of_isFresh fresh)
  obtain ⟨d, stack, rfl, -⟩ := collects.drain
  have mine : take.world.Owns d.record p.thread :=
    (possessed.owned 0).frames p.thread (.drain d) (by simp [stack])
  exact ((Course.single recorded moved).trans after).owns mine

/-- Deferred actions start in the order in which they have been queued, in every course of events, with
however many managers: the thread whose record they are queued on takes and starts them, and it starts
the one that was queued first before the other, unless it takes the other one, by a drain inside the
drain that has taken the first, while that one waits for its turn. In this case alone it starts the one
that was queued later first. -/
theorem deferred_in_order (fresh : ∀ m, w.IsFresh m) (course : Course Recorded w moments v)
    (first second : Passage moments record) (before : first.queued < second.queued) :
    v.Owns record first.thread ∧ v.Owns record second.thread ∧
    (¬ (first.taken < second.taken ∧ second.taken < first.started) →
      first.started < second.started) ∧
    (first.taken < second.taken → second.taken < first.started →
      second.started < first.started) := by
  have owns := first.owns fresh course
  have owns' := second.owns fresh course
  have same : second.thread = first.thread := owns'.own.symm.trans owns.own
  refine ⟨owns, owns', fun apart => ?_, first.overtaken second course same⟩
  obtain lt | batch := Nat.lt_or_eq_of_le (first.taken_le second course before)
  · have done : first.started ≤ second.taken := by
      by_contra inside
      exact apart ⟨lt, Nat.lt_of_not_le inside⟩
    exact Nat.lt_of_le_of_lt done second.taken_lt
  · exact first.started_lt_of_batch second course same before batch

/-- How many actions the drain on top of the stack has left. -/
def leftOn : List Frame → Nat
  | .drain d :: _ => d.queue.length
  | _ => 0

/-- Decides whether an action with the tag is queued, taken and started by the thread at these places. -/
def isPassage (thread : ThreadId) (record : RecordId) (tag : Tag) (i t s : Nat)
    (moments : List Moment) : Bool :=
  i < t && t < s &&
  moments[i]?.any fun queues =>
    shows thread (·.isQueueing record tag) queues.observed && record < queues.world.nextRecord &&
    moments[t]?.any fun take =>
      shows thread (·.isDraining record) take.observed &&
      (moments[s]?.any fun serves =>
        shows thread (·.isStart record tag) serves.observed &&
          (serves.world.stack thread).length = (take.world.stack thread).length &&
          leftOn (serves.world.stack thread) + (queues.world.record record).deferred.length =
            (take.world.record record).deferred.length) &&
      (List.range s).all fun k => k ≤ i || moments[k]?.all fun moment =>
        if k < t then moment.observed.all fun entry => !entry.2.isDraining record
        else k = t || (take.world.stack thread).length ≤ (moment.world.stack thread).length

/-- Such an action has gone through the queue at these places. -/
theorem Course.passage (course : Course custom w moments v) {t s : Nat}
    (passes : isPassage thread record tag i t s moments = true) :
    ∃ p : Passage moments record, p.queued = i ∧ p.taken = t ∧ p.started = s := by
  simp only [isPassage, Bool.and_eq_true, Option.any_eq_true, decide_eq_true_eq, List.all_eq_true,
    List.mem_range, Bool.or_eq_true, Option.all_eq_true] at passes
  obtain ⟨⟨lt, lt'⟩, queues, found, ⟨queued, made⟩, take, found', ⟨drains, serves, found'', ⟨starts,
    depth⟩, place⟩, between⟩ := passes
  have waits (k : Nat) (gt : i < k) (lt : k < t) (moment : Moment) (here : moments[k]? = some moment) :
      Undrained record [moment] := by
    have quiet := (between k (by omega)).resolve_left (by omega) moment here
    simpa [lt, Undrained] using quiet
  have within (k : Nat) (gt : t < k) (lt : k < s) (moment : Moment)
      (here : moments[k]? = some moment) :
      (take.world.stack thread).length ≤ (moment.world.stack thread).length := by
    have deep := (between k lt).resolve_left (by omega) moment here
    rw [if_neg (by omega)] at deep
    simp only [Bool.or_eq_true, decide_eq_true_eq] at deep
    exact deep.resolve_left (by omega)
  obtain ⟨next, grows, moved, during, inside⟩ := course.after found found' lt
  obtain ⟨action, -, adds⟩ :=
    Moment.queues_of_observed made ((shows_iff Note.isQueueing_iff).mp queued) moved
  obtain ⟨next', moved', grown⟩ := adds.grows
  obtain rfl : next = next' := (Prod.mk.inj (Option.some.inj (moved.symm.trans moved'))).1
  have quiet : Undrained record grows := undrained_of_forall fun moment mem => by
    obtain ⟨k, above, under, here⟩ := inside moment mem
    exact waits k above under moment here
  obtain ⟨behind, batch⟩ := during.adds (World.made_move made moved) quiet
  rw [grown, List.append_assoc] at batch
  obtain ⟨taken, drained⟩ := exists_drained drains
  obtain ⟨emptied, runs, took, drain, inside'⟩ := course.after found' found'' lt'
  obtain ⟨below, collects⟩ := Moment.collects_of_observed drained took
  rw [← batch] at collects
  obtain ⟨d, stack, -⟩ := collects.drain
  have deep : (take.world.stack thread).length = below.length + 1 := by simp [stack]
  obtain ⟨left, emptying, spent⟩ := drain.spent (collects.emptying took)
    (fun moment mem => by
      obtain ⟨k, above, under, here⟩ := inside' moment mem
      have le := within k above under moment here
      omega)
    (by omega)
  obtain ⟨d', stack', own, run, rfl⟩ := emptying.of_length (depth.trans deep)
  have same : d'.queue = action :: behind := by
    rw [stack', ← batch, List.length_append] at place
    have length : d'.queue.length = (action :: behind).length := by
      simp only [leftOn, List.singleton_append] at place
      omega
    exact (List.suffix_of_suffix_length_le spent.remains (List.suffix_append ..)
      (Nat.le_of_eq length)).eq_of_length length
  obtain ⟨_, -, -, started, -⟩ := course.split (eq_take_cons_drop found'')
  obtain ⟨world, move, notes⟩ := serves
  obtain ⟨⟨self, note⟩, mem, shown⟩ := List.any_eq_true.mp starts
  simp only [Bool.and_eq_true, decide_eq_true_eq] at shown
  obtain ⟨rfl, -⟩ := shown
  obtain rfl : move = .run self := (Moment.mem_observed.mp mem).1
  exact ⟨⟨self, action, _, behind, below, i, t, s, lt, lt', ⟨queues, found, adds⟩, waits,
    ⟨take, found', collects⟩,
    fun k gt under moment here => by
      have le := within k gt under moment here
      omega,
    ⟨_, found'', Moment.serves_of_drain run own same stack' started⟩⟩, rfl, rfl, rfl⟩

/-- The action of a pause queues two actions, the first of which drives a pause whose action queues a
third one. -/
def nestedDrains : List Move :=
  Move.repeated [
    (1, .submit 0 (.enter 0)), (14, .run 0),
    (1, .submit 0 (.pauseWith 0 false
      [.defer none "x" [.pauseWith 0 false [.defer none "z" []]], .defer none "y" []])),
    (101, .run 0)]

/-- The first and the second action are of one batch, and the third is taken while the second waits. -/
theorem nestedDrains_passages : ∃ moments v, (∀ m, World.solo.IsFresh m) ∧
    Course Recorded World.solo moments v ∧ ∃ x y z : Passage moments 0,
      (x.queued = 41 ∧ x.taken = 60 ∧ x.started = 61) ∧
      (y.queued = 44 ∧ y.taken = 60 ∧ y.started = 112) ∧
      z.queued = 88 ∧ z.taken = 104 ∧ z.started = 105 := by
  have made : (World.solo.follow World.isRecorded nestedDrains).any (fun made =>
      isPassage 0 0 "x" 41 60 61 made.1 && isPassage 0 0 "y" 44 60 112 made.1 &&
        isPassage 0 0 "z" 88 104 105 made.1) = true := by
    decide +kernel
  obtain ⟨⟨moments, v⟩, follows, state⟩ := (Option.any_eq_true _ _).mp made
  simp only [Bool.and_eq_true] at state
  obtain ⟨⟨first, second⟩, third⟩ := state
  have course := World.course_of_follow World.recorded_of_isRecorded follows
  obtain ⟨x, first⟩ := course.passage first
  obtain ⟨y, second⟩ := course.passage second
  obtain ⟨z, third⟩ := course.passage third
  exact ⟨moments, v, World.solo_isFresh, course, x, y, z, first, second, third⟩

/-- The first action starts before the second, which is queued after it, and the third before the second,
which is queued before it. -/
theorem deferred_in_order_nestedDrains : ∃ moments v, (∀ m, World.solo.IsFresh m) ∧
    Course Recorded World.solo moments v ∧ ∃ x y z : Passage moments 0,
      x.queued < y.queued ∧ y.queued < z.queued ∧ v.Owns 0 y.thread ∧
      x.started < y.started ∧ z.started < y.started := by
  obtain ⟨moments, v, fresh, course, x, y, z, ⟨x₁, x₂, -⟩, ⟨y₁, y₂, y₃⟩, z₁, z₂, -⟩ :=
    nestedDrains_passages
  obtain ⟨-, owns, order, -⟩ := deferred_in_order fresh course x y (by omega)
  obtain ⟨-, -, -, inside⟩ := deferred_in_order fresh course y z (by omega)
  exact ⟨moments, v, fresh, course, x, y, z, by omega, by omega, owns, order (by omega),
    inside (by omega) (by omega)⟩

/-- An action that is queued later overtakes one that the same thread has yet to run. -/
theorem overtaken_in_queue : ∃ moments v, (∀ m, World.solo.IsFresh m) ∧
    Course Recorded World.solo moments v ∧ ∃ y z : Passage moments 0,
      v.Owns 0 y.thread ∧ v.Owns 0 z.thread ∧ y.queued < z.queued ∧ z.started < y.started := by
  obtain ⟨moments, v, fresh, course, -, y, z, -, ⟨y₁, -, y₃⟩, z₁, -, z₃⟩ := nestedDrains_passages
  exact ⟨moments, v, fresh, course, y, z, y.owns fresh course, z.owns fresh course, by omega,
    by omega⟩

end

end StopTheWorld
