import StopTheWorld.Proofs.Chronicle
import StopTheWorld.Proofs.Driver
import StopTheWorld.Proofs.Residence
import StopTheWorld.Proofs.Turnout

namespace StopTheWorld

/-! A pause that is driven from outside of the manager: what the call tells of the thread, which pauses it
takes part in meanwhile, and what it leaves behind. -/

/-- Of the `k`-th pause, which begins right before these moments: by the time its driver comes out of the
phases, the thread has gone through all three of them, or has deregistered without having arrived at any. -/
def Attends (m : ManagerId) (k : Nat) (driver thread : ThreadId) (moments : List Moment) : Prop :=
  ∃ early late, moments = early ++ late ∧ (driver, .finished m true) ∉ observations early ∧
    (GoesThrough m k thread (observations early) ∨ Withdraws m thread (observations early))

/-- A call is over that has driven one pause of this action, and for which the thread has been registered
meanwhile. -/
structure Untraced (m : ManagerId) (thread : ThreadId) (action : List Op) (base : List Frame)
    (call : List Moment) (y : World) : Prop where
  /-- All that the thread has told of registering, of driving pauses and of running actions is what it
  tells of one stay in which it drives one pause and runs nothing. -/
  drove : ∃ k participants duration,
    stayOf m thread call = sojourn m thread k participants duration ∧
    eventsNaming m thread call = stay thread [(participants, duration)] ∧
    ∃ moment ∈ call, ∃ f, moment.Begins m thread action (.foreign f :: base) k
  attended : ∀ {pre first post driver k}, call = pre ++ first :: post →
    (driver, .invalidated m k) ∈ first.observed → driver ≠ thread →
    first.world.isRegistered m thread = true → Attends m k driver thread post
  replied : ∃ earlier last, call = earlier ++ [last] ∧ last.Replies thread base (.succeeded .nothing)
  unregistered : y.isRegistered m thread = false
  parties : ∃ parties : Finset ThreadId, parties.card = (y.manager m).registry.phaser.parties ∧
    thread ∉ parties ∧ ∀ other, other ∈ parties ↔
      other ∈ (y.manager m).registry.identities ∨ (y.posture m other).isHalfway = true

section

variable {m : ManagerId} {thread driver : ThreadId} {w v x y : World} {base : List Frame}
  {action : List Op} {moments earlier call : List Moment} {notes : List Note}
  {custom : World → ThreadId → Prop}

theorem World.isRegistered_iff : w.isRegistered m thread = true ↔ thread ∈ (w.core m).identities := by
  rw [World.isRegistered, Registry.contains_eq_isSome]
  show ((w.core m).lookup thread).isSome = true ↔ _
  exact Core.lookup_isSome

/-- The events that name a thread are those of its stays. -/
theorem Course.eventsNaming_eq (course : Course custom w moments v) :
    eventsNaming m thread moments = (stayOf m thread moments).filterMap (Note.event? m) := by
  induction course with
  | nil => rfl
  | @snoc moments x y move notes before allowed moves ih =>
    rw [eventsNaming, eventsOf_append, List.filter_append, ← eventsNaming, ih, stayOf_append,
      List.filterMap_append]
    congr 1
    by_cases own : move = .run thread
    · subst own
      have named : ∀ event ∈ eventsOf m [⟨x, .run thread, notes⟩], event.thread = thread := by
        intro event mem
        by_contra other
        exact World.eventsOf_other moves (by simpa using Ne.symm other) event mem rfl
      rw [List.filter_eq_self.mpr fun event mem => decide_eq_true (named event mem), eventsOf_run,
        stayOf_run, List.filterMap_filter]
      congr 1
      funext note
      cases note <;> simp [Note.event?, Note.isOfStay]
    · rw [stayOf_other own, List.filter_eq_nil_iff.mpr fun event mem => by
        simpa using World.eventsOf_other moves own event mem]
      rfl

/-- Whoever is registered when a pause begins, and is not any more at the end, has attended the pause. -/
theorem Course.attends_of_registered {pre post : List Moment} {first : Moment} {k : Nat}
    (course : Course (Orderly m) w moments v) (coherent : w.Coherent m)
    (parts : moments = pre ++ first :: post) (begins : (driver, .invalidated m k) ∈ first.observed)
    (here : thread ∈ (first.world.core m).identities) (gone : thread ∉ (v.core m).identities) :
    Attends m k driver thread post := by
  obtain ⟨next, early, orderly, moved, later⟩ := course.split parts
  obtain ⟨runs, noted⟩ := Moment.mem_observed.mp begins
  rw [runs] at moved
  obtain ⟨coherent', phase, p, rest, -, -, -, recounts⟩ :=
    (early.coherent coherent).begins (orderly driver runs) moved noted
  have here : thread ∈ (next.core m).identities := by
    have kept : (next.core m).lookup thread = (first.world.core m).lookup thread :=
      (recounts.entries thread).resolve_right fun gone => List.not_mem_nil gone.2
    rwa [← Core.lookup_isSome, kept, Core.lookup_isSome]
  by_cases ends : (driver, .finished m true) ∈ observations post
  · obtain ⟨mid, last, tail, rfl, within, ends⟩ := exists_first_observed ends
    obtain ⟨u, during, orderly', moved', -⟩ := later.split rfl
    obtain ⟨runs', noted'⟩ := Moment.mem_observed.mp ends
    rw [runs'] at moved'
    have third : (last.world.core m).phaser.phase = 3 * k + 3 := by
      have ended := ((during.coherent coherent').finished driver (orderly' driver runs') moved' noted').1
      have number : (last.world.core m).pauses = k := (during.recounts coherent' recounts within).number
      simp only [Bool.true_eq_false, and_false, or_false] at ended
      omega
    exact ⟨mid, last :: tail, rfl, within,
      during.goes_through_or_withdraws coherent' recounts within phase (fun _ => third) here⟩
  · exact ⟨post, [], (List.append_nil _).symm, ends,
      later.goes_through_or_withdraws coherent' recounts ends phase (fun there => absurd there gone) here⟩

/-- What a reply leaves of a stack. -/
theorem Moment.Replies.leaves {moment : Moment} {value : Reply}
    (replies : moment.Replies thread base value)
    (moved : moment.world.move moment.move = some (v, notes)) :
    v.stack thread = (Control.reply value).stack base := by
  rw [replies.runs] at moved
  obtain ⟨frame, effect, stands, step, control⟩ := replies.stands
  obtain ⟨top, rest, effect', stands', step', rfl, -⟩ := World.step_eq_some moved
  obtain ⟨rfl, rfl⟩ := List.cons.inj (stands.symm.trans stands')
  obtain rfl := Option.some.inj (step.symm.trans step')
  rw [World.stack_setStack, if_pos rfl, control]

/-- A thread that is not registered is in the midst of its stay, or the call has replied with the last
move. -/
theorem Course.sojourner (course : Course (Orderly m) x call y) (coherent : x.Coherent m)
    (quiet : Quiet m base) (stack : x.stack thread = .foreign { manager := m, action := action } :: base)
    (absent : (x.core m).lookup thread = none)
    (within : ∀ moment ∈ call, base.length < (moment.world.stack thread).length) :
    (∃ told k, Sojourner m thread action base told k call y) ∨
      ∃ earlier last k, call = earlier ++ [last] ∧ Sojourner m thread action base 11 k earlier last.world ∧
        stayOf m thread [last] = [] ∧ last.Replies thread base (.succeeded .nothing) := by
  induction course with
  | nil =>
    exact .inl ⟨0, 0, ⟨[], _, stack, .nil, .begins⟩, absent, ⟨0, 0, rfl⟩, by omega⟩
  | @snoc moments u v move notes before orderly moves ih =>
    obtain ⟨told, k, sojourner⟩ | ⟨earlier, last, k, rfl, -, -, replies⟩ :=
      ih fun moment mem => within moment (List.mem_append_left _ mem)
    · obtain ⟨told', k', on⟩ | ⟨rfl, quieted, replies⟩ :=
        sojourner.move (before.coherent coherent) orderly quiet moves
      · exact .inl ⟨told', k', on⟩
      · exact .inr ⟨moments, _, k, rfl, sojourner, quieted, replies⟩
    · have on := within ⟨u, move, notes⟩ (by simp)
      obtain ⟨-, -, moved⟩ := before.unsnoc
      rw [replies.leaves moved] at on
      exact absurd on (Nat.not_lt.mpr (Control.length_stack_le_reply _ _))

/-- Once the call of a thread that was not registered is over, all that is left of it is what it has told. -/
theorem Course.untraced (course : Course (Orderly m) x call y) (coherent : x.Coherent m)
    (quiet : Quiet m base) (stack : x.stack thread = .foreign { manager := m, action := action } :: base)
    (absent : (x.core m).lookup thread = none)
    (within : ∀ moment ∈ call, base.length < (moment.world.stack thread).length)
    (ended : (y.stack thread).length ≤ base.length) : Untraced m thread action base call y := by
  obtain ⟨told, k, sojourner⟩ | ⟨earlier, last, k, rfl, sojourner, quieted, replies⟩ :=
    course.sojourner coherent quiet stack absent within
  · exact absurd ended (Nat.not_le.mpr sojourner.sojourns.deep)
  obtain ⟨before, orderly, moved⟩ := course.unsnoc
  have reached := before.coherent coherent
  have coherent' := course.coherent coherent
  have leaves := replies.leaves moved
  obtain ⟨participants, duration, tells⟩ := sojourner.tells
  have told : stayOf m thread (earlier ++ [last]) = sojourn m thread k participants duration := by
    rw [stayOf_append, tells, quieted, List.append_nil]
    rfl
  have gone : thread ∉ (y.core m).identities := by
    rw [← Core.lookup_isSome, Bool.not_eq_true, Option.isSome_eq_false_iff, Option.isNone_iff_eq_none]
    obtain ⟨world, move, notes⟩ := last
    obtain rfl : move = .run thread := replies.runs
    rw [stayOf_run] at quieted
    have kept := reached.lookup_step (orderly thread rfl) moved
    simp only [quieted] at kept
    obtain ⟨-, kept⟩ | ⟨identity, other⟩ | ⟨other, -⟩ := kept
    · exact kept.trans sojourner.entry
    · simp at other
    · simp at other
  refine ⟨⟨k, participants, duration, told, ?_, ?_⟩, fun parts begins ne here => ?_, ⟨_, _, rfl, replies⟩,
    ?_, ?_⟩
  · rw [course.eventsNaming_eq, told]
    simp [sojourn, conduct, stay, pausePair, Note.event?, List.filterMap_cons]
  · obtain ⟨moment, mem, f, begins⟩ := sojourner.begun (by omega)
    exact ⟨moment, List.mem_append_left _ mem, f, begins⟩
  · exact course.attends_of_registered coherent parts begins (World.isRegistered_iff.mp here) gone
  · exact Bool.eq_false_of_not_eq_true fun here => gone (World.isRegistered_iff.mp here)
  · obtain ⟨parties, card, counts⟩ := coherent'.lawful.parties
    refine ⟨parties, card, fun mem => ?_, counts⟩
    have sound : Sound m thread base := (stack ▸ coherent.sound thread : Sound m thread (_ :: base)).tail
    have outside : y.posture m thread = .outside := by
      have delivered : Follows m thread base ((Control.reply (.succeeded .nothing)).stack base) :=
        sound.delivered fun _ => ⟨by simp, by simp, by simp⟩
      rw [World.posture, leaves, delivered.posture, quiet.outside]
    obtain here | halfway := (counts thread).mp mem
    · exact gone here
    · rw [show (y.scene m).posture thread = _ from outside] at halfway
      simp [Posture.isHalfway] at halfway

/-- A call to drive a pause from outside of the manager leaves no trace of a registration. A thread that is
not registered, that is not inside of a pause and does not own the pause lock, drives exactly one pause with
its action, runs no action itself, attends every other pause that begins while it is registered, and is not
registered any more when the call is over; the call does not unwind. A thread that is registered keeps
its entry, unless a deferred action of it leaves. -/
theorem foreign_pause_leaves_no_trace (fresh : w.IsFresh m) (before : Course (Orderly m) w earlier x)
    (during : Course (Orderly m) x call y)
    (begun : Begun thread [.foreign { manager := m, action := action }] base x call) :
    (x.isRegistered m thread = false → x.Clear m thread → (y.stack thread).length ≤ base.length →
      Untraced m thread action base call y) ∧
    ∀ entry, (x.manager m).registry.get? thread = some entry →
      (∀ moment ∈ call, ∀ above, moment.world.stack thread = .start (.leave m) :: (above ++ base) →
        above.any (·.isDrain) = false) →
      (y.manager m).registry.get? thread = some entry := by
  have coherent := before.coherent fresh.coherent
  have laid := before.isLaid fresh.isLaid
  have stack : x.stack thread = .foreign { manager := m, action := action } :: base := begun.stack
  refine ⟨fun absent clear ended => ?_, fun entry listed stays => ?_⟩
  · have quiet : Quiet m base := by
      have sound := coherent.sound thread
      have mark := coherent.mark thread
      rw [stack] at sound mark
      refine sound.1.2.1.resolve_right fun acting => ?_
      rw [clear.unmarked, isMarked_cons, acting.marked, Bool.or_true] at mark
      simp at mark
    have absent : (x.core m).lookup thread = none := by
      rwa [World.isRegistered, Registry.contains_eq_isSome, Option.isSome_eq_false_iff,
        Option.isNone_iff_eq_none] at absent
    exact during.untraced coherent quiet stack absent begun.within ended
  · exact (during.resident (.begins stack listed) coherent laid begun.within stays).1

/-- The action with which an otherwise idle thread is about to drive a pause from outside. -/
def outsideAction? (m : ManagerId) : List Frame → Option (List Op)
  | [.foreign ⟨n, action, false, .nothing, "", .register⟩] => if n = m then some action else none
  | _ => none

theorem outsideAction?_eq_some {stack : List Frame} (found : outsideAction? m stack = some action) :
    stack = [.foreign { manager := m, action := action }] := by
  unfold outsideAction? at found
  split at found
  · split at found
    · next same =>
      obtain rfl := same
      rw [Option.some.inj found]
    · simp at found
  · simp at found

/-- Decides whether an otherwise idle thread begins with these moments to drive a pause from outside, and
is at it for as long as they last. -/
def callsOutside (m : ManagerId) (thread : ThreadId) (call : List Moment) : Bool :=
  (call.head?.any fun first =>
    first.move.isOf thread && (outsideAction? m (first.world.stack thread)).isSome) &&
  call.all fun moment => !(moment.world.stack thread).isEmpty

theorem Course.begun_of_callsOutside (course : Course custom x call y)
    (passes : callsOutside m thread call = true) :
    ∃ action, Begun thread [.foreign { manager := m, action := action }] [] x call := by
  simp only [callsOutside, Bool.and_eq_true, Option.any_eq_true, List.all_eq_true, Bool.not_eq_true',
    List.isEmpty_eq_false_iff, Option.isSome_iff_exists] at passes
  obtain ⟨⟨⟨world, move, notes⟩, head, runs, action, found⟩, within⟩ := passes
  obtain ⟨later, rfl⟩ := List.head?_eq_some_iff.mp head
  obtain ⟨_, start, -, -, -⟩ := course.split (List.nil_append _).symm
  obtain rfl := start.nil_eq
  obtain rfl := Move.isOf_iff.mp runs
  exact ⟨action, ⟨notes, later, rfl⟩, outsideAction?_eq_some found,
    fun moment mem => List.length_pos_iff.mpr (within moment mem)⟩

/-- Of two threads the second is registered, and the first is about to drive a pause from outside. -/
def outsiderCalls : List Move :=
  Move.repeated [
    (1, .submit 1 (.enter 0)), (14, .run 1), (1, .submit 0 (.pauseForeign 0 [.log "a"])), (1, .run 0)]

/-- The second thread begins a pause, which the first joins on its way to the pause lock, and then joins
the pause of the first by a poll. -/
def outsiderPauses : List Move :=
  Move.repeated [
    (14, .run 0), (1, .submit 1 (.pauseWith 0 false [.log "b"])), (20, .run 1), (17, .run 0),
    (11, .run 1), (14, .run 0), (16, .run 1), (20, .run 0), (1, .submit 1 (.poll 0)), (10, .run 1),
    (7, .run 0), (16, .run 1), (23, .run 0)]

def memberCalls : List Move :=
  Move.repeated [(1, .submit 1 (.pauseForeign 0 [.log "c"])), (1, .run 1)]

def memberPauses : List Move :=
  Move.repeated [(49, .run 1)]

/-- A thread that is not registered attends a pause before it drives its own; one that is registered is
so afterwards. -/
theorem foreign_pause_leaves_no_trace_inTurn :
    ∃ pre call mid own x y z v action action' entry,
      World.pair.IsFresh 0 ∧ Course (Orderly 0) World.pair pre x ∧ Course (Orderly 0) x call y ∧
      Begun 0 [.foreign { manager := 0, action := action }] [] x call ∧
      Untraced 0 0 action [] call y ∧
      (∃ early first late, call = early ++ first :: late ∧
        (1, .invalidated 0 0) ∈ first.observed ∧ Attends 0 0 1 0 late) ∧
      Course (Orderly 0) y mid z ∧ Course (Orderly 0) z own v ∧
      Begun 1 [.foreign { manager := 0, action := action' }] [] z own ∧
      (z.manager 0).registry.get? 1 = some entry ∧ (v.manager 0).registry.get? 1 = some entry := by
  have made : (World.pair.follow (World.isOrderly 0) outsiderCalls).any (fun before =>
      (before.2.follow (World.isOrderly 0) outsiderPauses).any fun during =>
      (during.2.follow (World.isOrderly 0) memberCalls).any fun between =>
      (between.2.follow (World.isOrderly 0) memberPauses).any fun after =>
        callsOutside 0 0 during.1 && !before.2.isRegistered 0 0 &&
        decide ((before.2.manager 0).pauseLock.owner ≠ some 0) && !(before.2.thread 0).inPause &&
        (during.2.stack 0).isEmpty &&
        (during.1.any fun first =>
          shows 1 (·.isInvalidation 0 0) first.observed && first.world.isRegistered 0 0) &&
        callsOutside 0 1 after.1 && ((between.2.manager 0).registry.get? 1).isSome &&
        after.1.all fun moment => !isLeaving 0 (moment.world.stack 1)) = true := by
    decide +kernel
  simp only [Option.any_eq_true, Bool.and_eq_true, Bool.not_eq_true', decide_eq_true_eq,
    List.any_eq_true, List.all_eq_true, List.isEmpty_iff, Option.isSome_iff_exists] at made
  obtain ⟨⟨pre, x⟩, before, ⟨call, y⟩, during, ⟨mid, z⟩, between, ⟨own, v⟩, after,
    ⟨⟨⟨⟨⟨⟨⟨calls, absent⟩, free⟩, unmarked⟩, ended⟩, first, mem, begins, here⟩, calls'⟩, entry, listed⟩,
    stays⟩ := made
  have before := World.course_of_follow (World.orderly_of_isOrderly 0) before
  have during := World.course_of_follow (World.orderly_of_isOrderly 0) during
  have between := World.course_of_follow (World.orderly_of_isOrderly 0) between
  have after := World.course_of_follow (World.orderly_of_isOrderly 0) after
  have begins : (1, .invalidated 0 0) ∈ first.observed := (shows_iff Note.isInvalidation_iff).mp begins
  obtain ⟨action, begun⟩ := during.begun_of_callsOutside calls
  obtain ⟨action', begun'⟩ := after.begun_of_callsOutside calls'
  have untraced := (foreign_pause_leaves_no_trace World.pair_isFresh before during begun).1 absent
    ⟨free, unmarked⟩ (by simp [ended])
  obtain ⟨early, late, parts⟩ := List.append_of_mem mem
  refine ⟨pre, call, mid, own, x, y, z, v, action, action', entry, World.pair_isFresh, before, during,
    begun, untraced, ⟨early, first, late, parts, begins,
      untraced.attended parts begins (by decide) here⟩, between, after, begun', listed, ?_⟩
  refine (foreign_pause_leaves_no_trace World.pair_isFresh ((before.trans during).trans between) after
    begun').2 entry listed fun moment mem above stands => ?_
  exact absurd (isLeaving_iff.mpr ⟨_, stands⟩) (Bool.eq_false_iff.mp (stays moment mem))

/-- Whoever attends a pause is heard of before the driver comes out of the phases. -/
theorem Attends.heard {mid tail : List Moment} {last : Moment} {k : Nat}
    (attends : Attends m k driver thread (mid ++ last :: tail))
    (ends : (driver, .finished m true) ∈ last.observed) : ∃ note, (thread, note) ∈ observations mid := by
  obtain ⟨early, late, parts, within, attends⟩ := attends
  have heard : ∃ note, (thread, note) ∈ observations early :=
    attends.elim (fun goes => ⟨_, goes 0 (by omega)⟩) fun withdraws => ⟨_, withdraws.1⟩
  obtain ⟨more, rfl, cut⟩ | ⟨more, rfl, -⟩ := List.append_eq_append_iff.mp parts
  · rcases more with - | ⟨moment, more⟩
    · simpa using heard
    · obtain ⟨rfl, -⟩ := List.cons.inj cut
      exact absurd (by simp [ends]) within
  · exact heard.imp fun note mem => by simp [mem]

/-- While the second of two threads waits to drive a pause of its own, it joins the pause that the first
drives from outside, and leaves with a deferred action. The first has given the pause lock up, and is
about to leave. -/
def strayCalls : List Move :=
  Move.repeated [
    (1, .submit 1 (.enter 0)), (14, .run 1), (1, .submit 1 (.defer none "d" [.leave 0])), (1, .run 1),
    (1, .submit 0 (.pauseForeign 0 [.log "a"])), (1, .run 0)]

def strayPauses : List Move :=
  Move.repeated [
    (38, .run 0), (1, .submit 1 (.pauseWith 0 false [.log "b"])), (17, .run 1), (7, .run 0),
    (34, .run 1), (16, .run 0), (40, .run 1), (7, .run 0)]

/-- A thread that is registered for the duration of its call misses a pause that begins and ends
meanwhile, if the driver of it has left while it waited for the pause lock. -/
theorem pause_of_stray_missed : ∃ earlier call x y action,
    World.pair.IsFresh 0 ∧
    Course (fun w thread => Orderly 0 w thread ∨ ∃ rest, w.stack thread = .start (.leave 0) :: rest)
      World.pair earlier x ∧
    Course (fun w thread => Orderly 0 w thread ∨ ∃ rest, w.stack thread = .start (.leave 0) :: rest)
      x call y ∧
    Begun 0 [.foreign { manager := 0, action := action }] [] x call ∧
    x.isRegistered 0 0 = false ∧ x.Clear 0 0 ∧ y.stack 0 = [] ∧
    ∃ pre first post, call = pre ++ first :: post ∧ (1, .invalidated 0 1) ∈ first.observed ∧
      first.world.isRegistered 0 0 = true ∧ ¬ Attends 0 1 1 0 post := by
  have allows (w : World) (thread : ThreadId)
      (passes : (w.isOrderly 0 thread || isLeaving 0 (w.stack thread)) = true) :
      Orderly 0 w thread ∨ ∃ rest, w.stack thread = .start (.leave 0) :: rest :=
    (Bool.or_eq_true _ _ ▸ passes).imp (World.orderly_of_isOrderly 0 w thread) isLeaving_iff.mp
  have made : (World.pair.follow (fun w thread => w.isOrderly 0 thread ||
      isLeaving 0 (w.stack thread)) strayCalls).any (fun before =>
      (before.2.follow (fun w thread => w.isOrderly 0 thread ||
        isLeaving 0 (w.stack thread)) strayPauses).any fun during =>
        callsOutside 0 0 during.1 && !before.2.isRegistered 0 0 &&
        decide ((before.2.manager 0).pauseLock.owner ≠ some 0) && !(before.2.thread 0).inPause &&
        (during.2.stack 0).isEmpty && during.1[118]?.any fun first =>
          shows 1 (·.isInvalidation 0 1) first.observed && first.world.isRegistered 0 0 &&
          (during.1.drop 119)[20]?.any fun last => shows 1 (·.isFinish 0 true) last.observed &&
            (observations ((during.1.drop 119).take 20)).all fun entry => entry.1 ≠ 0) = true := by
    decide +kernel
  simp only [Option.any_eq_true, Bool.and_eq_true, Bool.not_eq_true', decide_eq_true_eq,
    List.all_eq_true, List.isEmpty_iff] at made
  obtain ⟨⟨pre, x⟩, before, ⟨call, y⟩, during, ⟨⟨⟨⟨calls, absent⟩, free⟩, unmarked⟩, ended⟩, first, found,
    ⟨begins, here⟩, last, found', ends, silent⟩ := made
  have before := World.course_of_follow allows before
  have during := World.course_of_follow allows during
  obtain ⟨action, begun⟩ := during.begun_of_callsOutside calls
  refine ⟨pre, call, x, y, action, World.pair_isFresh, before, during, begun, absent, ⟨free, unmarked⟩, ended,
    _, first, _, eq_take_cons_drop found, (shows_iff Note.isInvalidation_iff).mp begins, here,
    fun attends => ?_⟩
  rw [eq_take_cons_drop found'] at attends
  obtain ⟨note, heard⟩ := attends.heard ((shows_iff Note.isFinish_iff).mp ends)
  exact silent _ heard rfl

end

end StopTheWorld
