import StopTheWorld.Proofs.Participation

namespace StopTheWorld

/-! Every participant of a pause runs its action once, and nobody else does. -/

/-- What a participant with this record starts when it comes to the action: nothing without a record
or while it aborts. -/
def World.startOf (m : ManagerId) (w : World) (thread : ThreadId) :
    Option RecordId → List (ThreadId × Note)
  | none => []
  | some record =>
    if (w.record record).isAborting then []
    else [(thread, .action m record (w.record record).thread)]

/-- The thread comes to the action of a pause, with the record of this entry. -/
structure Moment.Chooses (m : ManagerId) (thread : ThreadId) (entry : Registration)
    (moment : Moment) : Prop where
  runs : moment.move = .run thread
  stands : ∃ p rest, moment.world.stack thread = .phases p :: rest ∧ p.manager = m ∧
    p.point = .choose ∧ p.record = entry.record

/-- The thread came to the action of the pause at one of the moments, and started this then. -/
def Pause.Chose (m : ManagerId) (pause : Pause) (moments : List Moment) (thread : ThreadId)
    (starts : List (ThreadId × Note)) : Prop :=
  ∃ entry moment, pause.entries thread = some entry ∧ moment ∈ moments ∧
    moment.Chooses m thread entry ∧ starts = moment.world.startOf m thread entry.record

section

variable {m : ManagerId} {pause : Pause} {w v : World} {thread : ThreadId} {moments : List Moment}

theorem startsOn_told :
    startsOn m thread (told m moments) = startsOn m thread (observations moments) := by
  refine told_filter fun entry starts => ?_
  obtain ⟨other, note⟩ := entry
  cases note <;> simp_all [Note.starts, Note.tellsOf]

theorem Pause.Chose.append {starts : List (ThreadId × Note)} {later : List Moment}
    (chose : pause.Chose m moments thread starts) :
    pause.Chose m (moments ++ later) thread starts := by
  obtain ⟨entry, moment, found, mem, rest⟩ := chose
  exact ⟨entry, moment, found, List.mem_append_left _ mem, rest⟩

/-- The step by which a participant comes to the action starts it, if there is a record for it that
is not aborting. -/
theorem World.Coherent.chooses {notes : List Note} {leads : Option (List Op)} {action : List Op}
    (coherent : w.Coherent m) (slot : (w.core m).action = some action)
    (meets : w.posture m thread = .meeting leads .choose none)
    (step : w.step thread = some (v, notes)) :
    ∃ entry, (w.core m).lookup thread = some entry ∧
      (⟨w, .run thread, notes⟩ : Moment).Chooses m thread entry ∧
      startsOn m thread (notes.map ((thread, ·))) = w.startOf m thread entry.record ∧
      ∀ record bound, Note.action m record bound ∈ notes → bound = (w.record record).thread ∧
        ∃ below, v.stack thread = .script { rest := action } :: below := by
  have sound := coherent.sound thread
  obtain ⟨p, rest, stack, manager, point⟩ := sound.choosing meets (by simp)
  rw [stack] at sound
  obtain ⟨entry, found, record⟩ : ∃ entry, (w.core m).lookup thread = some entry ∧
      entry.record = p.record := by
    refine coherent.bonded thread p.record ?_
    rw [stack]
    obtain ⟨q, below, rfl, exit, -, record⟩ | ⟨q, below, rfl, exit, -, record⟩ :=
      sound.below_phases
    · simp [Frame.bond?, exit, Polling.Point.relies, record]
    · simp [Frame.bond?, exit, Pausing.Point.relies, record]
  refine ⟨entry, found, ⟨rfl, p, rest, stack, manager, point, record.symm⟩, ?_⟩
  rw [record]
  have slot : (w.manager p.manager).action = some action := manager ▸ slot
  have stack : (w.thread thread).stack = .phases p :: rest := stack
  unfold World.step at step
  simp only [stack, Frame.advance, Phases.advance, point, slot] at step
  cases bound : p.record with
  | none =>
    simp only [bound, Effect.goto, Option.map_some, Option.some.injEq, Prod.mk.injEq] at step
    obtain ⟨-, rfl⟩ := step
    simp [startsOn, World.startOf, Control.completion]
  | some r =>
    simp only [bound] at step
    split at step
    · rename_i aborting
      simp only [Effect.goto, Option.map_some, Option.some.injEq, Prod.mk.injEq] at step
      obtain ⟨-, rfl⟩ := step
      simp [startsOn, World.startOf, Control.completion, aborting]
    · rename_i runs
      simp only [Effect.call, Option.map_some, Option.some.injEq, Prod.mk.injEq] at step
      obtain ⟨rfl, rfl⟩ := step
      refine ⟨?_, ?_⟩
      · simp [startsOn, World.startOf, Control.completion, Note.starts, runs, manager]
      · intro record bound mem
        simp only [Control.completion, List.append_nil, List.mem_singleton,
          Note.action.injEq] at mem
        obtain ⟨-, rfl, rfl⟩ := mem
        simp [Control.stack]

theorem Scene.Moves.starts {s s' : Scene} {deed : Deed} {record : RecordId} {bound : ThreadId}
    (moves : s.Moves thread deed s')
    (mem : Note.action m record bound ∈ s.core.notes m thread deed) :
    ∃ leads, s.posture thread = .meeting leads .choose none ∧
      s'.posture thread = .meeting leads .third none := by
  have advances := moves.advances
  generalize s.posture thread = before at advances
  generalize s'.posture thread = after at advances
  cases advances with
  | @start leads => exact ⟨leads, rfl, rfl⟩
  | wait | complete | depart =>
    simp only [Core.notes] at mem
    split at mem <;> simp at mem
  | _ => simp [Core.notes] at mem

/-- An action starts between the second phase and the third, and is the one that the driver has put
there. -/
theorem World.Coherent.starts {notes : List Note} {record : RecordId} {bound : ThreadId}
    (coherent : w.Coherent m) (orderly : Orderly m w thread)
    (step : w.step thread = some (v, notes)) (mem : Note.action m record bound ∈ notes) :
    ∃ action, (w.core m).Stands true 1 (some action) 2 ∧ Acts m (v.stack thread) ∧
      ∃ below, v.stack thread = .script { rest := action } :: below := by
  obtain ⟨coherent', deed, moves, -, noted⟩ :=
    coherent.step_telling orderly step mem (by simp [Note.tellsOf])
  obtain ⟨leads, meets, acting⟩ := moves.starts noted
  have pace := ((coherent.lawful.admits thread).meets meets).pace
  have passed (phase : Nat) : Phases.Point.choose.passed phase none = 2 := rfl
  rw [passed] at pace
  obtain ⟨action, stands⟩ : ∃ action, (w.core m).Stands true 1 (some action) 2 :=
    coherent.lawful.stands_of_second (pace.resolve_right fun three => by simp at three)
  obtain ⟨-, -, -, -, starts⟩ := coherent.chooses stands.action meets step
  obtain ⟨-, below, script⟩ := starts record bound mem
  refine ⟨action, stands, ?_, below, script⟩
  obtain ⟨above, p, under, stack, manager, third, -⟩ := (coherent'.sound thread).meeting acting
  refine ⟨above, p, under, stack, ?_, manager, third⟩
  intro same
  subst same
  simp [script] at stack

theorem Course.progress (course : Course (Orderly m) w moments v) (coherent : w.Coherent m)
    (recounts : (w.scene m).Recounts m pause [])
    (on : (pause.driver, .finished m true) ∉ observations moments)
    (start : (w.scene m).Progress m pause [] thread (pause.Chose m [] thread)) :
    (v.scene m).Progress m pause (told m moments) thread (pause.Chose m moments thread) := by
  induction course with
  | nil => exact start
  | @snoc moments v u move notes before orderly moves ih =>
    rw [observations_append, List.mem_append, not_or] at on
    have recounts := before.recounts coherent recounts on.1
    have progress : (v.scene m).Progress m pause (told m moments) thread
        (pause.Chose m (moments ++ [⟨v, move, notes⟩]) thread) :=
      (ih on.1).imp fun starts chose => chose.append
    have reached := before.coherent coherent
    obtain ⟨-, turns⟩ := reached.move orderly moves
    rw [told_append]
    generalize u.scene m = scene at turns
    cases turns with
    | idle idle =>
      rw [told_idle idle, List.append_nil]
      exact progress
    | @run self deed _ _ turn same =>
      have noted : told m [⟨v, .run self, notes⟩] =
          ((v.scene m).core.notes m self deed).map ((self, ·)) := by
        rw [told_run, same]
      rw [noted]
      by_cases mine : thread = self
      · subst mine
        refine progress.own recounts.toUnderway reached.lawful turn fun ⟨leads, meets⟩ => ?_
        obtain ⟨entry, found, chooses, starts, -⟩ :=
          reached.chooses (recounts.toUnderway.action reached.lawful) meets moves
        refine ⟨entry, _, ?_, List.mem_append_right _ List.mem_cons_self, chooses, ?_⟩
        · obtain same | ⟨gone, -⟩ := recounts.entries thread
          · exact same.symm.trans found
          · exact absurd (gone.symm.trans found) (by simp)
        · rw [← starts, ← noted, startsOn_told]
          simp
      · exact progress.other recounts.toUnderway reached.lawful turn mine

theorem Scene.Recounts.start {s : Scene} {chosen : List (ThreadId × Note) → Prop}
    (recounts : s.Recounts m pause []) (phase : s.core.phaser.phase = 3 * pause.number) :
    s.Progress m pause [] thread chosen := by
  by_cases here : thread ∈ s.core.identities
  · refine .waiting here rfl ?_ (by simp)
    rintro (third | ⟨second, -⟩) <;> omega
  · refine .left here rfl (.inl ?_)
    have none : s.core.lookup thread = none := by
      rw [← Option.not_isSome_iff_eq_none, Core.lookup_isSome]
      exact here
    obtain same | ⟨-, removed⟩ := recounts.entries thread
    · rw [← same, none]
    · simp at removed

/-- Nobody comes out of the phases but before the first or after the third. -/
theorem Scene.Lawful.finishes {s s' : Scene} {deed : Deed} {drives : Bool} (lawful : s.Lawful)
    (moves : s.Moves thread deed s')
    (mem : Note.finished m drives ∈ s.core.notes m thread deed) :
    s.core.phaser.phase = 3 * s.core.pauses + 3 ∨
      s.core.phaser.phase = 3 * s.core.pauses ∧ drives = false := by
  have admits := lawful.admits thread
  have advances := moves.advances
  generalize s.posture thread = before at advances admits
  generalize s'.posture thread = after at advances
  cases advances with
  | finish present =>
    obtain rfl : drives = false := by simpa [Core.notes] using mem
    exact (admits.absent (.inl present) rfl).symm.imp_right (⟨·, rfl⟩)
  | conclude =>
    have stands : s.core.Stands true 1 _ 3 := admits.demands rfl
    exact .inl stands.phase
  | wait | complete | depart =>
    simp only [Core.notes] at mem
    split at mem <;> simp at mem
  | _ => simp [Core.notes] at mem

/-- Whoever runs an action does so between the second and the third arrival. -/
theorem World.Coherent.acts (coherent : w.Coherent m) (acts : Acts m (w.stack thread)) :
    (w.core m).phaser.phase = 3 * (w.core m).pauses + 2 := by
  obtain ⟨leads, meets⟩ := (coherent.sound thread).acting acts
  have pace := ((coherent.lawful.admits thread).meets meets).pace
  have passed (phase : Nat) : Phases.Point.third.passed phase none = 2 := rfl
  rw [passed] at pace
  exact pace.resolve_right fun three => by simp at three

section

variable (course : Course (Orderly m) w moments v) (coherent : w.Coherent m)
  (recounts : (w.scene m).Recounts m pause [])
  (on : (pause.driver, .finished m true) ∉ observations moments)

include course coherent recounts on

/-- By the end of a pause, whoever was registered at its beginning has left or chosen. -/
theorem Course.partakes {entry : Registration} (phase : (w.core m).phaser.phase = 3 * pause.number)
    (third : (v.core m).phaser.phase = 3 * pause.number + 3)
    (found : pause.entries thread = some entry) :
    (thread, .removed (.manager m) thread) ∈ observations moments ∧
        (∀ phase, (thread, .arrived (.registry (.manager m)) phase) ∉ observations moments) ∧
        startsOn m thread (observations moments) = [] ∨
      ∃ moment ∈ moments, moment.Chooses m thread entry ∧
        startsOn m thread (observations moments) = moment.world.startOf m thread entry.record := by
  have progress : (v.scene m).Progress m pause (told m moments) thread
      (pause.Chose m moments thread) :=
    course.progress coherent recounts on (recounts.start phase)
  rw [← startsOn_told]
  cases progress with
  | left gone starts noted =>
    obtain ⟨removed, never⟩ := noted.resolve_left (by simp [found])
    exact .inl ⟨by simpa [told, Note.tellsOf] using removed,
      by simpa [told, Note.tellsOf] using never, starts⟩
  | waiting here starts yet late => exact absurd (.inl third) yet
  | done ended chose =>
    obtain ⟨entry', moment, found', mem, chooses, starts⟩ := chose
    obtain rfl : entry = entry' := Option.some.inj (found.symm.trans found')
    exact .inr ⟨moment, mem, chooses, starts⟩

theorem Course.startsOn_stranger (phase : (w.core m).phaser.phase = 3 * pause.number)
    (stranger : pause.entries thread = none) :
    startsOn m thread (observations moments) = [] := by
  have progress : (v.scene m).Progress m pause (told m moments) thread
      (pause.Chose m moments thread) :=
    course.progress coherent recounts on (recounts.start phase)
  rw [← startsOn_told]
  cases progress with
  | left gone starts noted => exact starts
  | waiting here starts yet late => exact starts
  | done ended chose =>
    obtain ⟨entry, moment, found, -⟩ := chose
    exact absurd (stranger.symm.trans found) (by simp)

/-- When an action starts, it is that of the driver, the fresh epoch is published, and whoever was
registered at the beginning of the pause has arrived or left. -/
theorem Course.started {notes : List Note} {u : World} {record : RecordId} {bound : ThreadId}
    (orderly : Orderly m v thread) (step : v.step thread = some (u, notes))
    (mem : Note.action m record bound ∈ notes) :
    (∃ below, u.stack thread = .script { rest := pause.action } :: below) ∧
      (pause.driver, .republished m (pause.number + 1)) ∈ observations moments ∧
      ∀ other entry, pause.entries other = some entry →
        (other, .removed (.manager m) other) ∈ observations moments ∨
          (other, .arrived (.registry (.manager m)) (3 * pause.number)) ∈ observations moments := by
  have reached := course.coherent coherent
  have recounts := course.recounts coherent recounts on
  obtain ⟨action, stands, -, below, script⟩ := reached.starts orderly step mem
  have slot : (v.core m).action = some pause.action := recounts.toUnderway.action reached.lawful
  have number : (v.core m).pauses = pause.number := recounts.number
  have phase : (v.core m).phaser.phase = 3 * pause.number + 2 := number ▸ stands.phase
  obtain rfl : action = pause.action := Option.some.inj (stands.action.symm.trans slot)
  refine ⟨⟨below, script⟩, ?_, ?_⟩
  · have fresh := recounts.fresh stands.valid
    exact (List.mem_filter.mp fresh).1
  · intro other entry found
    obtain same | ⟨-, removed⟩ := recounts.entries other
    · right
      have here : other ∈ (v.core m).identities :=
        Core.lookup_isSome.mp (by rw [show (v.core m).lookup other = _ from same, found]; rfl)
      have arrived := recounts.arrived other 0 (.inr ⟨by
        show _ < (v.core m).phaser.phase
        omega, here⟩)
      exact (List.mem_filter.mp arrived).1
    · exact .inl (List.mem_filter.mp removed).1

end

/-- Nobody runs an action when somebody comes out of the phases. -/
theorem World.Coherent.finished {self : ThreadId} {notes : List Note} {drives : Bool}
    (coherent : w.Coherent m) (thread : ThreadId) (orderly : Orderly m w self)
    (step : w.step self = some (v, notes)) (mem : Note.finished m drives ∈ notes) :
    ((w.core m).phaser.phase = 3 * (w.core m).pauses + 3 ∨
      (w.core m).phaser.phase = 3 * (w.core m).pauses ∧ drives = false) ∧
      ¬ Acts m (w.stack thread) := by
  obtain ⟨-, deed, moves, -, noted⟩ :=
    coherent.step_telling orderly step mem (by simp [Note.tellsOf])
  have phase : (w.core m).phaser.phase = 3 * (w.core m).pauses + 3 ∨
      (w.core m).phaser.phase = 3 * (w.core m).pauses ∧ drives = false :=
    coherent.lawful.finishes moves noted
  refine ⟨phase, fun acts => ?_⟩
  have second := coherent.acts acts
  omega

/-- Consider a pause from the step by which its driver invalidates the epoch to the step by which it
comes out of the phases. A thread that is registered when the epoch is invalidated leaves before it
arrives and starts nothing, or comes to the action once and starts it then, under the record of its
entry. No other thread starts anything. What is started is the action of the driver; by then the fresh
epoch is published, and all that were registered have arrived or left. It is over before anybody
comes out of the phases. -/
theorem action_once {pre mid post : List Moment} {first last : Moment} {driver : ThreadId} {k : Nat}
    (fresh : w.IsFresh m)
    (course : Course (Orderly m) w (pre ++ first :: (mid ++ last :: post)) v)
    (begins : (driver, .invalidated m k) ∈ first.observed)
    (within : (driver, .finished m true) ∉ observations mid)
    (ends : (driver, .finished m true) ∈ last.observed) :
    ∃ p rest, first.world.stack driver = .pausing p :: rest ∧ p.manager = m ∧
      (∀ thread entry, (first.world.manager m).registry.get? thread = some entry →
        (thread, .removed (.manager m) thread) ∈ observations mid ∧
            (∀ phase, (thread, .arrived (.registry (.manager m)) phase) ∉ observations mid) ∧
            startsOn m thread (observations mid) = [] ∨
          ∃ moment ∈ mid, moment.Chooses m thread entry ∧
            startsOn m thread (observations mid) =
              moment.world.startOf m thread entry.record) ∧
      (∀ thread, (first.world.manager m).registry.get? thread = none →
        startsOn m thread (observations mid) = []) ∧
      (∀ before moment after thread record bound, mid = before ++ moment :: after →
        (thread, .action m record bound) ∈ moment.observed →
        (∃ next rest, moment.world.move moment.move = some (next, moment.notes) ∧
          next.stack thread = .script { rest := p.action } :: rest) ∧
        (driver, .republished m (k + 1)) ∈ observations before ∧
        ∀ other entry, (first.world.manager m).registry.get? other = some entry →
          (other, .removed (.manager m) other) ∈ observations before ∨
            (other, .arrived (.registry (.manager m)) (3 * k)) ∈ observations before) ∧
      ∀ moment ∈ mid ++ [last], ∀ thread drives, (thread, .finished m drives) ∈ moment.observed →
        ∀ other, ¬ Acts m (moment.world.stack other) := by
  obtain ⟨w₁, before, orderly₁, moved₁, after⟩ := course.split rfl
  obtain ⟨runs, noted⟩ := Moment.mem_observed.mp begins
  rw [runs] at moved₁
  have coherent₀ := before.coherent fresh.coherent
  obtain ⟨coherent₁, phase, p, rest, stack, manager, -, recounts⟩ :=
    coherent₀.begins (orderly₁ driver runs) moved₁ noted
  obtain ⟨w₂, during, orderly₂, moved₂, -⟩ := after.split rfl
  have coherent₂ := during.coherent coherent₁
  obtain ⟨runs₂, noted₂⟩ := Moment.mem_observed.mp ends
  rw [runs₂] at moved₂
  have third : (last.world.core m).phaser.phase = 3 * k + 3 := by
    have ended := (coherent₂.finished driver (orderly₂ driver runs₂) moved₂ noted₂).1
    have number : (last.world.core m).pauses = k :=
      (during.recounts coherent₁ recounts within).number
    simp only [Bool.true_eq_false, and_false, or_false] at ended
    omega
  refine ⟨p, rest, stack, manager, ?_, ?_, ?_, ?_⟩
  · intro thread entry found
    exact during.partakes coherent₁ recounts within phase third found
  · intro thread stranger
    exact during.startsOn_stranger coherent₁ recounts within phase stranger
  · intro before moment after thread record bound parts started
    subst parts
    obtain ⟨next, earlier, orderly, moved, -⟩ := during.split rfl
    obtain ⟨runs, noted⟩ := Moment.mem_observed.mp started
    have on : (driver, .finished m true) ∉ observations before := by
      simp only [observations_append, List.mem_append, not_or] at within
      exact within.1
    rw [runs] at moved ⊢
    obtain ⟨⟨below, script⟩, rest⟩ :=
      earlier.started coherent₁ recounts on (orderly thread runs) moved noted
    exact ⟨⟨next, below, moved, script⟩, rest⟩
  · intro moment mem thread drives finished other
    obtain ⟨runs, noted⟩ := Moment.mem_observed.mp finished
    have parts := List.append_of_mem mem
    obtain ⟨earlier, later, parts⟩ := parts
    have joined : mid ++ last :: post = (mid ++ [last]) ++ post := by simp
    obtain ⟨middle, whole, -⟩ := after.cut joined
    obtain ⟨next, reach, orderly, moved, -⟩ := whole.split parts
    rw [runs] at moved
    exact ((reach.coherent coherent₁).finished other (orderly thread runs) moved noted).2

/-- In the pause of two threads, the second comes to the action and starts it. -/
theorem action_once_pauseOfTwo : ∃ pre first mid last post v, World.pair.IsFresh 0 ∧
    Course (Orderly 0) World.pair (pre ++ first :: (mid ++ last :: post)) v ∧
    (0, .invalidated 0 0) ∈ first.observed ∧ (0, .finished 0 true) ∉ observations mid ∧
    (0, .finished 0 true) ∈ last.observed ∧ ∃ moment ∈ mid, moment.Chooses 0 1 ⟨1, some 1, true⟩ ∧
      startsOn 0 1 (observations mid) = moment.world.startOf 0 1 (some 1) := by
  have made : (World.pair.follow (World.isOrderly 0) pauseOfTwo).any (fun made =>
      made.1[41]?.any (fun first => shows 0 (·.isInvalidation 0 0) first.observed &&
        (first.world.manager 0).registry.get? 1 = some ⟨1, some 1, true⟩) &&
      (made.1.drop 42)[52]?.any (fun last => shows 0 (·.isFinish 0 true) last.observed) &&
      !shows 0 (·.isFinish 0 true) (observations ((made.1.drop 42).take 52)) &&
      !(startsOn 0 1 (observations ((made.1.drop 42).take 52))).isEmpty) = true := by
    decide +kernel
  obtain ⟨⟨moments, v⟩, follows, state⟩ := (Option.any_eq_true _ _).mp made
  simp only [Bool.and_eq_true, decide_eq_true_eq, Option.any_eq_true] at state
  obtain ⟨⟨⟨⟨first, found, invalidates, entry⟩, last, found', finishes⟩, within⟩, starts⟩ := state
  have course := World.course_of_follow (World.orderly_of_isOrderly 0) follows
  rw [eq_take_cons_drop found, eq_take_cons_drop found'] at course
  have begun : (0, Note.invalidated 0 0) ∈ first.observed :=
    (shows_iff Note.isInvalidation_iff).mp invalidates
  have ended : (0, Note.finished 0 true) ∈ last.observed :=
    (shows_iff Note.isFinish_iff).mp finishes
  have on : (0, Note.finished 0 true) ∉ observations ((moments.drop 42).take 52) := by
    intro mem
    simp [(shows_iff Note.isFinish_iff).mpr mem] at within
  obtain ⟨-, -, -, -, partakes, -⟩ := action_once World.pair_isFresh course begun on ended
  refine ⟨_, first, _, last, _, v, World.pair_isFresh, course, begun, on, ended, ?_⟩
  obtain ⟨-, -, none⟩ | chose := partakes 1 _ entry
  · simp [none] at starts
  · exact chose

end

end StopTheWorld
