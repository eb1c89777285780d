import StopTheWorld.Proofs.Headcount

namespace StopTheWorld

/-! Who of those that a driver has counted goes through its pause. -/

/-- The driver owns the pause lock and has yet to invalidate the epoch. Those it has counted are
registered still or have deregistered. -/
structure Scene.Prepares (m : ManagerId) (driver : ThreadId) (k : Nat) (counted : List ThreadId)
    (history : List (ThreadId × Note)) (s : Scene) : Prop where
  drives : ∃ action point, s.posture driver = .driving action point ∧ point.stage = 0
  valid : s.core.epoch.valid = true
  number : s.core.pauses = k
  phase : s.core.phaser.phase = 3 * k
  inside : ∀ thread ∈ s.core.identities, thread ∈ counted
  outside : ∀ thread ∈ counted, thread ∈ s.core.identities ∨
    (thread, .removed (.manager m) thread) ∈ history
  still : ∀ thread phase, (thread, .arrived (.registry (.manager m)) phase) ∉ history

/-- The thread has arrived at each of the three phases of the pause. -/
def GoesThrough (m : ManagerId) (k : Nat) (thread : ThreadId) (history : List (ThreadId × Note)) : Prop :=
  ∀ round < 3, (thread, .arrived (.registry (.manager m)) (3 * k + round)) ∈ history

/-- The thread has deregistered, and has not arrived at any phase. -/
def Withdraws (m : ManagerId) (thread : ThreadId) (history : List (ThreadId × Note)) : Prop :=
  (thread, .removed (.manager m) thread) ∈ history ∧
    ∀ phase, (thread, .arrived (.registry (.manager m)) phase) ∉ history

/-- Of the threads counted, `went` have gone through the `k`-th pause and `left` have withdrawn. -/
structure Turnout (m : ManagerId) (driver : ThreadId) (n k : Nat) (counted : List ThreadId)
    (earlier span : List Moment) (went left : List ThreadId) : Prop where
  parts : (went ++ left).Perm counted
  distinct : went.Nodup
  number : n = went.length + left.length
  driver : driver ∈ went
  through : ∀ thread, thread ∈ went ↔ GoesThrough m k thread (observations span)
  withdrawn : ∀ thread ∈ left, Withdraws m thread (observations (earlier ++ span))

section

variable {m : ManagerId} {pause : Pause} {s s' : Scene} {thread driver : ThreadId} {deed : Deed}
  {history : List (ThreadId × Note)} {w v : World} {moments : List Moment} {k : Nat}
  {counted : List ThreadId}

/-- While the epoch is valid and no phase has passed since the last pause, nobody is on the way through
a phase. -/
theorem Core.not_gathers {core : Core} (valid : core.epoch.valid = true)
    (phase : core.phaser.phase = 3 * core.pauses) : ¬ core.Gathers := by
  rintro ⟨round, -, pace, opening⟩
  have invalid := opening (by omega)
  simp [valid] at invalid

theorem Scene.Lawful.not_arrives (lawful : s.Lawful) (moves : s.Moves thread deed s')
    (idle : ¬ s.core.Gathers) : deed ≠ .arrive := by
  rintro rfl
  have admits := lawful.admits thread
  have advances := moves.advances
  generalize s.posture thread = before at advances admits
  generalize s'.posture thread = after at advances
  cases advances with
  | wait | complete => exact idle ((admits.meets rfl).gathers (.inl rfl))

/-- Until the driver invalidates the epoch, all that others can do is deregister. -/
theorem Scene.Prepares.step (prepares : s.Prepares m driver k counted history) (lawful : s.Lawful)
    (moves : s.Moves thread deed s') (on : thread = driver → deed ≠ .invalidate) :
    s'.Prepares m driver k counted (history ++ (s.core.notes m thread deed).map ((thread, ·))) := by
  obtain ⟨action, point, drives, early⟩ := prepares.drives
  have idle : ¬ s.core.Gathers :=
    Core.not_gathers prepares.valid (prepares.number.symm ▸ prepares.phase)
  have quiet := lawful.not_arrives moves idle
  have still : s'.core.phaser.phase = s.core.phaser.phase :=
    (lawful.phase_cases moves).resolve_right fun next => idle next.2.1
  have owner : s.core.owner = some driver := (lawful.admits driver).owner.mp (drives ▸ rfl)
  -- Whoever owns the pause lock is the driver, at one of these points.
  have place (owns : (s.posture thread).owns = true) :
      s.posture thread = .driving action point ∧ deed ≠ .invalidate := by
    obtain rfl := Option.some.inj (owner.symm.trans ((lawful.admits thread).owner.mp owns))
    exact ⟨drives, on rfl⟩
  have advances := moves.advances
  have drives' : ∃ action point, s'.posture driver = .driving action point ∧ point.stage = 0 := by
    by_cases same : thread = driver
    · have unfinished := on same
      subst same
      generalize s.posture thread = before at advances drives
      generalize s'.posture thread = after at advances ⊢
      subst drives
      cases advances with
      | stay => exact ⟨_, _, rfl, early⟩
      | announceStart | store => exact ⟨_, _, rfl, rfl⟩
      | proceed passes =>
        cases passes <;> first | exact ⟨_, _, rfl, rfl⟩ | simp [Pausing.Point.stage] at early
      | invalidate => exact absurd rfl unfinished
      | _ => simp [Pausing.Point.stage] at early
    · rw [moves.others driver (Ne.symm same)]
      exact ⟨action, point, drives, early⟩
  have core : s'.core.epoch = s.core.epoch ∧ s'.core.pauses = s.core.pauses ∧
      (s'.core.members = s.core.members ∨ deed = .remove) := by
    rw [moves.core]
    generalize s.posture thread = before at advances place
    generalize s'.posture thread = after at advances
    cases advances with
    | invalidate => exact absurd rfl (place rfl).2
    | republish | insert => cases (place rfl).1
    | account =>
      cases (place rfl).1
      simp [Pausing.Point.stage] at early
    | remove => exact ⟨rfl, rfl, .inr rfl⟩
    | _ => exact ⟨rfl, rfl, .inl rfl⟩
  refine ⟨drives', core.1 ▸ prepares.valid, core.2.1.trans prepares.number,
    still.trans prepares.phase, fun other here => ?_, fun other there => ?_, fun other phase => ?_⟩
  · obtain same | rfl := core.2.2
    · exact prepares.inside other (by rwa [Core.identities, same] at here)
    · rw [moves.core] at here
      exact prepares.inside other (Scene.Lawful.mem_identities_remove.mp here).2
  · rw [List.mem_append]
    obtain here | gone := prepares.outside other there
    · obtain same | rfl := core.2.2
      · exact .inl (by rwa [Core.identities, same])
      · by_cases mine : other = thread
        · exact .inr (.inr (by simp [mine, Core.notes]))
        · rw [moves.core]
          exact .inl (Scene.Lawful.mem_identities_remove.mpr ⟨mine, here⟩)
    · exact .inr (.inl gone)
  · rw [List.mem_append, not_or]
    exact ⟨prepares.still other phase, fun mem => by
      by_cases mine : other = thread
      · exact arrived_notMem quiet (mine ▸ mem)
      · simp [Ne.symm mine] at mem⟩

theorem Scene.Underway.step_of_driver (underway : s.Underway pause) (lawful : s.Lawful)
    (moves : s.Moves thread deed s')
    (on : (pause.driver, .finished m true) ∉ (s.core.notes m thread deed).map ((thread, ·))) :
    s'.Underway pause := by
  refine underway.step lawful moves ?_
  rintro rfl
  have owns : (s.posture thread).owns = true := by
    have advances := moves.advances
    generalize s.posture thread = before at advances
    generalize s'.posture thread = after at advances
    cases advances
    rfl
  exact on (by simp [Core.notes, underway.eq_driver lawful owns])

/-- A thread that is not registered when a pause is under way has no part in it. -/
structure Scene.Excludes (m : ManagerId) (pause : Pause) (thread : ThreadId)
    (history : List (ThreadId × Note)) (s : Scene) : Prop where
  underway : s.Underway pause
  away : thread ∉ s.core.identities
  never : ∀ phase, (thread, .arrived (.registry (.manager m)) phase) ∉ history

theorem Scene.Excludes.step {self : ThreadId} (excludes : s.Excludes m pause thread history)
    (lawful : s.Lawful) (moves : s.Moves self deed s')
    (on : (pause.driver, .finished m true) ∉ (s.core.notes m self deed).map ((self, ·))) :
    s'.Excludes m pause thread (history ++ (s.core.notes m self deed).map ((self, ·))) := by
  refine ⟨excludes.underway.step_of_driver lawful moves on, ?_, fun phase => ?_⟩
  · by_cases mine : thread = self
    · subst mine
      exact (Scene.Progress.own_left excludes.away excludes.underway lawful moves).1
    · rw [moves.core]
      exact (Scene.Lawful.mem_identities_other moves.advances mine).not.mpr excludes.away
  · rw [List.mem_append, not_or]
    refine ⟨excludes.never phase, fun mem => ?_⟩
    by_cases mine : thread = self
    · subst mine
      exact arrived_notMem
        (Scene.Progress.own_left excludes.away excludes.underway lawful moves).2.2 mem
    · simp [Ne.symm mine] at mem

theorem Course.excludes (course : Course (Orderly m) w moments v) (coherent : w.Coherent m)
    (underway : (w.scene m).Underway pause)
    (on : (pause.driver, .finished m true) ∉ observations moments)
    (gone : thread ∉ (w.core m).identities) :
    (v.scene m).Excludes m pause thread (told m moments) := by
  refine course.tells (P := fun history s =>
    (pause.driver, .finished m true) ∉ history → s.Excludes m pause thread history)
    (fun lawful kept moves unfinished => ?_) coherent (fun _ => ⟨underway, gone, by simp⟩)
    (by simp [told, on])
  rw [List.mem_append, not_or] at unfinished
  exact (kept unfinished.1).step lawful moves unfinished.2

theorem Course.prepares {action : List Op} (course : Course (Orderly m) w moments v)
    (coherent : w.Coherent m) (drives : w.posture m driver = .driving action .open)
    (on : ∀ k, (driver, .invalidated m k) ∉ observations moments) :
    (v.scene m).Prepares m driver (w.core m).pauses (w.core m).identities (told m moments) := by
  have admits := coherent.lawful.admits driver
  rw [show (w.scene m).posture driver = _ from drives] at admits
  have rests : (w.core m).Rests := admits.demands rfl
  refine course.tells (P := fun history s => (∀ k, (driver, .invalidated m k) ∉ history) →
      s.Prepares m driver (w.core m).pauses (w.core m).identities history)
    (fun {history s s' self deed} lawful kept moves quiet => ?_) coherent
    (fun _ => ⟨⟨action, .open, drives, rfl⟩, rests.valid, rfl, rests.phase, fun _ here => here,
      fun _ here => .inl here, by simp⟩)
    (fun k => by simp [told, on])
  simp only [List.mem_append, not_or] at quiet
  refine (kept fun k => (quiet k).1).step lawful moves ?_
  rintro rfl rfl
  exact (quiet s.core.epoch.generation).2 (by simp [Core.notes])

/-- Where a thread deregisters, it is in no phase. -/
theorem World.Coherent.removes {notes : List Note} (coherent : w.Coherent m)
    (orderly : Orderly m w thread) (step : w.step thread = some (v, notes))
    (mem : Note.removed (.manager m) thread ∈ notes) :
    v.Coherent m ∧ (w.scene m).Moves thread .remove (v.scene m) ∧
      thread ∈ (w.core m).identities ∧ w.posture m thread = .outside ∧
      thread ∉ (v.core m).identities ∧ ∀ phase, .arrived (.registry (.manager m)) phase ∉ notes := by
  obtain ⟨coherent', deed, moves, noted, told⟩ :=
    coherent.step_telling orderly step mem (by simp [Note.tellsOf])
  obtain rfl : deed = .remove := by
    cases deed with
    | remove => rfl
    | depart | arrive =>
      simp only [Core.notes] at told
      split at told <;> simp at told
    | _ => simp [Core.notes] at told
  have core : v.core m = (w.core m).after thread .remove := moves.core
  have advances := moves.advances
  have here : thread ∈ (w.core m).identities ∧ w.posture m thread = .outside := by
    show _ ∧ (w.scene m).posture thread = _
    generalize (w.scene m).posture thread = before at advances
    generalize (v.scene m).posture thread = after at advances
    cases advances with
    | remove present => exact ⟨present, rfl⟩
  refine ⟨coherent', moves, here.1, here.2, ?_, fun phase arrived => ?_⟩
  · rw [core]
    exact fun there => (Scene.Lawful.mem_identities_remove.mp there).1 rfl
  · have shown : .arrived (.registry (.manager m)) phase ∈ notes.filter (·.tellsOf m) :=
      List.mem_filter.mpr ⟨arrived, by simp [Note.tellsOf]⟩
    rw [noted] at shown
    simp [Core.notes] at shown

section

variable (course : Course (Orderly m) w moments v) (coherent : w.Coherent m)
  (recounts : (w.scene m).Recounts m pause [])
  (on : (pause.driver, .finished m true) ∉ observations moments)

include course coherent recounts on

/-- Whoever is registered once the third phase is over has arrived at all three. -/
theorem Course.goes_through (third : (v.core m).phaser.phase = 3 * pause.number + 3)
    (here : thread ∈ (v.core m).identities) : GoesThrough m pause.number thread (observations moments) := by
  intro round lt
  have arrived := (course.recounts coherent recounts on).arrived thread round (.inr ⟨by
    show _ < (v.core m).phaser.phase
    omega, here⟩)
  exact (List.mem_filter.mp arrived).1

/-- Whoever is registered at the beginning of a pause, and not registered any more unless the third
phase is over, has arrived at all phases, or has deregistered without having arrived. -/
theorem Course.goes_through_or_withdraws (phase : (w.core m).phaser.phase = 3 * pause.number)
    (third : thread ∈ (v.core m).identities → (v.core m).phaser.phase = 3 * pause.number + 3)
    (here : thread ∈ (w.core m).identities) :
    GoesThrough m pause.number thread (observations moments) ∨
      Withdraws m thread (observations moments) := by
  by_cases there : thread ∈ (v.core m).identities
  · exact .inl (course.goes_through coherent recounts on (third there) there)
  have removed : (thread, .removed (.manager m) thread) ∈ observations moments := by
    obtain same | ⟨-, gone⟩ := (course.recounts coherent recounts on).entries thread
    · refine absurd (Core.lookup_isSome.mp ?_) there
      obtain first | ⟨-, gone⟩ := recounts.entries thread
      · rw [show (v.core m).lookup thread = _ from same, ← first]
        exact Core.lookup_isSome.mpr here
      · simp at gone
    · exact (List.mem_filter.mp gone).1
  -- The thread is in no phase when it deregisters: it is before the first of them or after the third.
  obtain ⟨before, moment, after, rfl, -, noted⟩ := exists_first_observed removed
  simp only [observations_append, observations_cons, List.mem_append, not_or] at on
  obtain ⟨runs, mem⟩ := Moment.mem_observed.mp noted
  obtain ⟨x, early, orderly, moved, later⟩ := course.split rfl
  rw [runs] at moved
  have reached := early.coherent coherent
  have recounts' := early.recounts coherent recounts on.1
  obtain ⟨coherent', moves, present, outside, gone, quiet⟩ :=
    reached.removes (orderly thread runs) moved mem
  have number : (moment.world.core m).pauses = pause.number := recounts'.number
  have pace : (moment.world.core m).phaser.phase = 3 * (moment.world.core m).pauses ∨
      (moment.world.core m).phaser.phase = 3 * (moment.world.core m).pauses + 3 :=
    (reached.lawful.admits thread).absent (.inl present) (by
      show (moment.world.posture m thread).meets = false
      rw [outside]
      rfl)
  rw [number] at pace
  obtain first | passed := pace
  · right
    -- It has not arrived yet, and cannot once it is gone.
    have unarrived : ∀ phase,
        (thread, .arrived (.registry (.manager m)) phase) ∉ told m before := by
      have progress : (moment.world.scene m).Progress m pause (told m before) thread
          (pause.Chose m before thread) :=
        early.progress coherent recounts on.1 (recounts.start phase)
      cases progress with
      | left gone => exact absurd present gone
      | waiting here starts yet late => exact late first (by simp [World.scene, outside, Posture.hasArrived])
      | done ended =>
        have phase : (moment.world.scene m).core.phaser.phase = 3 * pause.number := first
        obtain third | ⟨second, -⟩ := ended <;> omega
    have excludes := later.excludes coherent'
      (recounts'.toUnderway.step reached.lawful moves (by simp)) on.2.2 gone
    refine ⟨removed, fun phase arrived => ?_⟩
    simp only [observations_append, observations_cons, List.mem_append] at arrived
    obtain arrived | now | arrived := arrived
    · exact unarrived phase (by simp [told, arrived, Note.tellsOf])
    · exact quiet phase (Moment.mem_observed.mp now).2
    · exact excludes.never phase (by simp [told, arrived, Note.tellsOf])
  · left
    intro round lt
    have arrived := early.goes_through coherent recounts on.1 passed present round lt
    simp [arrived]

end

/-- A thread that is not registered at the beginning of a pause never arrives in it. -/
theorem Course.never_arrives (course : Course (Orderly m) w moments v) (coherent : w.Coherent m)
    (recounts : (w.scene m).Recounts m pause [])
    (on : (pause.driver, .finished m true) ∉ observations moments)
    (away : thread ∉ (w.core m).identities) (phase : Nat) :
    (thread, .arrived (.registry (.manager m)) phase) ∉ observations moments := by
  intro arrived
  have excludes := course.excludes coherent recounts.toUnderway on away
  exact excludes.never phase (List.mem_filter.mpr ⟨arrived, by simp [Note.tellsOf]⟩)

/-- Whoever withdraws during a pause may have done so before it began. -/
theorem Withdraws.append {earlier later : List (ThreadId × Note)} (withdraws : Withdraws m thread later)
    (never : ∀ phase, (thread, .arrived (.registry (.manager m)) phase) ∉ earlier) :
    Withdraws m thread (earlier ++ later) :=
  ⟨List.mem_append_right _ withdraws.1, fun phase arrived =>
    (List.mem_append.mp arrived).elim (never phase) (withdraws.2 phase)⟩

/-- Those that a driver counts go through its pause, as it does itself, or withdraw; nobody else arrives
in the pause. -/
theorem Convenes.turnout {base : List Frame} {n : Nat} {opening first finish : Moment}
    {prelude span tail : List Moment}
    (convenes : Convenes m driver base n k opening prelude first span finish)
    (coherent : opening.world.Coherent m)
    (course : Course (Orderly m) opening.world
      (opening :: (prelude ++ first :: (span ++ finish :: tail))) v) :
    driver ∈ (opening.world.core m).identities ∧ GoesThrough m k driver (observations span) ∧
      (∀ thread ∈ (opening.world.core m).identities, GoesThrough m k thread (observations span) ∨
        Withdraws m thread (observations ((prelude ++ [first]) ++ span))) ∧
      ∀ thread ∉ (opening.world.core m).identities, ∀ phase,
        (thread, .arrived (.registry (.manager m)) phase) ∉ observations span := by
  obtain ⟨x, lead, orderly, moved, later⟩ := course.split (List.cons_append ..).symm
  obtain ⟨u, during, orderly', moved', -⟩ := later.split rfl
  obtain ⟨next, -, -, counted, -⟩ := course.split (List.nil_append _).symm
  have silent {note : Note} (tells : note.tellsOf m = true) (other : ThreadId) :
      (other, note) ∉ opening.observed := by
    intro told
    have mem := (Moment.mem_observed.mp told).2
    rw [convenes.counts.silent counted, List.mem_singleton] at mem
    subst mem
    simp [Note.tellsOf] at tells
  -- Before the epoch is invalidated, those counted can only deregister.
  obtain ⟨p, top, manager, point⟩ := convenes.counts.stands
  have drives : opening.world.posture m driver = .driving p.action .open := by
    show posture m (opening.world.stack driver) = _
    rw [top]
    simp [Frame.posture, point, Pausing.Point.drives]
  have prepares := lead.prepares coherent drives fun l told => by
    rw [observations_cons, List.mem_append] at told
    exact told.elim (silent (by simp [Note.tellsOf]) driver) (convenes.quiet l)
  obtain ⟨runs, noted⟩ := Moment.mem_observed.mp convenes.begins
  rw [runs] at moved
  obtain ⟨coherent', phase, q, rest, -, -, -, recounts⟩ :=
    (lead.coherent coherent).begins (orderly driver runs) moved noted
  have single := (lead.coherent coherent).invalidates (orderly driver runs) moved noted
  have members (thread : ThreadId) :
      thread ∈ (x.core m).identities ↔ thread ∈ (first.world.core m).identities := by
    have kept : (x.core m).lookup thread = (first.world.core m).lookup thread :=
      (recounts.entries thread).resolve_right fun gone => List.not_mem_nil gone.2
    rw [← Core.lookup_isSome, ← Core.lookup_isSome, kept]
  have never (thread : ThreadId) (phase : Nat) :
      (thread, .arrived (.registry (.manager m)) phase) ∉ observations (prelude ++ [first]) := by
    rw [observations_append, List.mem_append, not_or]
    constructor
    · refine fun arrived => prepares.still thread phase (List.mem_filter.mpr ⟨?_, by simp [Note.tellsOf]⟩)
      rw [observations_cons]
      exact List.mem_append_right _ arrived
    · intro arrived
      have mem : .arrived (.registry (.manager m)) phase ∈ first.notes.filter (·.tellsOf m) :=
        List.mem_filter.mpr ⟨(Moment.mem_observed.mp (by simpa using arrived)).2, by simp [Note.tellsOf]⟩
      simp [single] at mem
  -- The driver comes out of the phases after the third of them.
  have reached := during.coherent coherent'
  have current := during.recounts coherent' recounts convenes.within
  obtain ⟨runs', noted'⟩ := Moment.mem_observed.mp convenes.ends
  rw [runs'] at moved'
  have third : (finish.world.core m).phaser.phase = 3 * k + 3 := by
    have ended := (reached.finished driver (orderly' driver runs') moved' noted').1
    have number : (finish.world.core m).pauses = k := current.number
    simp only [Bool.true_eq_false, and_false, or_false] at ended
    omega
  have present : driver ∈ (finish.world.core m).identities :=
    (reached.lawful.admits driver).relies current.conducts.relies
  have counted' : driver ∈ (opening.world.core m).identities :=
    (coherent.lawful.admits driver).relies (by
      rw [show (opening.world.scene m).posture driver = _ from drives]
      rfl)
  refine ⟨counted', during.goes_through coherent' recounts convenes.within third present, fun thread counted => ?_,
    fun thread stranger => ?_⟩
  · rw [observations_append]
    by_cases here : thread ∈ (x.core m).identities
    · exact (during.goes_through_or_withdraws coherent' recounts convenes.within phase (fun _ => third) here).imp_right
        fun withdraws => withdraws.append (never thread)
    · have removed : (thread, .removed (.manager m) thread) ∈ observations prelude := by
        have gone := (prepares.outside thread counted).resolve_left fun there =>
          here ((members thread).mpr there)
        have gone := (List.mem_filter.mp gone).1
        rw [observations_cons, List.mem_append] at gone
        exact gone.resolve_left (silent (by simp [Note.tellsOf]) thread)
      refine .inr ⟨by simp [removed], fun phase arrived => ?_⟩
      exact (List.mem_append.mp arrived).elim (never thread phase)
        (during.never_arrives coherent' recounts convenes.within here phase)
  · exact during.never_arrives coherent' recounts convenes.within fun here =>
      stranger (prepares.inside thread ((members thread).mp here))

/-- The number of participants that is announced at the end of a pause is the number of the threads that
were registered when its driver counted, with the pause lock and before the pause began. Each of them has
gone through the three phases of the pause, as the driver has, or has deregistered without arriving at
any; nobody else has gone through them. So the number is that of the threads that have gone through the
phases, unless somebody who was counted has deregistered. -/
theorem participants_counted {before after : List Moment} {last : Moment} {n duration : Nat}
    (fresh : w.IsFresh m) (course : Course (Orderly m) w moments v)
    (parts : moments = before ++ last :: after)
    (told : (thread, .published m (.pauseCompleted driver n duration)) ∈ last.observed) :
    ∃ pre opening prelude first span finish tail base k,
      before = pre ++ opening :: (prelude ++ first :: (span ++ finish :: tail)) ∧
      (∃ p, last.world.stack driver = .pausing p :: base ∧ p.manager = m) ∧
      Convenes m driver base n k opening prelude first span finish ∧
      ∃ went left, Turnout m driver n k (opening.world.core m).identities (prelude ++ [first]) span went
        left := by
  classical
  obtain ⟨pre, opening, prelude, first, span, finish, tail, base, k, rfl, convenes, stands⟩ :=
    course.convened fresh parts told
  obtain ⟨-, reach, -⟩ := course.split parts
  obtain ⟨-, start, -⟩ := reach.split rfl
  have coherent := start.coherent fresh.coherent
  have between := course.between (parts.trans (List.append_assoc ..))
  obtain ⟨counted, goes, members, strangers⟩ := convenes.turnout coherent between
  have perm := List.filter_append_perm
    (fun thread => decide (GoesThrough m k thread (observations span))) (opening.world.core m).identities
  refine ⟨pre, opening, prelude, first, span, finish, tail, base, k, rfl, stands, convenes, _, _,
    perm, coherent.lawful.distinct.filter _, ?_, ?_, fun thread => ⟨fun mem => ?_, fun goes => ?_⟩,
    fun thread mem => ?_⟩
  · rw [← List.length_append, perm.length_eq, convenes.counts.size]
    simp [Core.identities, World.core, Manager.core, Registry.size]
  · exact List.mem_filter.mpr ⟨counted, decide_eq_true goes⟩
  · exact of_decide_eq_true (List.mem_filter.mp mem).2
  · refine List.mem_filter.mpr ⟨by_contra fun stranger => ?_, decide_eq_true goes⟩
    exact strangers thread stranger _ (goes 0 (by omega))
  · obtain ⟨here, stays⟩ := List.mem_filter.mp mem
    refine (members thread here).resolve_left fun goes => ?_
    simp [goes] at stays

/-- The note is not that of an arrival at a phase of the manager. -/
def Note.isAside (m : ManagerId) : Note → Bool
  | arrived phaser _ => phaser ≠ .registry (.manager m)
  | _ => true

/-- The second thread has begun to leave when the first one counts the members for its pause, and
deregisters before the pause begins. -/
def pauseOfLeaver : List Move :=
  Move.repeated [
    (1, .submit 0 (.enter 0)), (14, .run 0), (1, .submit 1 (.enter 0)), (14, .run 1),
    (1, .submit 1 (.leave 0)), (5, .run 1), (1, .submit 0 (.pauseWith 0 false [.log "a"])), (8, .run 0),
    (4, .run 1), (37, .run 0)]

theorem World.exists_pauseOfLeaver : ∃ moments v before last after,
    Course (Orderly 0) World.pair moments v ∧ moments = before ++ last :: after ∧
    (0, .published 0 (.pauseCompleted 0 2 0)) ∈ last.observed ∧ (v.core 0).pauses = 1 ∧
    ∀ thread phase,
      (thread, .arrived (.registry (.manager 0)) phase) ∈ observations moments → thread = 0 := by
  have made : (World.pair.follow (World.isOrderly 0) pauseOfLeaver).any (fun made =>
      made.1[78]?.any (fun last =>
        shows 0 (fun note => note.event? 0 = some (.pauseCompleted 0 2 0)) last.observed) &&
      (made.2.core 0).pauses = 1 &&
      (observations made.1).all fun entry => entry.1 = 0 || entry.2.isAside 0) = true := by
    decide +kernel
  obtain ⟨⟨moments, v⟩, follows, state⟩ := (Option.any_eq_true _ _).mp made
  simp only [Bool.and_eq_true, Option.any_eq_true, List.all_eq_true, decide_eq_true_eq] at state
  obtain ⟨⟨⟨last, found, told⟩, pauses⟩, arrivals⟩ := state
  refine ⟨moments, v, _, last, _, World.course_of_follow (World.orderly_of_isOrderly 0) follows,
    eq_take_cons_drop found, (shows_iff ?_).mp told, pauses, fun thread phase arrived => ?_⟩
  · exact decide_eq_true_iff.trans Note.event?_eq_some
  · simpa [Note.isAside] using arrivals _ arrived

/-- One of the two participants announced has left the pause before it began. -/
theorem participants_counted_pauseOfLeaver : ∃ moments v before last after,
    World.pair.IsFresh 0 ∧ Course (Orderly 0) World.pair moments v ∧
    moments = before ++ last :: after ∧ (0, .published 0 (.pauseCompleted 0 2 0)) ∈ last.observed ∧
    ∃ k counted earlier span left, Turnout 0 0 2 k counted earlier span [0] [left] := by
  obtain ⟨moments, v, before, last, after, course, parts, told, pauses, alone⟩ :=
    World.exists_pauseOfLeaver
  obtain ⟨pre, opening, prelude, first, span, finish, tail, base, k, rfl, -, -, went, left, turnout⟩ :=
    participants_counted World.pair_isFresh course parts told
  have single : went = [0] := by
    refine List.perm_singleton.mp ((List.perm_ext_iff_of_nodup turnout.distinct
      (List.nodup_singleton 0)).mpr fun thread => ⟨fun mem => ?_, fun mem => ?_⟩)
    · have arrived := (turnout.through thread).mp mem 0 (by omega)
      rw [Nat.add_zero] at arrived
      exact List.mem_singleton.mpr (alone thread (3 * k) (by simp [parts, arrived]))
    · exact List.mem_singleton.mp mem ▸ turnout.driver
  subst single
  obtain ⟨other, rfl⟩ : ∃ other, left = [other] :=
    List.length_eq_one_iff.mp (Nat.add_left_cancel turnout.number).symm
  exact ⟨moments, v, _, last, after, World.pair_isFresh, course, parts, told, k, _, _, span, other, turnout⟩

/-- A pause of one thread can be announced as one of two. -/
theorem leaver_still_counted : ∃ moments v, World.pair.IsFresh 0 ∧
    Course (Orderly 0) World.pair moments v ∧
    (0, .published 0 (.pauseCompleted 0 2 0)) ∈ observations moments ∧ (v.core 0).pauses = 1 ∧
    ∀ thread, GoesThrough 0 0 thread (observations moments) → thread = 0 := by
  obtain ⟨moments, v, before, last, after, course, rfl, told, pauses, alone⟩ :=
    World.exists_pauseOfLeaver
  exact ⟨_, v, World.pair_isFresh, course, by simp [told], pauses,
    fun thread goes => alone thread _ (goes 0 (by omega))⟩

end

end StopTheWorld
