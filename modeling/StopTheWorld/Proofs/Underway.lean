import StopTheWorld.Proofs.Coherent
import StopTheWorld.Proofs.Whereabouts

namespace StopTheWorld

/-! One pause, from the invalidation of the epoch until its driver comes out of the phases, and what
is told of it meanwhile. -/

/-- Who drives the pause and with which action, how many pauses came before it, and who was
registered when the epoch was invalidated. -/
structure Pause where
  driver : ThreadId
  action : List Op
  number : Nat
  entries : ThreadId → Option Registration

/-- The driver has invalidated the epoch, and is not out of the phases yet. -/
inductive Posture.Conducts (action : List Op) : Posture → Prop
  | wakeWaiters : Conducts action (.driving action .wakeWaiters)
  | interrupt : Conducts action (.driving action .interrupt)
  | leaveGlobal : Conducts action (.driving action .leaveGlobal)
  | enterPhases : Conducts action (.driving action .enterPhases)
  | within {point : Phases.Point} {arrival : Option (Option Nat)} :
      Conducts action (.meeting (some action) point arrival)
  | exitPhases : Conducts action (.driving action .exitPhases)

structure Scene.Underway (pause : Pause) (s : Scene) : Prop where
  conducts : (s.posture pause.driver).Conducts pause.action
  number : s.core.pauses = pause.number

/-- The thread is in the phases of the pause, and not still in those of the one before. -/
def Scene.HasJoined (pause : Pause) (s : Scene) (thread : ThreadId) : Prop :=
  s.core.phaser.phase = 3 * pause.number ∧
      (∃ leads point arrival, s.posture thread = .meeting leads point arrival ∧
        point.passed s.core.phaser.phase arrival = 0) ∨
    3 * pause.number < s.core.phaser.phase ∧ thread ∈ s.core.identities

/-- The thread has arrived at this phase of the pause. -/
def Scene.HasArrived (pause : Pause) (s : Scene) (thread : ThreadId) (round : Nat) : Prop :=
  s.core.phaser.phase = 3 * pause.number + round ∧
      (s.posture thread).hasArrived s.core.phaser.phase = true ∨
    3 * pause.number + round < s.core.phaser.phase ∧ thread ∈ s.core.identities

/-- What has been told of a pause that is under way. -/
structure Scene.Recounts (m : ManagerId) (pause : Pause) (history : List (ThreadId × Note))
    (s : Scene) : Prop extends s.Underway pause where
  entries : ∀ thread, s.core.lookup thread = pause.entries thread ∨
    s.core.lookup thread = none ∧ (thread, .removed (.manager m) thread) ∈ history
  joined : ∀ thread, s.HasJoined pause thread →
    (thread, .joined m (thread = pause.driver)) ∈ history
  arrived : ∀ thread round, s.HasArrived pause thread round →
    (thread, .arrived (.registry (.manager m)) (3 * pause.number + round)) ∈ history
  fresh : s.core.epoch.valid = true →
    (pause.driver, .republished m (pause.number + 1)) ∈ history

section

variable {m : ManagerId} {pause : Pause} {s s' : Scene} {thread : ThreadId} {deed : Deed}
  {history : List (ThreadId × Note)}

theorem Posture.Conducts.owns {action : List Op} {posture : Posture}
    (conducts : posture.Conducts action) : posture.owns = true := by
  cases conducts <;> rfl

theorem Posture.Conducts.relies {action : List Op} {posture : Posture}
    (conducts : posture.Conducts action) : posture.relies = true := by
  cases conducts <;> rfl

/-- Until it comes out of the phases, the driver goes on with its pause. -/
theorem Posture.Conducts.advances {core : Core} {action : List Op} {before after : Posture}
    (conducts : before.Conducts action) (advances : Advances core thread before deed after)
    (on : deed ≠ .finish true) : after.Conducts action := by
  cases conducts with
  | within => cases advances <;> constructor
  | exitPhases =>
    cases advances with
    | stay => exact .exitPhases
    | proceed passes => cases passes
    | conclude => exact absurd rfl on
  | _ =>
    cases advances with
    | proceed passes => cases passes <;> constructor
    | _ => constructor

namespace Scene.Underway

variable (underway : s.Underway pause) (lawful : s.Lawful)

include underway lawful

theorem owner : s.core.owner = some pause.driver :=
  (lawful.admits pause.driver).owner.mp underway.conducts.owns

theorem eq_driver (owns : (s.posture thread).owns = true) : thread = pause.driver :=
  Option.some.inj (((lawful.admits thread).owner.mp owns).symm.trans (underway.owner lawful))

/-- The action of the driver is the one that participants find. -/
theorem action : s.core.action = some pause.action := by
  have demands := (lawful.admits pause.driver).demands underway.conducts.owns
  have conducts := underway.conducts
  generalize s.posture pause.driver = posture at conducts demands
  cases conducts <;> exact demands.action

theorem round : 3 * pause.number ≤ s.core.phaser.phase ∧
    s.core.phaser.phase ≤ 3 * pause.number + 3 := by
  have demands := (lawful.admits pause.driver).demands underway.conducts.owns
  have conducts := underway.conducts
  rw [← underway.number]
  generalize s.posture pause.driver = posture at conducts demands
  cases conducts with
  | @within point arrival =>
    have phase := demands.phase
    have passed := point.passed_le s.core.phaser.phase arrival
    have ended := point.rounds_le
    omega
  | _ =>
    have phase := demands.phase
    omega

theorem conducts_of_owns (owns : (s.posture thread).owns = true) :
    (s.posture thread).Conducts pause.action := by
  rw [underway.eq_driver lawful owns]
  exact underway.conducts

theorem step (moves : s.Moves thread deed s') (on : deed ≠ .finish true) :
    s'.Underway pause := by
  have conducts (owns : (s.posture thread).owns = true) := underway.conducts_of_owns lawful owns
  have advances := moves.advances
  refine ⟨?_, ?_⟩
  · by_cases same : thread = pause.driver
    · subst same
      exact underway.conducts.advances moves.advances on
    · rw [moves.others _ (Ne.symm same)]
      exact underway.conducts
  · rw [moves.core, ← underway.number]
    generalize s.posture thread = before at advances conducts
    generalize s'.posture thread = after at advances
    cases advances with
    | account => cases conducts rfl
    | _ => rfl

end Scene.Underway

namespace Scene.Recounts

variable (recounts : s.Recounts m pause history) (lawful : s.Lawful)
  (moves : s.Moves thread deed s')

include recounts lawful moves

theorem entries_after (other : ThreadId) :
    s'.core.lookup other = pause.entries other ∨ s'.core.lookup other = none ∧
      (other, .removed (.manager m) other) ∈
        history ++ (s.core.notes m thread deed).map ((thread, ·)) := by
  have conducts (owns : (s.posture thread).owns = true) :=
    recounts.toUnderway.conducts_of_owns lawful owns
  have old := recounts.entries other
  have advances := moves.advances
  have kept (same : s'.core.lookup other = s.core.lookup other) :
      s'.core.lookup other = pause.entries other ∨ s'.core.lookup other = none ∧
        (other, .removed (.manager m) other) ∈
          history ++ (s.core.notes m thread deed).map ((thread, ·)) := by
    rw [same]
    exact old.imp_right (And.imp_right (List.mem_append_left _))
  by_cases mine : other = thread
  · subst mine
    have core := moves.core
    generalize s.posture other = before at advances conducts
    generalize s'.posture other = after at advances
    cases advances with
    | insert => cases conducts rfl
    | remove =>
      right
      refine ⟨?_, by simp [Core.notes]⟩
      rw [core]
      simp [Core.after, Core.lookup]
    | _ => exact kept (by rw [core]; rfl)
  · exact kept (by rw [moves.core]; exact Core.lookup_after_of_ne advances mine)

theorem fresh_after (valid : s'.core.epoch.valid = true) :
    (pause.driver, .republished m (pause.number + 1)) ∈
      history ++ (s.core.notes m thread deed).map ((thread, ·)) := by
  have conducts (owns : (s.posture thread).owns = true) :=
    recounts.toUnderway.conducts_of_owns lawful owns
  have driver (owns : (s.posture thread).owns = true) := recounts.toUnderway.eq_driver lawful owns
  have admits := lawful.admits thread
  have advances := moves.advances
  rw [moves.core] at valid
  generalize s.posture thread = before at advances conducts admits driver
  generalize s'.posture thread = after at advances
  cases advances with
  | republish =>
    have stands : s.core.Stands false 0 _ 1 := admits.demands rfl
    have generation : s.core.epoch.generation = pause.number :=
      stands.generation.trans recounts.number
    simp [Core.notes, driver rfl, generation]
  | invalidate => cases conducts rfl
  | _ => exact List.mem_append_left _ (recounts.fresh valid)

/-- What others do makes nobody join, and lets nobody out of the first phase who has not. -/
theorem joined_other {other : ThreadId} (ne : other ≠ thread) (joins : s'.HasJoined pause other) :
    s.HasJoined pause other := by
  have posture := moves.others other ne
  have here : other ∈ s'.core.identities ↔ other ∈ s.core.identities := by
    rw [moves.core]
    exact Scene.Lawful.mem_identities_other moves.advances ne
  have round := recounts.toUnderway.round lawful
  obtain same | ⟨next, gathers, all⟩ := lawful.phase_cases moves
  · unfold Scene.HasJoined at joins ⊢
    rwa [same, posture, here] at joins
  · obtain ⟨first, -⟩ | ⟨-, there⟩ := joins
    · omega
    · have there := here.mp there
      obtain ⟨leads, point, meets⟩ := Posture.hasArrived_iff.mp (all other ne (.inl there))
      have pace := ((lawful.admits other).meets meets).pace
      have ended := point.rounds_le
      have passed : point.passed s.core.phaser.phase (some (some s.core.phaser.phase)) =
          point.rounds - 1 := by
        simp [Phases.Point.passed]
      rw [recounts.number] at pace
      by_cases first : s.core.phaser.phase = 3 * pause.number
      · exact .inl ⟨first, leads, point, _, meets, by omega⟩
      · exact .inr ⟨by omega, there⟩

theorem joined_self (joins : s'.HasJoined pause thread) :
    s.HasJoined pause thread ∨
      Note.joined m (thread = pause.driver) ∈ s.core.notes m thread deed := by
  have conducts (owns : (s.posture thread).owns = true) :=
    recounts.toUnderway.conducts_of_owns lawful owns
  have driver (owns : (s.posture thread).owns = true) := recounts.toUnderway.eq_driver lawful owns
  have underway (same : thread = pause.driver) : (s.posture thread).Conducts pause.action :=
    same ▸ recounts.conducts
  have admits := lawful.admits thread
  have advances := moves.advances
  have core := moves.core
  have round := recounts.toUnderway.round lawful
  unfold Scene.HasJoined at joins ⊢
  generalize s.posture thread = before at advances conducts driver underway admits
  generalize s'.posture thread = after at advances joins
  have kept (phase : s'.core.phaser.phase = s.core.phaser.phase)
      (here : thread ∈ s'.core.identities → thread ∈ s.core.identities)
      (meets : ∀ {leads point arrival}, after = .meeting leads point arrival →
        ∃ point' arrival', before = .meeting leads point' arrival' ∧
          point'.passed s.core.phaser.phase arrival' =
            point.passed s.core.phaser.phase arrival) :
      s.core.phaser.phase = 3 * pause.number ∧
          (∃ leads point arrival, before = .meeting leads point arrival ∧
            point.passed s.core.phaser.phase arrival = 0) ∨
        3 * pause.number < s.core.phaser.phase ∧ thread ∈ s.core.identities := by
    rw [phase] at joins
    obtain ⟨first, leads, point, arrival, same, passed⟩ | ⟨later, there⟩ := joins
    · obtain ⟨point', arrival', same', passed'⟩ := meets same
      exact .inl ⟨first, leads, point', arrival', same', passed'.trans passed⟩
    · exact .inr ⟨later, here there⟩
  cases advances with
  | join =>
    have other : thread ≠ pause.driver := fun same => nomatch underway same
    exact .inr (by simp [Core.notes, other])
  | lead => exact .inr (by simp [Core.notes, driver rfl])
  | insert => cases conducts rfl
  | stay => exact .inl (kept (by rw [core]; rfl) (by rw [core]; exact id) fun same => ⟨_, _, same, rfl⟩)
  | approach arrives =>
    refine .inl (kept (by rw [core]; rfl) (by rw [core]; exact id) fun same => ?_)
    obtain ⟨rfl, rfl, rfl⟩ := Posture.meeting.inj same
    exact ⟨_, _, rfl, by cases arrives <;> rfl⟩
  | wait early =>
    refine .inl (kept ?_ (by rw [core]; exact id) fun same => ?_)
    · simp [core, Core.after, Phaser.arrive_phase, early]
    · obtain ⟨rfl, rfl, rfl⟩ := Posture.meeting.inj same
      exact ⟨_, _, rfl, by simp [Phases.Point.passed]⟩
  | @complete leads point last =>
    left
    have here := admits.relies rfl
    have pace := (admits.meets rfl).pace
    have ended := point.rounds_le
    have passed : point.passed s.core.phaser.phase (some none) = point.rounds - 1 := rfl
    rw [recounts.number] at pace
    by_cases first : s.core.phaser.phase = 3 * pause.number
    · exact .inl ⟨first, leads, point, _, rfl, by omega⟩
    · exact .inr ⟨by omega, here⟩
  | wake ended =>
    refine .inl (kept (by rw [core]; rfl) (by rw [core]; exact id) fun same => ?_)
    obtain ⟨rfl, rfl, rfl⟩ := Posture.meeting.inj same
    exact ⟨_, _, rfl, by simp [Phases.Point.passed, ended.symm]⟩
  | republish | start | decline =>
    refine .inl (kept (by rw [core]; rfl) (by rw [core]; exact id) fun same => ?_)
    obtain ⟨rfl, rfl, rfl⟩ := Posture.meeting.inj same
    exact ⟨_, _, rfl, rfl⟩
  | remove =>
    refine .inl (kept (by rw [core]; rfl) ?_ (by simp))
    rw [core, Scene.Lawful.mem_identities_remove]
    exact And.right
  | depart =>
    have gone := admits.halfway rfl
    have same : thread ∈ s'.core.identities ↔ thread ∈ s.core.identities := by rw [core]; rfl
    simp [same, gone] at joins
  | _ => exact .inl (kept (by rw [core]; rfl) (by rw [core]; exact id) (by simp))

theorem joined_after (other : ThreadId) (joins : s'.HasJoined pause other) :
    (other, .joined m (other = pause.driver)) ∈
      history ++ (s.core.notes m thread deed).map ((thread, ·)) := by
  by_cases mine : other = thread
  · subst mine
    obtain joined | noted := recounts.joined_self lawful moves joins
    · exact List.mem_append_left _ (recounts.joined other joined)
    · exact List.mem_append_right _ (List.mem_map.mpr ⟨_, noted, rfl⟩)
  · exact List.mem_append_left _
      (recounts.joined other (recounts.joined_other lawful moves mine joins))

omit recounts in
theorem arrived_other {other : ThreadId} {round : Nat} (ne : other ≠ thread)
    (arrives : s'.HasArrived pause other round) : s.HasArrived pause other round := by
  have posture := moves.others other ne
  have here : other ∈ s'.core.identities ↔ other ∈ s.core.identities := by
    rw [moves.core]
    exact Scene.Lawful.mem_identities_other moves.advances ne
  obtain same | ⟨next, gathers, all⟩ := lawful.phase_cases moves
  · unfold Scene.HasArrived at arrives ⊢
    rwa [same, posture, here] at arrives
  · obtain ⟨-, early⟩ | ⟨later, there⟩ := arrives
    · rw [posture, next] at early
      obtain ⟨leads, point, meets⟩ := Posture.hasArrived_iff.mp early
      have recorded := ((lawful.admits other).meets meets).recorded _ rfl
      omega
    · have there := here.mp there
      by_cases now : s.core.phaser.phase = 3 * pause.number + round
      · exact .inl ⟨now, all other ne (.inl there)⟩
      · exact .inr ⟨by omega, there⟩

theorem arrived_self {round : Nat} (arrives : s'.HasArrived pause thread round) :
    s.HasArrived pause thread round ∨
      Note.arrived (.registry (.manager m)) (3 * pause.number + round) ∈
        s.core.notes m thread deed := by
  have conducts (owns : (s.posture thread).owns = true) :=
    recounts.toUnderway.conducts_of_owns lawful owns
  have admits := lawful.admits thread
  have advances := moves.advances
  have core := moves.core
  unfold Scene.HasArrived at arrives ⊢
  generalize s.posture thread = before at advances conducts admits
  generalize s'.posture thread = after at advances arrives
  have kept (phase : s'.core.phaser.phase = s.core.phaser.phase)
      (here : thread ∈ s'.core.identities → thread ∈ s.core.identities)
      (late : after.hasArrived s.core.phaser.phase = true →
        before.hasArrived s.core.phaser.phase = true) :
      s.core.phaser.phase = 3 * pause.number + round ∧
          before.hasArrived s.core.phaser.phase = true ∨
        3 * pause.number + round < s.core.phaser.phase ∧ thread ∈ s.core.identities := by
    rw [phase] at arrives
    exact arrives.imp (And.imp_right late) (And.imp_right here)
  cases advances with
  | insert => cases conducts rfl
  | stay => exact .inl (kept (by rw [core]; rfl) (by rw [core]; exact id) id)
  | wait early =>
    have phase : s'.core.phaser.phase = s.core.phaser.phase := by
      simp [core, Core.after, Phaser.arrive_phase, early]
    have here : thread ∈ s'.core.identities → thread ∈ s.core.identities := by rw [core]; exact id
    obtain ⟨now, -⟩ | ⟨later, there⟩ := arrives
    · exact .inr (by simp [Core.notes, ← now, phase])
    · exact .inl (.inr ⟨phase ▸ later, here there⟩)
  | complete last =>
    have phase : s'.core.phaser.phase = s.core.phaser.phase + 1 := by
      simp [core, Core.after, Phaser.arrive_phase, last]
    obtain ⟨-, late⟩ | ⟨later, -⟩ := arrives
    · simp [Posture.hasArrived] at late
    · by_cases now : s.core.phaser.phase = 3 * pause.number + round
      · exact .inr (by simp [Core.notes, now])
      · exact .inl (.inr ⟨by omega, admits.relies rfl⟩)
  | remove =>
    refine .inl (kept (by rw [core]; rfl) ?_ (by simp [Posture.hasArrived]))
    rw [core, Scene.Lawful.mem_identities_remove]
    exact And.right
  | depart =>
    have gone := admits.halfway rfl
    have same : thread ∈ s'.core.identities ↔ thread ∈ s.core.identities := by rw [core]; rfl
    simp [same, gone, Posture.hasArrived] at arrives
  | _ =>
    exact .inl (kept (by rw [core]; rfl) (by rw [core]; exact id) (by simp [Posture.hasArrived]))

theorem arrived_after (other : ThreadId) (round : Nat) (arrives : s'.HasArrived pause other round) :
    (other, .arrived (.registry (.manager m)) (3 * pause.number + round)) ∈
      history ++ (s.core.notes m thread deed).map ((thread, ·)) := by
  by_cases mine : other = thread
  · subst mine
    obtain arrived | noted := recounts.arrived_self lawful moves arrives
    · exact List.mem_append_left _ (recounts.arrived other round arrived)
    · exact List.mem_append_right _ (List.mem_map.mpr ⟨_, noted, rfl⟩)
  · exact List.mem_append_left _
      (recounts.arrived other round (arrived_other lawful moves mine arrives))

theorem step (on : deed ≠ .finish true) :
    s'.Recounts m pause (history ++ (s.core.notes m thread deed).map ((thread, ·))) where
  toUnderway := recounts.toUnderway.step lawful moves on
  entries := recounts.entries_after lawful moves
  joined := recounts.joined_after lawful moves
  arrived := recounts.arrived_after lawful moves
  fresh := recounts.fresh_after lawful moves

end Scene.Recounts

/-- A pause begins with the invalidation of the epoch, before anybody has heard of it. -/
theorem Scene.Lawful.begins (lawful : s.Lawful) (moves : s.Moves thread .invalidate s') :
    ∃ action, s.posture thread = .driving action .invalidate ∧
      s'.Recounts m ⟨thread, action, s.core.pauses, s.core.lookup⟩ [] := by
  obtain ⟨action, drives, waking⟩ : ∃ action, s.posture thread = .driving action .invalidate ∧
      s'.posture thread = .driving action .wakeWaiters := by
    have advances := moves.advances
    generalize s.posture thread = before at advances
    generalize s'.posture thread = after at advances
    cases advances with
    | invalidate => exact ⟨_, rfl, rfl⟩
  have stands : s.core.Stands true 0 (some action) 0 := by
    have admits := lawful.admits thread
    rw [drives] at admits
    exact admits.demands rfl
  have core := moves.core
  have same : s'.core.phaser.phase = s.core.phaser.phase := by
    rw [core]
    rfl
  have phase : s.core.phaser.phase = 3 * s.core.pauses := stands.phase
  have ended {other : ThreadId} {leads : Option (List Op)} {point : Phases.Point}
      {arrival : Option (Option Nat)} (meets : s'.posture other = .meeting leads point arrival) :
      point.passed s.core.phaser.phase arrival = 3 := by
    by_cases mine : other = thread
    · simp [mine, waking] at meets
    · rw [moves.others other mine] at meets
      have meets := (lawful.admits other).meets meets
      have pace := meets.pace
      have opening := meets.opening
      simp only [stands.valid, Bool.true_eq_false, imp_false] at opening
      omega
  refine ⟨action, drives, ⟨waking ▸ .wakeWaiters, by rw [core]; rfl⟩, ?_, ?_, ?_, ?_⟩
  · exact fun other => .inl (by rw [core]; rfl)
  · intro other joins
    obtain ⟨-, leads, point, arrival, meets, passed⟩ | ⟨later, -⟩ := joins
    · rw [same, ended meets] at passed
      simp at passed
    · simp only [same] at later
      omega
  · intro other round arrives
    obtain ⟨-, arrived⟩ | ⟨later, -⟩ := arrives
    · rw [same] at arrived
      obtain ⟨leads, point, meets⟩ := Posture.hasArrived_iff.mp arrived
      have three := ended meets
      have le := point.rounds_le
      simp only [Phases.Point.passed, if_true] at three
      omega
    · simp only [same] at later
      omega
  · intro valid
    rw [core] at valid
    simp [Core.after] at valid

variable {w v : World} {moments : List Moment}

/-- The step that invalidates the epoch begins a pause with the action of the call that it is of. -/
theorem World.Coherent.begins {notes : List Note} {k : Nat} (coherent : w.Coherent m)
    (orderly : Orderly m w thread) (step : w.step thread = some (v, notes))
    (mem : Note.invalidated m k ∈ notes) :
    v.Coherent m ∧ (v.core m).phaser.phase = 3 * k ∧ ∃ p rest,
      w.stack thread = .pausing p :: rest ∧ p.manager = m ∧ p.point = .invalidate ∧
        (v.scene m).Recounts m ⟨thread, p.action, k, (w.core m).lookup⟩ [] := by
  obtain ⟨coherent', deed, moves, -, noted⟩ :=
    coherent.step_telling orderly step mem (by simp [Note.tellsOf])
  obtain ⟨rfl, rfl⟩ : deed = .invalidate ∧ k = (w.core m).epoch.generation := by
    cases deed with
    | invalidate => simpa [Core.notes] using noted
    | depart | arrive =>
      simp only [Core.notes] at noted
      split at noted <;> simp at noted
    | _ => simp [Core.notes] at noted
  obtain ⟨action, drives, recounts⟩ := coherent.lawful.begins moves
  have admits := coherent.lawful.admits thread
  rw [drives] at admits
  have stands : (w.core m).Stands true 0 (some action) 0 := admits.demands rfl
  obtain ⟨above, p, below, stack, manager, rfl, point⟩ := (coherent.sound thread).driving drives
  have top : above = [] := by
    obtain top | ⟨child, awaits⟩ := (stack ▸ coherent.sound thread).child
    · exact top
    · cases child <;> simp [Frame.Awaits, point] at awaits
  have generation : (w.core m).epoch.generation = (w.core m).pauses := stands.generation
  have core : v.core m = (w.core m).after thread .invalidate := moves.core
  rw [generation]
  refine ⟨coherent', ?_, p, below, by rw [stack, top]; rfl, manager, point, recounts⟩
  rw [core]
  exact stands.phase

theorem Course.recounts (course : Course (Orderly m) w moments v) (coherent : w.Coherent m)
    (recounts : (w.scene m).Recounts m pause [])
    (on : (pause.driver, .finished m true) ∉ observations moments) :
    (v.scene m).Recounts m pause (told m moments) := by
  have unfinished : (pause.driver, .finished m true) ∉ told m moments := by
    simp [told, on]
  refine course.tells (P := fun history s =>
    (pause.driver, .finished m true) ∉ history → s.Recounts m pause history) ?_ coherent
    (fun _ => recounts) unfinished
  intro history s s' thread deed lawful recounts moves unfinished
  rw [List.mem_append, not_or] at unfinished
  have recounts := recounts unfinished.1
  refine recounts.step lawful moves ?_
  intro same
  subst same
  have owns : (s.posture thread).owns = true := by
    have advances := moves.advances
    generalize s.posture thread = before at advances
    generalize s'.posture thread = after at advances
    cases advances
    rfl
  have driver := recounts.toUnderway.eq_driver lawful owns
  exact unfinished.2 (by simp [Core.notes, driver])

end

end StopTheWorld
