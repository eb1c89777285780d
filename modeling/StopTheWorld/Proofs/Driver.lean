import StopTheWorld.Proofs.Coherent
import StopTheWorld.Proofs.Whereabouts

namespace StopTheWorld

/-! The driver of a pause is one of its participants, so that no phase ends without it, and none
without any other that is registered. -/

/-- The thread has taken the pause lock in a call that drives a pause, and the phases of the pause
are not behind it yet. -/
def World.Drives (m : ManagerId) (w : World) (thread : ThreadId) : Prop :=
  (w.manager m).pauseLock.owner = some thread ∧
    ∃ p, Frame.pausing p ∈ w.stack thread ∧ p.manager = m ∧ p.point.relies = true

instance (m : ManagerId) (stack : List Frame) :
    Decidable (∃ p, Frame.pausing p ∈ stack ∧ p.manager = m ∧ p.point.relies = true) := by
  refine decidable_of_iff (stack.any (fun
    | .pausing p => p.manager = m && p.point.relies
    | _ => false) = true) (List.any_eq_true.trans ?_)
  constructor
  · intro ⟨frame, mem, relies⟩
    cases frame with
    | pausing p => exact ⟨p, mem, by simpa using relies⟩
    | _ => simp at relies
  · intro ⟨p, mem, relies⟩
    exact ⟨.pausing p, mem, by simpa using relies⟩

instance (m : ManagerId) (w : World) (thread : ThreadId) : Decidable (w.Drives m thread) :=
  inferInstanceAs (Decidable (_ ∧ _))

/-- The thread waits at the phaser for the present phase to be over. -/
def World.HasArrived (m : ManagerId) (w : World) (thread : ThreadId) : Prop :=
  ∃ rest, w.stack thread =
    .arrival
      { phaser := .registry (.manager m)
        recorded := some (w.manager m).registry.phaser.phase } :: rest

section

variable {m : ManagerId} {w v : World} {thread : ThreadId} {moments : List Moment}

/-- A thread whose deferred actions do not leave, except where that is ignored, does not leave while it
waits for a pause of its own. -/
theorem World.Coherent.orderly (coherent : w.Coherent m)
    (single : ∀ {op rest}, w.stack thread = .start op :: rest →
      op.calls? = none ∨ op.calls? = some m)
    (callbacks : ∀ {op rest}, w.stack thread = .start op :: rest → inCallback rest = true →
      op.calls? = none)
    (steady : ∀ {frame rest effect}, w.stack thread = frame :: rest → inCallback rest = true →
      frame.advance thread w = some effect → ∀ message, effect.control ≠ .unwind message)
    (leaves : ∀ {rest}, w.stack thread = .start (.leave m) :: rest →
      rest.any (·.isDrain) = true → rest.any (·.isPhases) = true) : Orderly m w thread := by
  refine ⟨single, callbacks, steady, ?_⟩
  intro rest stack pausing
  have sound : Sound m thread (.start (.leave m) :: rest) := stack ▸ coherent.sound thread
  obtain phases | callback | drain := sound.deferring rfl pausing
  · exact phases
  · have quiet := callbacks stack (by simpa [Frame.isInterruption] using callback)
    simp [Op.calls?] at quiet
  · exact leaves stack (by simpa [Frame.isDrain] using drain)

theorem World.Coherent.registered (coherent : w.Coherent m) {p : Pausing}
    (mem : Frame.pausing p ∈ w.stack thread) (relies : p.point.relies = true) :
    thread ∈ (w.core m).identities := by
  have bond : p.record ∈ bonds (w.stack thread) :=
    List.mem_filterMap.mpr ⟨_, mem, by simp [Frame.bond?, relies]⟩
  exact (coherent.ready thread).present bond

/-- The owner of the pause lock, if it is to come out of the phases, drives a pause. -/
theorem World.Coherent.drives (coherent : w.Coherent m)
    (owns : (w.posture m thread).owns = true) (relies : (w.posture m thread).relies = true) :
    w.Drives m thread := by
  have sound := coherent.sound thread
  have admits := coherent.lawful.admits thread
  refine ⟨admits.owner.mp owns, ?_⟩
  clear admits
  unfold World.posture at owns relies
  generalize posture : StopTheWorld.posture m (w.stack thread) = place at owns relies
  cases place with
  | driving action point =>
    obtain ⟨above, p, below, stack, manager, -, rfl⟩ := sound.driving posture
    exact ⟨p, by simp [stack], manager, relies⟩
  | meeting leads point arrival =>
    obtain ⟨above, p, below, stack, -, -, meets, -, -⟩ := sound.meeting posture
    obtain ⟨action, rfl⟩ : ∃ action, leads = some action := by
      cases leads with
      | none => simp [Posture.owns] at owns
      | some action => exact ⟨action, rfl⟩
    rw [stack] at sound
    obtain ⟨q, rest, rfl, manager, exit, -⟩ := sound.of_append.leading meets
    exact ⟨q, by simp [stack], manager, by simp [exit, Pausing.Point.relies]⟩
  | _ => simp [Posture.owns, Posture.relies] at owns relies

/-- Whoever ends a phase and is registered arrives at it. -/
theorem Scene.Lawful.advanced {s s' : Scene} {deed : Deed} {phase : Nat} (lawful : s.Lawful)
    (moves : s.Moves thread deed s')
    (mem : Note.advanced (.registry (.manager m)) phase ∈ s.core.notes m thread deed) :
    s'.core.phaser.phase ≠ s.core.phaser.phase ∧
      (thread ∈ s.core.identities → Note.arrived (.registry (.manager m)) s.core.phaser.phase ∈
        s.core.notes m thread deed) := by
  have admits := lawful.admits thread
  have advances := moves.advances
  rw [moves.core]
  generalize s.posture thread = before at advances admits
  generalize s'.posture thread = after at advances
  cases advances with
  | complete last =>
    exact ⟨by simp [Core.after, Phaser.arrive_phase, last], fun _ => by simp [Core.notes]⟩
  | depart =>
    simp only [Core.notes, List.mem_cons, reduceCtorEq, false_or] at mem
    split at mem
    · simp at mem
    · rename_i moved
      exact ⟨moved, fun here => absurd here (admits.halfway rfl)⟩
  | wait early => simp [Core.notes, early] at mem
  | _ => simp [Core.notes] at mem

/-- While somebody has yet to see the end of a phase, the pause has a driver. -/
theorem World.Coherent.driven (coherent : w.Coherent m) (gathers : (w.core m).Gathers) :
    ∃ driver, w.Drives m driver := by
  obtain ⟨driver, owner⟩ : ∃ driver, (w.core m).owner = some driver := by
    cases owner : (w.core m).owner with
    | none => exact absurd (coherent.lawful.rests owner) gathers.not_rests
    | some driver => exact ⟨driver, rfl⟩
  have admits := coherent.lawful.admits driver
  have owns := admits.owner.mpr owner
  exact ⟨driver, coherent.drives owns (admits.relies_of_gathers gathers owns)⟩

/-- In every world that its threads can come to, the driver of a pause is registered and has a party
in the phaser until the phases of its pause are over. A phase is only over when there is a driver and
all that are registered have arrived at it. -/
theorem driver_is_party (fresh : w.IsFresh m) (course : Course (Orderly m) w moments v) :
    (∀ driver, v.Drives m driver → driver ∈ (v.manager m).registry.identities ∧
      ∃ parties : Finset ThreadId, parties.card = (v.manager m).registry.phaser.parties ∧
        driver ∈ parties ∧ ∀ thread, thread ∈ parties ↔
          thread ∈ (v.manager m).registry.identities ∨ (v.posture m thread).isHalfway = true) ∧
    ∀ moment ∈ moments, ∀ thread phase,
      (thread, .advanced (.registry (.manager m)) phase) ∈ moment.observed →
      (∃ driver, moment.world.Drives m driver) ∧
      ∀ other ∈ (moment.world.manager m).registry.identities, moment.world.HasArrived m other ∨
        ∃ last, (other, .arrived (.registry (.manager m)) last) ∈ moment.observed := by
  refine ⟨fun driver drives => ?_, fun moment mem thread phase observed => ?_⟩
  · have coherent := course.coherent fresh.coherent
    obtain ⟨-, p, mem, -, relies⟩ := drives
    have registered := coherent.registered mem relies
    obtain ⟨parties, card, counts⟩ := coherent.lawful.parties
    exact ⟨registered, parties, card, (counts driver).mpr (.inl registered), counts⟩
  · obtain ⟨pre, post, parts⟩ := List.append_of_mem mem
    obtain ⟨next, before, orderly, moved, -⟩ := course.split parts
    have coherent := before.coherent fresh.coherent
    obtain ⟨runs, noted⟩ := Moment.mem_observed.mp observed
    rw [runs] at moved
    obtain ⟨-, deed, moves, told, advanced⟩ :=
      coherent.step_telling (orderly thread runs) moved noted (by simp [Note.tellsOf])
    obtain ⟨ended, arrives⟩ := coherent.lawful.advanced moves advanced
    obtain ⟨-, gathers, others⟩ := (coherent.lawful.phase_cases moves).resolve_left ended
    refine ⟨coherent.driven gathers, fun other registered => ?_⟩
    by_cases same : other = thread
    · subst same
      right
      have arrived := arrives registered
      have arrived : Note.arrived _ _ ∈ moment.notes.filter (·.tellsOf m) := told ▸ arrived
      exact ⟨_, Moment.mem_observed.mpr ⟨runs, (List.mem_filter.mp arrived).1⟩⟩
    · left
      obtain ⟨leads, point, meets⟩ :=
        Posture.hasArrived_iff.mp (others other same (.inl registered))
      exact (coherent.sound other).arriving meets

/-- The first of two threads, while it waits for the second to come to its pause. -/
theorem driver_is_party_pauseOfTwo : ∃ moments v, World.pair.IsFresh 0 ∧
    Course (Orderly 0) World.pair moments v ∧ v.Drives 0 0 ∧
      0 ∈ (v.manager 0).registry.identities := by
  have made : (World.pair.follow (World.isOrderly 0) (pauseOfTwo.take 56)).any
      (fun made => made.2.Drives 0 0) = true := by
    decide +kernel
  obtain ⟨⟨moments, v⟩, follows, state⟩ := (Option.any_eq_true _ _).mp made
  have drives : v.Drives 0 0 := of_decide_eq_true state
  have course := World.course_of_follow (World.orderly_of_isOrderly 0) follows
  exact ⟨moments, v, World.pair_isFresh, course, drives,
    ((driver_is_party World.pair_isFresh course).1 0 drives).1⟩

/-- The second of two threads, with a deferred action that leaves, waits to drive a pause of its own
while the first one drives. -/
def leaveWhileWaiting : List Move :=
  Move.repeated [
    (1, .submit 0 (.enter 0)), (14, .run 0), (1, .submit 1 (.enter 0)), (14, .run 1),
    (1, .submit 1 (.defer none "d" [.leave 0])), (1, .run 1),
    (1, .submit 0 (.pauseWith 0 false [.log "a"])), (25, .run 0),
    (1, .submit 1 (.pauseWith 0 false [.log "b"])), (17, .run 1), (11, .run 0), (34, .run 1),
    (16, .run 0), (6, .run 1)]

/-- Whether the thread is about to leave. -/
def isLeaving (m : ManagerId) : List Frame → Bool
  | .start (.leave n) :: _ => n = m
  | _ => false

theorem isLeaving_iff {m : ManagerId} {stack : List Frame} :
    isLeaving m stack = true ↔ ∃ rest, stack = .start (.leave m) :: rest := by
  unfold isLeaving
  split <;> simp_all

/-- The driver is not registered if it has left while it waited for the pause lock, which nothing but
its own orderliness prevents. -/
theorem driver_left_while_waiting : ∃ moments v,
    Course (fun w thread => Orderly 0 w thread ∨ ∃ rest, w.stack thread = .start (.leave 0) :: rest)
      World.pair moments v ∧
    v.Drives 0 1 ∧ 1 ∉ (v.manager 0).registry.identities := by
  have allows (w : World) (thread : ThreadId)
      (passes : (w.isOrderly 0 thread || isLeaving 0 (w.stack thread)) = true) :
      Orderly 0 w thread ∨ ∃ rest, w.stack thread = .start (.leave 0) :: rest :=
    (Bool.or_eq_true _ _ ▸ passes).imp (World.orderly_of_isOrderly 0 w thread) isLeaving_iff.mp
  have made : (World.pair.follow (fun w thread => w.isOrderly 0 thread ||
      isLeaving 0 (w.stack thread)) leaveWhileWaiting).any (fun made =>
        made.2.Drives 0 1 && !(made.2.manager 0).registry.contains 1) = true := by
    decide +kernel
  obtain ⟨⟨moments, v⟩, follows, state⟩ := (Option.any_eq_true _ _).mp made
  simp only [Bool.and_eq_true, decide_eq_true_eq, Bool.not_eq_true', ← Bool.not_eq_true,
    Registry.contains_iff] at state
  exact ⟨moments, v, World.course_of_follow allows follows, state⟩

end

end StopTheWorld
