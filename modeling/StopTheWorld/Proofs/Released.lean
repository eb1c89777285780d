import StopTheWorld.Proofs.PauseCall
import StopTheWorld.Proofs.Tenure
import StopTheWorld.Proofs.Whereabouts

namespace StopTheWorld

/-! What the manager is like when a driver gives the pause lock back, whatever unwound meanwhile. -/

/-- The step that a thread is about to take does not unwind out of a callback that it runs as the
driver of a pause. -/
def Tame (w : World) (thread : ThreadId) : Prop :=
  ∀ v notes, w.step thread = some (v, notes) → isShaken (v.stack thread) = false

/-- Decides whether a step is tame. -/
def World.isTame (w : World) (thread : ThreadId) : Bool :=
  (w.step thread).all fun next => !isShaken (next.1.stack thread)

/-- The owner of the pause lock is the thread that has a hold on it, and the manager is as that hold
demands. -/
structure World.Tended (m : ManagerId) (w : World) : Prop where
  straight : ∀ thread, Straight m thread (w.stack thread)
  owner : ∀ thread, (w.manager m).pauseLock.owner = some thread ↔
    (holdOf m (w.stack thread)).isSome = true
  demands : ∀ {thread hold}, holdOf m (w.stack thread) = some hold → hold.Demands (w.manager m)
  rests : (w.manager m).pauseLock.owner = none → Hold.idle.Demands (w.manager m)

section

variable {m : ManagerId} {self thread : ThreadId} {w v u : World} {frame frame' : Frame}
  {above below rest : List Frame} {message : String} {notes : List Note}
  {moments : List Moment}

theorem World.tame_of_isTame (tame : w.isTame thread = true) : Tame w thread := by
  intro v notes step
  simpa [World.isTame, step] using tame

theorem Hold.Demands.of_minds {hold : Hold} (demands : hold.Demands (w.manager m))
    (minds : w.Minds m v) : hold.Demands (v.manager m) := by
  cases hold <;> simp only [Hold.Demands, minds.epoch, minds.action] at demands ⊢ <;> exact demands

namespace World.Tended

theorem transfer (tended : w.Tended m) (minds : w.Minds m v)
    (keeps : ∀ thread, Keeps m thread (w.stack thread) (v.stack thread)) : v.Tended m where
  straight thread := (keeps thread).straight
  owner thread := by rw [minds.owner, (keeps thread).hold, tended.owner]
  demands hold := (tended.demands ((keeps _).hold ▸ hold)).of_minds minds
  rests free := (tended.rests (minds.owner ▸ free)).of_minds minds

/-- The step of a thread turns its own hold and leaves those of the others. -/
theorem turn (tended : w.Tended m) (straight : Straight m self (v.stack self))
    (others : ∀ other, other ≠ self → v.stack other = w.stack other)
    (turns : Hold.Turns self (w.manager m) (v.manager m) (holdOf m (w.stack self))
      (holdOf m (v.stack self))) : v.Tended m := by
  have stands (thread : ThreadId) : Straight m thread (v.stack thread) := by
    by_cases same : thread = self
    · exact same ▸ straight
    · exact others thread same ▸ tended.straight thread
  have alone (own : (holdOf m (w.stack self)).isSome = true) {other : ThreadId}
      (ne : other ≠ self) : holdOf m (w.stack other) = none := by
    have owner := (tended.owner self).mpr own
    rw [← Option.not_isSome_iff_eq_none, ← tended.owner other, owner]
    exact fun same => ne (Option.some.inj same).symm
  generalize before : holdOf m (w.stack self) = hold at turns alone
  generalize after : holdOf m (v.stack self) = hold' at turns
  cases turns with
  | keep owner epoch action =>
    refine tended.transfer ⟨owner, epoch, action⟩ fun thread => ⟨stands thread, ?_⟩
    by_cases same : thread = self
    · rw [same, after, before]
    · rw [others thread same]
  | @take hold free owner epoch action begins =>
    have none (other : ThreadId) : holdOf m (w.stack other) = none := by
      rw [← Option.not_isSome_iff_eq_none, ← tended.owner other, free]
      simp
    refine ⟨stands, fun thread => ?_, @fun thread hold' found => ?_, by simp [owner]⟩ <;>
      by_cases same : thread = self
    · simp [owner, same, after]
    · simp [owner, Ne.symm same, others thread same, none]
    · rw [same, after] at found
      obtain rfl := Option.some.inj found
      cases hold with
      | busy => trivial
      | fresh => exact absurd rfl begins
      | idle => simpa only [Hold.Demands, epoch, action] using tended.rests free
    · rw [others thread same, none] at found
      simp at found
  | clear owner epoch action =>
    have none (other : ThreadId) : holdOf m (v.stack other) = none := by
      by_cases same : other = self
      · rw [same, after]
      · rw [others other same, alone rfl same]
    refine ⟨stands, fun thread => by simp [owner, none], by simp [none], fun _ => ?_⟩
    simpa only [Hold.Demands, epoch, action] using tended.demands before
  | @work hold hold' owner demands =>
    refine ⟨stands, fun thread => ?_, @fun thread other found => ?_, fun free => ?_⟩
    · rw [owner, tended.owner]
      by_cases same : thread = self
      · rw [same, after, before]
        rfl
      · rw [others thread same]
    · by_cases same : thread = self
      · rw [same, after] at found
        obtain rfl := Option.some.inj found
        exact demands (tended.demands before)
      · rw [others thread same, alone rfl same] at found
        simp at found
    · have held := (tended.owner self).mpr (by simp [before])
      rw [owner, held] at free
      simp at free

theorem step (tended : w.Tended m) (tame : Tame w self) (step : w.step self = some (v, notes)) :
    v.Tended m ∧ ∃ frame rest effect, w.stack self = frame :: rest ∧
      frame.advance self w = some effect ∧ effect.Tends m self w frame rest ∧
      v = effect.world.setStack self (effect.control.stack rest) := by
  have tame := tame v notes step
  obtain ⟨frame, rest, effect, stack, advance, rfl, -⟩ := World.step_eq_some step
  have tends : effect.Tends m self w frame rest :=
    Frame.tends (stack ▸ tended.straight self) (fun held => (tended.owner self).mpr (stack ▸ held))
      (by simpa using tame) advance
  refine ⟨tended.turn ?_ (fun other (ne : other ≠ self) => ?_) ?_, frame, rest, effect, stack, advance,
    tends, rfl⟩
  · simpa using tends.straight
  · rw [World.stack_setStack, if_neg ne, Frame.advance_stack advance]
  · simpa [stack] using tends.turns

end World.Tended

theorem Frame.Rouses.keeps (rouses : frame.Rouses frame')
    (straight : Straight m thread (frame :: rest)) :
    Keeps m thread (frame :: rest) (frame' :: rest) := by
  cases rouses with
  | parking | sleeping =>
    exact ⟨⟨trivial, straight.2.1.exchange rfl rfl, straight.tail⟩, rfl⟩

/-- No other move than a step has to do with the pause lock. -/
theorem World.Minds.move {move : Move} (moves : w.move move = some (v, notes))
    (other : ∀ thread, move ≠ .run thread) : w.Minds m v := by
  cases move with
  | run self => exact absurd rfl (other self)
  | submit self op =>
    obtain ⟨u, submit, same⟩ := Option.map_eq_some_iff.mp moves
    obtain ⟨rfl, rfl⟩ := Prod.mk.inj same
    unfold World.submit at submit
    split at submit
    · obtain rfl := Option.some.inj submit
      exact ⟨rfl, rfl, rfl⟩
    · simp at submit
  | elapse span =>
    obtain ⟨rfl, rfl⟩ := Prod.mk.inj (Option.some.inj moves)
    exact ⟨rfl, rfl, rfl⟩
  | rouse self =>
    obtain ⟨rfl, rfl⟩ := Prod.mk.inj (Option.some.inj moves)
    unfold World.rouse
    split
    · exact .modifyLock w _ fun _ => rfl
    · exact ⟨rfl, rfl, rfl⟩
    · split <;> exact ⟨rfl, rfl, rfl⟩
    · exact .refl w

theorem World.Tended.idle_move {move : Move} (tended : w.Tended m) (moves : w.move move = some (v, notes))
    (other : ∀ thread, move ≠ .run thread) : v.Tended m := by
  refine tended.transfer (.move moves other) fun thread => ?_
  have straight := tended.straight thread
  obtain ⟨-, same | ⟨op, idle, told⟩ | ⟨frame, frame', rest, before, after, rouses⟩⟩ :=
    World.move_other moves (other thread)
  · exact same.symm ▸ .refl straight
  · rw [idle, told]
    exact ⟨⟨trivial, rfl, trivial⟩, rfl⟩
  · rw [before] at straight
    rw [before, after]
    exact rouses.keeps straight

theorem World.Tended.move {move : Move} (tended : w.Tended m)
    (tame : ∀ thread, move = .run thread → Tame w thread)
    (moves : w.move move = some (v, notes)) : v.Tended m := by
  by_cases runs : ∃ thread, move = .run thread
  · obtain ⟨thread, rfl⟩ := runs
    exact (tended.step (tame thread rfl) moves).1
  · exact tended.idle_move moves fun thread same => runs ⟨thread, same⟩

theorem World.IsFresh.tended (fresh : w.IsFresh m) : w.Tended m := by
  refine ⟨fun thread => ?_, fun thread => ?_, @fun thread hold found => ?_, fun _ => ?_⟩
  · rw [fresh.idle]
    trivial
  · simp [fresh.idle, fresh.new.pauseLock]
  · simp [fresh.idle] at found
  · simp [Hold.Demands, fresh.new.epoch, fresh.new.action, Epoch.first]

theorem Course.tended (course : Course Tame w moments v) (fresh : w.IsFresh m) : v.Tended m :=
  course.keeps (fun tended tame moves => tended.move tame moves) fresh.tended

theorem Straight.append (straight : Straight m self (above ++ below)) : Straight m self below := by
  induction above with
  | nil => exact straight
  | cons frame above ih => exact ih straight.tail

/-- A thread whose pausing call is over has no hold on the pause lock. -/
theorem World.Tended.ended {p : Pausing} (tended : w.Tended m) (tame : Tame w thread)
    (stack : w.stack thread = above ++ .pausing p :: below) (manager : p.manager = m)
    (past : p.point ≠ .gate) (step : w.step thread = some (v, notes))
    (gone : (v.stack thread).length ≤ below.length) : holdOf m (v.stack thread) = none := by
  have straight : Straight m thread (.pausing p :: below) :=
    (stack ▸ tended.straight thread : Straight m thread (above ++ _)).append
  have unheld : holdOf m below = none := straight.1.2 manager past
  have tame := tame v notes step
  obtain ⟨frame, rest, effect, top, advance, rfl, -⟩ := World.step_eq_some step
  have unwound {message : String} (tame : isShaken (Frame.unwind message below) = false) :
      holdOf m (Frame.unwind message below) = none :=
    (straight.tail.unwind straight.2.1 rfl (by simp) tame).hold.trans unheld
  simp only [World.stack_setStack, if_true] at gone tame ⊢
  obtain ⟨-, same⟩ | ⟨above, -, rfl⟩ := List.cons_eq_append_iff.mp (top.symm.trans stack)
  · obtain ⟨rfl, rfl⟩ := List.cons.inj same
    cases control : effect.control with
    | goto | call =>
      simp only [control, Control.stack, List.length_cons] at gone
      omega
    | reply value =>
      refine (straight.tail.replied fun {q rest} same => ?_).hold.trans unheld
      subst same
      exact straight.2.1.elim
    | unwind message =>
      rw [control] at tame
      exact unwound tame
  · obtain ⟨above', same⟩ | ⟨-, value, -, same⟩ | ⟨message, -, same⟩ :=
      effect.control.stack_append above (.pausing p) below <;> rw [same] at gone tame ⊢
    · simp only [List.length_append, List.length_cons] at gone
      omega
    · simp only [List.length_cons] at gone
      omega
    · unfold Frame.unwind at gone tame ⊢
      split at gone
      · simp only [List.length_cons] at gone
        omega
      · rename_i dropped
        simp only [dropped] at tame ⊢
        exact unwound tame

/-- Who is in the phases of a pause while the manager is at rest has the third of them behind it. -/
theorem World.Coherent.let_go {p : Phases} (coherent : w.Coherent m) (rests : (w.core m).Rests)
    (mem : .phases p ∈ w.stack thread) : p.point = .finish ∧ (w.step thread).isSome = true := by
  obtain ⟨above, below, stack⟩ := List.append_of_mem mem
  have sound : Sound m thread (above ++ .phases p :: below) := stack ▸ coherent.sound thread
  have base : ∃ leads, StopTheWorld.posture m (.phases p :: below) = .meeting leads p.point none := by
    simp only [posture_cons, Frame.posture]
    split <;> exact ⟨_, rfl⟩
  have passed {leads : Option (List Op)} {arrival : Option (Option Nat)}
      (meets : w.posture m thread = .meeting leads p.point arrival) :
      p.point.passed (w.core m).phaser.phase arrival = 3 := by
    have meets : (w.core m).Meets p.point arrival := (coherent.lawful.admits thread).meets meets
    have pace := meets.pace
    have phase := rests.phase
    have opening : p.point.passed (w.core m).phaser.phase arrival ≠ 0 := by
      intro none
      have stale : (w.core m).epoch.valid = false := meets.opening none
      simp [rests.valid] at stale
    omega
  have last {leads : Option (List Op)} {arrival : Option (Option Nat)}
      (meets : w.posture m thread = .meeting leads p.point arrival) : p.point = .finish := by
    have three := (passed meets).ge.trans (Phases.Point.passed_le _ _ _)
    cases point : p.point <;> simp [point, Phases.Point.rounds] at three ⊢
  obtain ⟨leads, base⟩ := base
  obtain rfl | ⟨higher, child, rfl⟩ := above.eq_nil_or_concat
  · have finish : p.point = .finish := last (by simpa [World.posture, stack] using base)
    refine ⟨finish, ?_⟩
    have top : (w.thread thread).stack = .phases p :: below := stack
    simp [World.step, top, Frame.advance, Phases.advance, finish, Effect.reply]
  · rw [List.concat_eq_append, List.append_assoc, List.singleton_append] at sound stack
    have stands : (Frame.phases p).Awaits m child below := sound.of_append.2.1
    cases child with
    | script s =>
      have acts : Acts m (w.stack thread) :=
        ⟨higher ++ [.script s], p, below, by simp [stack], by simp, sound.of_append.tail.1.1, stands⟩
      obtain ⟨leads, meets⟩ := (coherent.sound thread).acting acts
      have finish := last (stands ▸ meets)
      simp [show p.point = .third from stands] at finish
    | arrival a =>
      obtain rfl | ⟨child, none⟩ := sound.child
      · have meets : w.posture m thread = .meeting leads p.point (some a.recorded) := by
          simp [World.posture, stack, base, Frame.posture, stands.1]
        have finish := last meets
        refine ⟨finish, ?_⟩
        have three := passed meets
        obtain ⟨phaser, recorded⟩ := a
        obtain rfl : phaser = .registry (.manager m) := stands.1
        have top : (w.thread thread).stack = .arrival ⟨.registry (.manager m), recorded⟩ ::
            .phases p :: below := stack
        cases recorded with
        | none => simp [finish, Phases.Point.passed, Phases.Point.rounds] at three
        | some phase =>
          have ended : (w.phaser (.registry (.manager m))).phase ≠ phase := by
            intro same
            have here : phase = (w.core m).phaser.phase := same.symm
            simp [finish, Phases.Point.passed, Phases.Point.rounds, here] at three
          simp [World.step, top, Frame.advance, Arrival.advance, ended, Effect.reply]
      · exact none.elim
    | _ => exact stands.elim

/-- A pause lock is given back by its owner, with the fresh epoch published and the action taken back,
as long as callbacks do not unwind. -/
theorem World.Tended.gives_back {move : Move} (tended : w.Tended m)
    (tame : ∀ thread, move = .run thread → Tame w thread)
    (moves : w.move move = some (v, notes)) (owned : (w.manager m).pauseLock.owner = some thread)
    (released : (v.manager m).pauseLock.owner ≠ some thread) :
    move = .run thread ∧ (v.manager m).pauseLock.owner = none ∧
      Hold.idle.Demands (v.manager m) := by
  obtain ⟨self, rfl⟩ : ∃ self, move = .run self := by
    by_contra idle
    exact released ((World.Minds.move moves fun self same => idle ⟨self, same⟩).owner.trans owned)
  obtain ⟨after, frame, rest, effect, stack, -, ⟨-, turns⟩, rfl⟩ :=
    tended.step (tame self rfl) moves
  generalize before : holdOf m (frame :: rest) = hold at turns
  generalize holdOf m (effect.control.stack rest) = hold' at turns
  cases turns with
  | keep owner | work owner => exact absurd (owner.trans owned) released
  | take free => simp [free] at owned
  | clear owner =>
    have own := (tended.owner self).mpr (by simp [stack, before])
    obtain rfl := Option.some.inj (own.symm.trans owned)
    exact ⟨rfl, owner, after.rests owner⟩

/-- The lock of a pause is given back at rest. Whenever the thread that owns it loses it, by whatever
move, in a world of any number of managers, the current epoch is valid and no action is left; and if
user code has been orderly, nobody is held up in the phases either. No pausing call is over, whether it
returns or unwinds, while its thread still owns the lock. All this is so as long as no callback
unwinds. -/
theorem released_at_rest {move : Move} (fresh : w.IsFresh m)
    (course : Course Tame w (moments ++ [⟨v, move, notes⟩]) u) :
    ((v.manager m).pauseLock.owner = some thread → (u.manager m).pauseLock.owner ≠ some thread →
      move = .run thread ∧ (u.manager m).pauseLock.IsFree ∧ (u.manager m).epoch.valid = true ∧
        (u.manager m).action = none ∧
        (Course (Orderly m) w (moments ++ [⟨v, move, notes⟩]) u →
          ∀ other p, .phases p ∈ u.stack other →
            p.point = .finish ∧ (u.step other).isSome = true)) ∧
    ∀ above p below, v.stack thread = above ++ .pausing p :: below → p.manager = m →
      p.point ≠ .gate → move = .run thread → (u.stack thread).length ≤ below.length →
      (u.manager m).pauseLock.owner ≠ some thread := by
  obtain ⟨before, tame, moved⟩ := course.unsnoc
  have tended := before.tended fresh
  constructor
  · intro owned released
    obtain ⟨own, free, valid, action⟩ := tended.gives_back tame moved owned released
    refine ⟨own, free, valid, action, fun orderly other p mem => ?_⟩
    have coherent := orderly.coherent fresh.coherent
    exact coherent.let_go (coherent.lawful.rests free) mem
  · rintro above p below stack manager past rfl gone held
    have unheld := tended.ended (tame thread rfl) stack manager past moved gone
    have own := ((tended.move tame moved).owner thread).mp held
    simp [unheld] at own

/-- Two threads register, and the first drives a pause whose action unwinds on both. The first comes
out of it before the second, and gives the pause lock back with the last step. -/
def unwindingPause : List Move :=
  Move.repeated [
    (1, .submit 0 (.enter 0)), (14, .run 0), (1, .submit 1 (.enter 0)), (14, .run 1),
    (1, .submit 0 (.pauseWith 0 false [.unwind "boom"])), (25, .run 0),
    (1, .submit 1 (.pollFree 0)), (9, .run 1), (4, .run 0), (6, .run 1), (10, .run 0)]

/-- When the action of a pause has unwound on both threads, the driver gives the lock back at rest, and
the other thread, which is on its way out of the phases, can go on. -/
theorem released_at_rest_unwindingPause : ∃ moments v notes u p, World.pair.IsFresh 0 ∧
    Course Tame World.pair (moments ++ [⟨v, .run 0, notes⟩]) u ∧
    (v.manager 0).pauseLock.owner = some 0 ∧ (u.manager 0).pauseLock.owner ≠ some 0 ∧
    Course (Orderly 0) World.pair (moments ++ [⟨v, .run 0, notes⟩]) u ∧ .phases p ∈ u.stack 1 ∧
    (u.manager 0).epoch.valid = true ∧ (u.manager 0).action = none ∧ p.point = .finish ∧
    (u.step 1).isSome = true := by
  have made : (World.pair.follow (fun w t => w.isOrderly 0 t && w.isTame t) unwindingPause).any
      (fun made => made.2.isOrderly 0 0 && made.2.isTame 0 &&
        (made.2.manager 0).pauseLock.owner = some 0 &&
        (made.2.step 0).any fun next => (next.1.manager 0).pauseLock.owner ≠ some 0 &&
          (next.1.stack 1).any (·.isPhases)) = true := by
    decide +kernel
  obtain ⟨⟨moments, v⟩, follows, state⟩ := (Option.any_eq_true _ _).mp made
  simp only [Bool.and_eq_true, decide_eq_true_eq, Option.any_eq_true, List.any_eq_true] at state
  obtain ⟨⟨⟨orderly, tame⟩, owned⟩, ⟨u, notes⟩, step, released, frame, mem, phases⟩ := state
  obtain ⟨p, rfl⟩ : ∃ p, frame = .phases p := by cases frame <;> simp [Frame.isPhases] at phases ⊢
  have both (w : World) (t : ThreadId) (checked : (w.isOrderly 0 t && w.isTame t) = true) :
      Orderly 0 w t ∧ Tame w t := by
    rw [Bool.and_eq_true] at checked
    exact ⟨World.orderly_of_isOrderly 0 w t checked.1, World.tame_of_isTame checked.2⟩
  have last (t : ThreadId) (runs : Move.run 0 = .run t) : Orderly 0 v t ∧ Tame v t := by
    obtain rfl := Move.run.inj runs
    exact both v 0 (by simp [orderly, tame])
  have course := (World.course_of_follow both follows).snoc last step
  have tame := course.mono fun _ _ both => both.2
  have orderly := course.mono fun _ _ both => both.1
  obtain ⟨-, -, valid, action, others⟩ :=
    (released_at_rest World.pair_isFresh tame).1 owned released
  obtain ⟨finish, goes⟩ := others orderly 1 p mem
  exact ⟨moments, v, notes, u, p, World.pair_isFresh, tame, owned, released, orderly, mem, valid, action,
    finish, goes⟩

/-- Two threads register, the second with a callback that unwinds, and the first drives a pause up to
the step that gives the pause lock back. -/
def shakenPause : List Move :=
  Move.repeated [
    (1, .submit 0 (.enter 0)), (14, .run 0), (1, .submit 1 (.enter 0)), (14, .run 1),
    (1, .submit 1 (.blockOn none "b" [.unwind "boom"])), (1, .run 1),
    (1, .submit 0 (.pauseWith 0 false [.log "a"])), (22, .run 0)]

/-- A callback that unwinds while the driver wakes the others takes the pause lock along: when the
driver gives it back, the epoch that it invalidated is still the current one, and its action is still
there. -/
theorem released_shaken : ∃ moments v notes u, World.pair.IsFresh 0 ∧
    Course (fun _ _ => True) World.pair (moments ++ [⟨v, .run 0, notes⟩]) u ∧
    (0, .invalidated 0 0) ∈ observations moments ∧ (v.manager 0).pauseLock.owner = some 0 ∧
    (u.manager 0).pauseLock.owner ≠ some 0 ∧ (u.manager 0).epoch = ⟨0, false⟩ ∧
    (u.manager 0).action.isSome = true := by
  have made : (World.pair.follow (fun _ _ => true) shakenPause).any (fun made =>
      shows 0 (·.isInvalidation 0 0) (observations made.1) &&
        (made.2.manager 0).pauseLock.owner = some 0 &&
        (made.2.step 0).any fun next => (next.1.manager 0).pauseLock.owner ≠ some 0 &&
          (next.1.manager 0).epoch = ⟨0, false⟩ && (next.1.manager 0).action.isSome) = true := by
    decide +kernel
  obtain ⟨⟨moments, v⟩, follows, state⟩ := (Option.any_eq_true _ _).mp made
  simp only [Bool.and_eq_true, decide_eq_true_eq, Option.any_eq_true] at state
  obtain ⟨⟨invalidated, owned⟩, ⟨u, notes⟩, step, ⟨released, stale⟩, action⟩ := state
  have course : Course (fun _ _ => True) World.pair moments v :=
    World.course_of_follow (fun _ _ _ => trivial) follows
  exact ⟨moments, v, notes, u, World.pair_isFresh, course.snoc (fun _ _ => trivial) step,
    (shows_iff Note.isInvalidation_iff).mp invalidated, owned, released, stale, action⟩

end

end StopTheWorld
