import StopTheWorld.Proofs.News

namespace StopTheWorld

/-! The events of a manager tell its history: who is in and who has left, and who has paused it
meanwhile. -/

/-- The events of the manager that name the thread. -/
def eventsNaming (m : ManagerId) (thread : ThreadId) (moments : List Moment) : List Event :=
  (eventsOf m moments).filter (·.thread = thread)

/-- What is told of a thread that comes, drives these pauses, and leaves. -/
def stay (thread : ThreadId) (pauses : List (Nat × Nat)) : List Event :=
  .entered thread :: (pauses.flatMap (pausePair thread) ++ [.left thread])

/-- What the step of a thread tells, and whether the thread has announced that it is in, and that a
pause of its own is under way, before and after. -/
inductive Tells (self : ThreadId) : Bool → Bool → List Event → Bool → Bool → Prop
  | nothing (inside announced : Bool) : Tells self inside announced [] inside announced
  | enters : Tells self false false [.entered self] true false
  | leaves : Tells self true false [.left self] false false
  | starts : Tells self true false [.pauseStarted self] true true
  | completes (inside : Bool) (participants duration : Nat) :
      Tells self inside true [.pauseCompleted self participants duration] inside false

/-- What has been told of a thread, and whether it has announced that it is in, and that a pause of its
own is under way. -/
inductive Chronicle (thread : ThreadId) : List Event → Bool → Bool → Prop
  | start : Chronicle thread [] false false
  | snoc {events more : List Event} {inside announced inside' announced' : Bool}
      (before : Chronicle thread events inside announced)
      (tells : Tells thread inside announced more inside' announced') :
      Chronicle thread (events ++ more) inside' announced'

section

variable {m : ManagerId} {self thread : ThreadId} {w v : World} {frame : Frame} {rest : List Frame}
  {effect : Effect} {notes : List Note} {moments : List Moment} {events : List Event}
  {inside announced inside' announced' : Bool}

namespace Tells

/-- A thread tells only of itself. -/
theorem thread_eq (tells : Tells self inside announced events inside' announced') :
    ∀ event ∈ events, event.thread = self := by
  cases tells <;> simp [Event.thread]

end Tells

namespace Chronicle

/-- Who has announced a pause has announced itself before. -/
theorem inside_of_announced (chronicle : Chronicle thread events inside announced)
    (pauses : announced = true) : inside = true := by
  induction chronicle with
  | start => simp at pauses
  | snoc _ tells ih =>
    cases tells with
    | nothing => exact ih pauses
    | completes => simp at pauses
    | _ => first | rfl | simp at pauses

/-- What is told of a thread are its stays, of which the last may not be over. -/
theorem parts (chronicle : Chronicle thread events inside announced) :
    ∃ (stays : List (List (Nat × Nat))) (pauses : List (Nat × Nat)),
      events = stays.flatMap (stay thread) ++
        if inside then
          .entered thread :: (pauses.flatMap (pausePair thread) ++
            if announced then [.pauseStarted thread] else [])
        else [] := by
  induction chronicle with
  | start => exact ⟨[], [], rfl⟩
  | snoc before tells ih =>
    obtain ⟨stays, pauses, rfl⟩ := ih
    cases tells with
    | nothing => exact ⟨stays, pauses, by simp⟩
    | enters => exact ⟨stays, [], by simp⟩
    | leaves => exact ⟨stays ++ [pauses], [], by simp [stay]⟩
    | starts => exact ⟨stays, pauses, by simp⟩
    | completes _ participants duration =>
      obtain rfl := before.inside_of_announced rfl
      exact ⟨stays, pauses ++ [(participants, duration)], by simp [pausePair]⟩

theorem isPrefix (chronicle : Chronicle thread events inside announced) :
    ∃ stays : List (List (Nat × Nat)), events <+: stays.flatMap (stay thread) := by
  obtain ⟨stays, pauses, rfl⟩ := chronicle.parts
  cases inside with
  | false => exact ⟨stays, by simp⟩
  | true =>
    refine ⟨stays ++ [pauses ++ [(0, 0)]], ?_⟩
    cases announced <;> simp [stay, pausePair, List.prefix_append_right_inj]

/-- A thread that has announced that it is in has done so once more often than that it left. -/
theorem count_entered (chronicle : Chronicle thread events inside announced) :
    events.count (.entered thread) = events.count (.left thread) + inside.toNat := by
  induction chronicle with
  | start => rfl
  | snoc _ tells ih =>
    cases tells <;> simp [List.count_append, ih]

end Chronicle

/-- The step of an orderly thread is tame. -/
theorem World.Coherent.tame (coherent : w.Coherent m) (orderly : Orderly m w self) : Tame w self := by
  intro v notes step
  have sound := (coherent.step orderly step).1.sound self
  cases stack : v.stack self with
  | nil => rfl
  | cons frame rest =>
    rw [stack] at sound
    cases frame with
    | visit x =>
      have fits := sound.1.1
      unfold isShaken
      split
      · rename_i y _ _ same
        obtain rfl := (Frame.visit.inj (List.cons.inj same).1)
        cases point : x.point with
        | abandon identity message => exact absurd point (fits identity message)
        | _ => rfl
      · rfl
    | _ => rfl

/-- Orderly user code is tame. -/
theorem Course.tame (coherent : w.Coherent m) (course : Course (Orderly m) w moments v) :
    Course Tame w moments v := by
  induction course with
  | nil => exact .nil
  | snoc before orderly moves ih =>
    exact ih.snoc (fun thread runs => (before.coherent coherent).tame (orderly thread runs)) moves

namespace World

/-- Of a thread that has no hold on the pause lock, no pause is announced. -/
theorem Tended.not_announced (tended : w.Tended m) (stack : w.stack self = frame :: rest)
    (inner : ∀ lock point, frame ≠ .release lock point) (away : ∀ p, frame ≠ .pausing p)
    (unheld : holdOf m rest = none) : w.isAnnounced m self = false := by
  have straight : Straight m self (frame :: rest) := stack ▸ tended.straight self
  have here : frame.drivesAt m Pausing.Point.isAnnounced = false := by
    cases frame with
    | pausing p => exact absurd rfl (away p)
    | _ => rfl
  rw [isAnnounced, stack, List.any_cons, here, straight.not_announced inner unheld]
  rfl

/-- A thread that does not own the pause lock has no hold on it. -/
theorem Coherent.unheld (coherent : w.Coherent m) (tended : w.Tended m)
    (disowned : (w.posture m self).owns = false) : holdOf m (w.stack self) = none := by
  have owner : (w.manager m).pauseLock.owner ≠ some self := fun owner => by
    have owns := (coherent.lawful.admits self).owner.mpr owner
    exact Bool.false_ne_true (disowned.symm.trans owns)
  rw [Ne, tended.owner] at owner
  simpa using owner

/-- A thread that announces something has told of itself what is so. -/
theorem Coherent.tells (coherent : w.Coherent m) (tended : w.Tended m)
    (step : w.step self = some (v, notes))
    (reflects : Reflects (w.isMember m self) (newsOf? m (w.stack self)) inside) :
    ∃ inside', Tells self inside (w.isAnnounced m self) (notes.filterMap (Note.event? m)) inside'
        (v.isAnnounced m self) ∧
      Reflects (v.isMember m self) (newsOf? m (v.stack self)) inside' := by
  have publishes := tended.publishes step
  obtain ⟨frame, rest, effect, stack, advance, rfl, rfl⟩ := World.step_eq_some step
  have sound : Sound m self (frame :: rest) := stack ▸ coherent.sound self
  have straight : Straight m self (frame :: rest) := stack ▸ tended.straight self
  rw [List.filterMap_append, Control.silent_completion, List.append_nil] at publishes ⊢
  rw [stack, newsOf?_cons] at reflects
  rw [World.stack_setStack, if_pos rfl, World.isMember_setStack]
  have settles (busy : frame.isLeaf = false) :
      Reflects (effect.world.isMember m self) (newsOf? m (effect.control.stack rest))
        (w.isMember m self) := by
    obtain ⟨members, none⟩ := sound.settled advance busy
    rw [World.isMember_of_members members, none]
    exact .told _
  generalize (effect.world.setStack self (effect.control.stack rest)).isAnnounced m self = announced'
    at publishes ⊢
  cases Frame.announces (m := m) advance with
  | silent quiet _ =>
    rw [quiet] at publishes ⊢
    generalize w.isAnnounced m self = announced at publishes ⊢
    cases publishes
    exact ⟨inside, .nothing _ _, coherent.reflects stack advance quiet reflects⟩
  | @enters e top manager point added event _ =>
    subst top
    have unannounced := tended.not_announced stack (by simp) (by simp)
      (straight.1 manager (by simp [point]))
    rw [event, unannounced] at publishes ⊢
    cases publishes
    simp only [Frame.news?, manager, point, added, and_self, if_true] at reflects
    have settles := settles rfl
    generalize w.isMember m self = member at reflects settles
    cases reflects
    exact ⟨true, .enters, settles⟩
  | @leaves l top manager point left event _ =>
    subst top
    have quiet : Quiet m rest := sound.1.2.1.resolve_right (by simp [point])
    have unheld : holdOf m rest = none := by
      have disowned : (w.posture m self).owns = false := by
        simp [World.posture, stack, Frame.posture, quiet.outside, Posture.owns]
      have unheld := coherent.unheld tended disowned
      rwa [stack] at unheld
    have unannounced := tended.not_announced stack (by simp) (by simp) unheld
    rw [event, unannounced] at publishes ⊢
    cases publishes
    simp only [Frame.news?, manager, point, left, and_self, if_true] at reflects
    have settles := settles rfl
    generalize w.isMember m self = member at reflects settles
    cases reflects
    exact ⟨false, .leaves, settles⟩
  | @starts p top manager point event _ =>
    subst top
    have member : w.isMember m self = true := by
      obtain ⟨entry, found, -⟩ := coherent.bonded self p.record (by
        simp [stack, Frame.bond?, point, Pausing.Point.relies])
      exact (Registry.contains_eq_isSome _ _).trans (congrArg Option.isSome found)
    rw [event] at publishes ⊢
    generalize w.isAnnounced m self = announced at publishes ⊢
    cases publishes
    have settles := settles rfl
    rw [member] at reflects settles
    cases reflects
    exact ⟨true, .starts, settles⟩
  | @completes p top manager point event _ =>
    subst top
    rw [event] at publishes ⊢
    generalize w.isAnnounced m self = announced at publishes ⊢
    cases publishes
    have settles := settles rfl
    generalize w.isMember m self = member at reflects settles
    cases reflects
    exact ⟨_, .completes _ _ _, settles⟩

end World

/-- What has been told of a thread, and what its stack tells. -/
theorem Course.chronicle (fresh : w.IsFresh m) (course : Course (Orderly m) w moments v)
    (thread : ThreadId) :
    ∃ inside, Chronicle thread (eventsNaming m thread moments) inside (v.isAnnounced m thread) ∧
      Reflects (v.isMember m thread) (newsOf? m (v.stack thread)) inside := by
  induction course with
  | nil =>
    refine ⟨false, ?_, ?_⟩
    · simpa [eventsNaming, eventsOf, World.isAnnounced, fresh.idle] using Chronicle.start
    · have none : w.isMember m thread = false := by
        simp [World.isMember, World.registry, fresh.new.registry, Registry.contains]
      rw [none, fresh.idle]
      exact .told false
  | @snoc moments x y move notes before orderly moves ih =>
    obtain ⟨inside, chronicle, reflects⟩ := ih
    have coherent := before.coherent fresh.coherent
    have tended := (before.tame fresh.coherent).tended fresh
    rw [eventsNaming, eventsOf_append, List.filter_append, ← eventsNaming]
    by_cases own : move = .run thread
    · subst own
      obtain ⟨inside', tells, reflects⟩ := coherent.tells tended moves reflects
      rw [eventsOf_run, List.filter_eq_self.mpr (by simpa using tells.thread_eq)]
      exact ⟨inside', chronicle.snoc tells, reflects⟩
    · obtain ⟨member, news⟩ := coherent.stays orderly moves own
      rw [member, news, World.isAnnounced_other moves own]
      have silent : (eventsOf m [⟨x, move, notes⟩]).filter (·.thread = thread) = [] :=
        List.filter_eq_nil_iff.mpr fun event mem => by
          simpa using World.eventsOf_other moves own event mem
      rw [silent, List.append_nil]
      exact ⟨inside, chronicle, reflects⟩

end

end StopTheWorld
