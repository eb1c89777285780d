import StopTheWorld.Proofs.Announcements

namespace StopTheWorld

/-! The order of the events that tell of the pauses of a manager. -/

/-- The events that the manager has published. -/
def eventsOf (m : ManagerId) (moments : List Moment) : List Event :=
  (observations moments).filterMap fun entry => entry.2.event? m

def Event.isPause : Event → Bool
  | pauseStarted _ | pauseCompleted _ _ _ => true
  | entered _ | left _ => false

/-- The events that tell of the pauses of a driver. -/
def pauseEvents (m : ManagerId) (driver : ThreadId) (moments : List Moment) : List Event :=
  (eventsOf m moments).filter fun event => event.isPause && event.thread = driver

/-- What is told of a pause: its start, and its end with the number of its participants and its
duration. -/
def pausePair (driver : ThreadId) (pause : Nat × Nat) : List Event :=
  [.pauseStarted driver, .pauseCompleted driver pause.1 pause.2]

/-- A pause that the thread drives is announced, and its end is not. -/
def World.isAnnounced (w : World) (m : ManagerId) (thread : ThreadId) : Bool :=
  (w.stack thread).any (·.drivesAt m Pausing.Point.isAnnounced)

/-- The events that a step of a thread publishes, and whether a pause of it is announced before and
after. -/
inductive Publishes (self : ThreadId) : Bool → List Event → Bool → Prop
  | silent (announced : Bool) : Publishes self announced [] announced
  | enters (announced : Bool) : Publishes self announced [.entered self] announced
  | leaves (announced : Bool) : Publishes self announced [.left self] announced
  | starts : Publishes self false [.pauseStarted self] true
  | completes (participants duration : Nat) :
      Publishes self true [.pauseCompleted self participants duration] false

section

variable {m : ManagerId} {self thread : ThreadId} {w v : World} {frame : Frame} {rest : List Frame}
  {effect : Effect} {notes : List Note} {moments : List Moment}

@[simp] theorem eventsOf_append (first second : List Moment) :
    eventsOf m (first ++ second) = eventsOf m first ++ eventsOf m second := by
  simp [eventsOf]

theorem eventsOf_run : eventsOf m [⟨w, .run thread, notes⟩] = notes.filterMap (Note.event? m) := by
  simp [eventsOf, List.filterMap_map]

theorem eventsOf_idle {move : Move} (idle : ∀ thread, move ≠ .run thread) :
    eventsOf m [⟨w, move, notes⟩] = [] := by
  cases move with
  | run thread => exact absurd rfl (idle thread)
  | _ => rfl

theorem Control.silent_completion (control : Control) :
    (control.completion rest).filterMap (Note.event? m) = [] :=
  List.filterMap_eq_nil_iff.mpr fun note mem => by
    obtain ⟨value, rfl⟩ := Control.completed_of_mem mem
    rfl

/-- A thread that has no hold on the pause lock drives no announced pause below its top frame, except
right below the giving back of a lock. -/
theorem Straight.not_announced (straight : Straight m self (frame :: rest))
    (inner : ∀ lock point, frame ≠ .release lock point) (unheld : holdOf m rest = none) :
    rest.any (·.drivesAt m Pausing.Point.isAnnounced) = false := by
  induction rest generalizing frame with
  | nil => rfl
  | cons parent below ih =>
    have stands := straight.2.1
    have not_leaf (lock : LockRef) (point : Release.Point) : parent ≠ .release lock point := by
      rintro rfl
      exact stands.elim
    have away : parent.drivesAt m Pausing.Point.isAnnounced = false := by
      cases parent with
      | pausing p =>
        refine Bool.eq_false_iff.mpr fun announced => ?_
        simp only [Frame.drivesAt, Bool.and_eq_true, decide_eq_true_eq] at announced
        obtain ⟨manager, announced⟩ := announced
        have idle : p.point.drives = false := by
          rw [Bool.eq_false_iff]
          intro drives
          simp [Frame.hold, manager, drives] at unheld
        have ended : p.point = .announceEnd := by
          cases point : p.point <;> simp [point, Pausing.Point.isAnnounced] at announced <;>
            simp [point, Pausing.Point.drives] at idle
          rfl
        simp only [Frame.Stands] at stands
        cases frame <;> first
          | exact inner _ _ rfl
          | simp [Frame.Heads, ended] at stands
      | _ => rfl
    have below_unheld : holdOf m below = none := by
      cases parent with
      | acquisition => exact stands.elim
      | release => exact stands.elim
      | pausing | entering | phases =>
        simp only [holdOf_cons, Frame.hold] at unheld
        split at unheld
        · simp at unheld
        · exact unheld
      | _ => exact unheld
    rw [List.any_cons, away, ih straight.tail not_leaf below_unheld]
    rfl

/-- The step of a driver that announces the start or the end of a pause finds no other that is
announced. -/
theorem Straight.alone {p : Pausing} (straight : Straight m self (.pausing p :: rest))
    (manager : p.manager = m) (past : p.point ≠ .gate) : rest.any (·.drivesAt m Pausing.Point.isAnnounced) = false :=
  straight.not_announced (by simp) (straight.1.2 manager past)

theorem Frame.publishes (straight : Straight m self (frame :: rest))
    (step : frame.advance self w = some effect) :
    Publishes self ((frame :: rest).any (·.drivesAt m Pausing.Point.isAnnounced))
      (effect.notes.filterMap (Note.event? m))
      ((effect.control.stack rest).any (·.drivesAt m Pausing.Point.isAnnounced)) := by
  rw [straight.drivesAt_stack (fun _ => id) step, List.any_cons]
  cases Frame.announces (m := m) step with
  | silent quiet same =>
    rw [quiet, same]
    exact .silent _
  | enters top _ _ _ event control =>
    rw [event, control, top]
    exact .enters _
  | leaves top _ _ _ event control =>
    rw [event, control, top]
    exact .leaves _
  | @starts p top manager point event control =>
    subst top
    rw [event, control, straight.alone manager (by simp [point])]
    simp only [Control.drivesAt, Frame.drivesAt, manager, point, Pausing.Point.isAnnounced]
    exact .starts
  | @completes p top manager point event control =>
    subst top
    rw [event, control, straight.alone manager (by simp [point])]
    simp only [Control.drivesAt, Frame.drivesAt, manager, point, Pausing.Point.isAnnounced]
    exact .completes _ _

namespace World

theorem Tended.publishes (tended : w.Tended m) (step : w.step self = some (v, notes)) :
    Publishes self (w.isAnnounced m self) (notes.filterMap (Note.event? m)) (v.isAnnounced m self) := by
  obtain ⟨frame, rest, effect, stack, advance, rfl, rfl⟩ := World.step_eq_some step
  have publishes := Frame.publishes (stack ▸ tended.straight self) advance
  rw [List.filterMap_append, Control.silent_completion, List.append_nil]
  simpa [isAnnounced, stack] using publishes

/-- The events of a move name no thread but the one whose step it is. -/
theorem eventsOf_other {move : Move} (moves : w.move move = some (v, notes))
    (other : move ≠ .run thread) :
    ∀ event ∈ eventsOf m [⟨w, move, notes⟩], event.thread ≠ thread := by
  intro event mem
  by_cases runs : ∃ self, move = .run self
  · obtain ⟨self, rfl⟩ := runs
    obtain ⟨frame, rest, effect, -, step, rfl, rfl⟩ := World.step_eq_some moves
    rw [eventsOf_run, List.filterMap_append, Control.silent_completion, List.append_nil] at mem
    have named : event.thread = self := by
      cases Frame.announces (m := m) step with
      | silent quiet => simp [quiet] at mem
      | enters _ _ _ _ single | leaves _ _ _ _ single | starts _ _ _ single
      | completes _ _ _ single =>
        rw [single, List.mem_singleton] at mem
        rw [mem]
        rfl
    rintro rfl
    exact other (by rw [named])
  · rw [eventsOf_idle fun self same => runs ⟨self, same⟩] at mem
    simp at mem

/-- A move that is no step of a thread leaves its pauses where they are. -/
theorem drivesAt_other {move : Move} (check : Pausing.Point → Bool)
    (moves : w.move move = some (v, notes)) (other : move ≠ .run thread) :
    (v.stack thread).any (·.drivesAt m check) = (w.stack thread).any (·.drivesAt m check) := by
  obtain ⟨-, same | ⟨op, idle, told⟩ | ⟨frame, frame', rest, before, after, rouses⟩⟩ :=
    World.move_other moves other
  · rw [same]
  · rw [idle, told]
    rfl
  · rw [before, after]
    cases rouses <;> rfl

theorem isAnnounced_other {move : Move} (moves : w.move move = some (v, notes))
    (other : move ≠ .run thread) : v.isAnnounced m thread = w.isAnnounced m thread :=
  drivesAt_other _ moves other

end World

/-- Of the pauses of each driver, all ends are announced, but perhaps that of the last. -/
theorem Course.paired (fresh : w.IsFresh m) (course : Course Tame w moments v) (thread : ThreadId) :
    ∃ pauses : List (Nat × Nat), pauseEvents m thread moments = pauses.flatMap (pausePair thread) ++
      if v.isAnnounced m thread then [.pauseStarted thread] else [] := by
  induction course with
  | nil => exact ⟨[], by simp [pauseEvents, eventsOf, World.isAnnounced, fresh.idle]⟩
  | @snoc moments x y move notes before tame moves ih =>
    obtain ⟨pauses, told⟩ := ih
    rw [pauseEvents, eventsOf_append, List.filter_append, ← pauseEvents, told]
    by_cases own : move = .run thread
    · subst own
      have publishes := (before.tended fresh).publishes moves
      rw [eventsOf_run]
      generalize x.isAnnounced m thread = announced at publishes
      generalize y.isAnnounced m thread = announced' at publishes
      generalize notes.filterMap (Note.event? m) = events at publishes
      cases publishes with
      | silent | enters | leaves => exact ⟨pauses, by simp [Event.isPause]⟩
      | starts => exact ⟨pauses, by simp [Event.isPause, Event.thread]⟩
      | completes participants duration =>
        exact ⟨pauses ++ [(participants, duration)],
          by simp [Event.isPause, Event.thread, pausePair]⟩
    · have silent : (eventsOf m [⟨x, move, notes⟩]).filter
          (fun event => event.isPause && event.thread = thread) = [] := by
        simp only [List.filter_eq_nil_iff, Bool.and_eq_true, decide_eq_true_eq, not_and]
        exact fun event mem _ => World.eventsOf_other moves own event mem
      rw [silent, World.isAnnounced_other moves own, List.append_nil]
      exact ⟨pauses, rfl⟩

end

end StopTheWorld
