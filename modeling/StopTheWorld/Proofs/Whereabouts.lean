import StopTheWorld.Proofs.Sound

namespace StopTheWorld

/-! What the posture of a thread tells of its stack. -/

/-- A run of the action of a pause is under way on this stack: there is something above the phases
that the action was started from. -/
def Acts (m : ManagerId) (stack : List Frame) : Prop :=
  ∃ above p below, stack = above ++ .phases p :: below ∧ above ≠ [] ∧ p.manager = m ∧
    p.point = .third

/-- A call that drives a pause can wait for such a frame. -/
def Frame.serves : Frame → Bool
  | acquisition _ | release _ _ | notify _ | visit _ | phases _ | resuming _ | polling _ => true
  | _ => false

def Frame.isDrain : Frame → Bool
  | drain _ => true
  | _ => false

section

variable {m : ManagerId} {self : ThreadId} {action : List Op} {leads : Option (List Op)}
  {arrival : Option (Option Nat)} {stack above below rest : List Frame}

namespace Frame

variable {frame : Frame} {under : Posture}

theorem posture_eq_driving {point : Pausing.Point}
    (drives : frame.posture m under = .driving action point) :
    under = .driving action point ∨
      ∃ p, frame = .pausing p ∧ p.action = action ∧ p.point = point := by
  cases frame with
  | pausing p =>
    simp only [posture] at drives
    split at drives
    · obtain ⟨rfl, rfl⟩ := Posture.driving.inj drives
      exact .inr ⟨p, rfl, rfl, rfl⟩
    · exact .inl drives
  | phases | arrival =>
    simp only [posture] at drives
    repeat' split at drives
    all_goals first | exact .inl drives | simp at drives
  | polling | entering | acquisition | release | enrolment | withdrawal =>
    simp only [posture] at drives
    split at drives
    · simp at drives
    · exact .inl drives
  | _ => exact .inl drives

theorem posture_eq_meeting {point : Phases.Point}
    (meets : frame.posture m under = .meeting leads point arrival) :
    under = .meeting leads point arrival ∨
      (∃ p, frame = .phases p ∧ p.point = point ∧ arrival = none) ∨
      ∃ a, frame = .arrival a ∧ a.phaser = .registry (.manager m) ∧ arrival = some a.recorded := by
  cases frame with
  | phases p =>
    right
    left
    simp only [posture] at meets
    split at meets
    all_goals
      obtain ⟨-, rfl, rfl⟩ := Posture.meeting.inj meets
      exact ⟨p, rfl, rfl, rfl⟩
  | arrival a =>
    simp only [posture] at meets
    split at meets
    · split at meets
      · rename_i bound
        obtain ⟨-, -, rfl⟩ := Posture.meeting.inj meets
        exact .inr (.inr ⟨a, rfl, bound, rfl⟩)
      · exact .inl meets
    · exact .inl meets
  | pausing | polling | entering | acquisition | release | enrolment | withdrawal =>
    simp only [posture] at meets
    split at meets
    · simp at meets
    · exact .inl meets
  | _ => exact .inl meets

end Frame

namespace Sound

theorem of_append (sound : Sound m self (above ++ below)) : Sound m self below := by
  induction above with
  | nil => exact sound
  | cons frame above ih => exact ih sound.tail

/-- What stands right on a frame is something that the frame waits for. -/
theorem child {parent : Frame} (sound : Sound m self (above ++ parent :: below)) :
    above = [] ∨ ∃ child, parent.Awaits m child below := by
  induction above with
  | nil => exact .inl rfl
  | cons frame above ih =>
    right
    obtain rfl | waits := ih sound.tail
    · exact ⟨frame, sound.2.1⟩
    · exact waits

theorem driving {point : Pausing.Point} (sound : Sound m self stack)
    (drives : posture m stack = .driving action point) :
    ∃ above p below, stack = above ++ .pausing p :: below ∧ p.manager = m ∧ p.action = action ∧
      p.point = point := by
  induction stack with
  | nil => simp at drives
  | cons frame rest ih =>
    obtain under | ⟨p, rfl, same, at_⟩ := Frame.posture_eq_driving drives
    · obtain ⟨above, p, below, rfl, rest⟩ := ih sound.tail under
      exact ⟨frame :: above, p, below, rfl, rest⟩
    · exact ⟨[], p, rest, rfl, sound.1.1, same, at_⟩

theorem meeting {point : Phases.Point} (sound : Sound m self stack)
    (meets : posture m stack = .meeting leads point arrival) :
    ∃ above p below, stack = above ++ .phases p :: below ∧ p.manager = m ∧ p.point = point ∧
      posture m (.phases p :: below) = .meeting leads point none ∧
      (arrival = none → above = [] ∨ point = .third) ∧
      ∀ recorded, arrival = some recorded →
        above = [.arrival { phaser := .registry (.manager m), recorded := recorded }] := by
  induction stack with
  | nil => simp at meets
  | cons frame rest ih =>
    obtain under | ⟨p, rfl, rfl, rfl⟩ | ⟨a, rfl, bound, rfl⟩ := Frame.posture_eq_meeting meets
    · obtain ⟨above, p, below, rfl, manager, at_, same, acts, arrives⟩ := ih sound.tail under
      refine ⟨frame :: above, p, below, rfl, manager, at_, same, ?_, ?_⟩
      · intro none
        obtain rfl | third := acts none
        · have stands : (Frame.phases p).Awaits m frame below := sound.2.1
          cases frame with
          | script => exact .inr (at_.symm.trans stands)
          | arrival a =>
            rw [posture_cons, List.nil_append, same, none] at meets
            simp [Frame.posture, stands.1] at meets
          | _ => exact stands.elim
        · exact .inr third
      · intro recorded some
        obtain rfl := arrives recorded some
        exact sound.2.1.elim
    · exact ⟨[], p, rest, rfl, sound.1.1, rfl, meets, fun _ => .inl rfl, by simp⟩
    · obtain ⟨p, below, rfl, -⟩ := sound.below_arrival bound
      obtain ⟨phaser, recorded⟩ := a
      obtain rfl : phaser = .registry (.manager m) := bound
      have top : ∃ leads, posture m (.phases p :: below) = .meeting leads p.point none := by
        simp only [posture_cons, Frame.posture]
        split <;> exact ⟨_, rfl⟩
      obtain ⟨leads', top⟩ := top
      rw [posture_cons, top] at meets
      simp only [Frame.posture, if_true, Posture.meeting.injEq] at meets
      obtain ⟨rfl, rfl, -⟩ := meets
      exact ⟨[_], p, below, rfl, sound.tail.1.1, rfl, top, by simp, by simp⟩

/-- Whoever leads the phases does so from a pause of its own. -/
theorem leading {p : Phases} {point : Phases.Point} (sound : Sound m self (.phases p :: below))
    (meets : posture m (.phases p :: below) = .meeting (some action) point none) :
    ∃ q rest, below = .pausing q :: rest ∧ q.manager = m ∧ q.point = .exitPhases ∧
      q.action = action := by
  have drives : ∃ at_, posture m below = .driving action at_ := by
    simp only [posture_cons, Frame.posture] at meets
    split at meets
    · rename_i driven at_ same
      obtain ⟨same', -⟩ := Posture.meeting.inj meets
      exact ⟨at_, Option.some.inj same' ▸ same⟩
    · simp at meets
  obtain ⟨at_, drives⟩ := drives
  obtain ⟨q, rest, rfl, exit, -⟩ | ⟨q, rest, rfl, exit, -⟩ := sound.below_phases
  · have quiet : Quiet m rest := sound.tail.1.2.resolve_right (by simp [exit])
    simp [Frame.posture, exit, Polling.Point.isCalled, quiet.outside] at drives
  · rw [posture_cons] at drives
    simp only [Frame.posture, exit, Pausing.Point.drives, if_true, Posture.driving.injEq] at drives
    exact ⟨q, rest, rfl, sound.tail.1.1, exit, drives.1⟩

theorem arriving {point : Phases.Point} {recorded : Option Nat} (sound : Sound m self stack)
    (meets : posture m stack = .meeting leads point (some recorded)) :
    ∃ rest, stack =
      .arrival { phaser := .registry (.manager m), recorded := recorded } :: rest := by
  obtain ⟨above, p, below, rfl, -, -, -, -, arrives⟩ := sound.meeting meets
  rw [arrives recorded rfl]
  exact ⟨_, rfl⟩

/-- A participant that is not running the action is about to take the next step of the phases. -/
theorem choosing {point : Phases.Point} (sound : Sound m self stack)
    (meets : posture m stack = .meeting leads point none) (still : point ≠ .third) :
    ∃ p rest, stack = .phases p :: rest ∧ p.manager = m ∧ p.point = point := by
  obtain ⟨above, p, below, rfl, manager, at_, -, top, -⟩ := sound.meeting meets
  rw [(top rfl).resolve_right still]
  exact ⟨p, below, rfl, manager, at_⟩

/-- Nothing that a pause action does changes what the thread is to the pause. -/
theorem transparent {frame : Frame} (sound : Sound m self (frame :: rest))
    (meets : posture m rest = .meeting leads .third none) :
    posture m (frame :: rest) = posture m rest := by
  have busy {stack : List Frame} (quiet : Quiet m stack) :
      posture m stack ≠ .meeting leads .third none := by
    simp [quiet.outside]
  have inner := sound.1
  cases frame with
  | arrival a =>
    by_cases bound : a.phaser = .registry (.manager m)
    · obtain ⟨p, below, rfl, -, third⟩ := sound.below_arrival bound
      simp only [posture_cons, Frame.posture] at meets
      split at meets <;> exact absurd (Posture.meeting.inj meets).2.1 third
    · exact Frame.posture_arrival bound _
  | phases =>
    obtain ⟨q, rest, rfl, exit, -⟩ | ⟨q, rest, rfl, exit, -⟩ := sound.below_phases
    · have quiet : Quiet m rest := sound.tail.1.2.resolve_right (by simp [exit])
      simp [Frame.posture, exit, Polling.Point.isCalled, quiet.outside] at meets
    · simp [Frame.posture, exit, Pausing.Point.drives] at meets
  | pausing p =>
    have gate := inner.2.2.resolve_left fun quiet => busy quiet meets
    simp [Frame.posture, gate.1, Pausing.Point.drives]
  | polling p =>
    have check := inner.2.resolve_left fun quiet => busy quiet meets
    simp [Frame.posture, check.1, Polling.Point.isCalled]
  | entering e =>
    have gate := inner.2.1.resolve_left fun quiet => busy quiet meets
    simp [Frame.posture, gate.1, Entering.Point.owns]
  | acquisition a =>
    by_cases lock : a.lock = .pause m
    · obtain ⟨p, below, rfl, point⟩ | ⟨e, below, rfl, point, -⟩ := sound.below_acquisition lock
      · simp [Frame.posture, point, Pausing.Point.drives] at meets
      · simp [Frame.posture, point, Entering.Point.owns] at meets
    · exact Frame.posture_acquisition lock _
  | release lock point =>
    by_cases pause : lock = .pause m
    · simp only [Frame.Fits, pause, if_true] at inner
      exact absurd meets (busy inner)
    · exact Frame.posture_release pause _
  | enrolment e =>
    by_cases registry : e.registry = .manager m
    · obtain ⟨x, below, rfl, point⟩ := sound.below_enrolment registry
      simp [Frame.posture, point, Entering.Point.owns] at meets
    · exact Frame.posture_enrolment registry _
  | withdrawal x =>
    by_cases registry : x.registry = .manager m
    · obtain ⟨l, below, rfl, point⟩ := sound.below_withdrawal registry
      have quiet : Quiet m below := sound.tail.1.2.1.resolve_right (by simp [point])
      simp [Frame.posture, quiet.outside] at meets
    · exact Frame.posture_withdrawal registry _
  | _ => rfl

/-- A thread that runs the action is in the third phase, and has yet to arrive. -/
theorem acting (sound : Sound m self stack) (acts : Acts m stack) :
    ∃ leads, posture m stack = .meeting leads .third none := by
  obtain ⟨above, p, below, rfl, -, -, third⟩ := acts
  induction above with
  | nil =>
    simp only [List.nil_append, posture_cons, Frame.posture, third]
    split <;> exact ⟨_, rfl⟩
  | cons frame above ih =>
    obtain ⟨leads, meets⟩ := ih sound.tail
    exact ⟨leads, (sound.transparent meets).trans meets⟩

/-- User code that runs within a pausing call runs as the action of a pause, in a callback, or as a
deferred action. -/
theorem deferring {frame : Frame} (sound : Sound m self (frame :: rest))
    (user : frame.serves = false) (pausing : rest.any (·.isPausing) = true) :
    rest.any (·.isPhases) = true ∨ inCallback (frame :: rest) = true ∨
      (frame :: rest).any (·.isDrain) = true := by
  induction rest generalizing frame with
  | nil => simp at pausing
  | cons parent below ih =>
    have stands : parent.Awaits m frame below := sound.2.1
    have deeper (call : parent.isPausing = false) (user : parent.serves = false) :
        (parent :: below).any (·.isPhases) = true ∨ inCallback (frame :: parent :: below) = true ∨
          (frame :: parent :: below).any (·.isDrain) = true := by
      have within : below.any (·.isPausing) = true := by simpa [call] using pausing
      obtain phases | callback | drain := ih sound.tail user within
      · exact .inl (by simp [phases])
      · exact .inr (.inl (by rw [inCallback_cons, callback, Bool.or_true]))
      · exact .inr (.inr (by rw [List.any_cons, drain, Bool.or_true]))
    cases parent with
    | phases => exact .inl rfl
    | pausing | polling | acquisition | release | notify =>
      cases frame <;> first | exact stands.elim | simp [Frame.serves] at user
    | resuming =>
      cases frame with
      | drain => exact .inr (.inr rfl)
      | _ => first | exact stands.elim | simp [Frame.serves] at user
    | visit =>
      cases frame with
      | interruption => exact .inr (.inl rfl)
      | _ => exact stands.elim
    | _ => exact deeper rfl rfl

end Sound

end

end StopTheWorld
