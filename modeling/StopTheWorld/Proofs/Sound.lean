import StopTheWorld.Machine.Step
import StopTheWorld.Proofs.Lawful

namespace StopTheWorld

/-! Which frames can stand on which. What a procedure of the manager does when the frame above it
is done depends on that frame being the one that it waits for. -/

/-- The thread has no part in any pause, and is not in a callback. -/
structure Quiet (m : ManagerId) (stack : List Frame) : Prop where
  outside : posture m stack = .outside
  unmarked : isMarked stack = false
  free : inCallback stack = false

/-- The thread runs a pause action, and is not in a callback. -/
structure Acting (m : ManagerId) (stack : List Frame) : Prop where
  meeting : ∃ leads, posture m stack = .meeting leads .third none
  marked : isMarked stack = true
  free : inCallback stack = false

/-- User code that may call the manager can run on this stack. -/
def Open (m : ManagerId) (stack : List Frame) : Prop := Quiet m stack ∨ Acting m stack

/-- User code can run on this stack. -/
def Ground (m : ManagerId) (stack : List Frame) : Prop :=
  Open m stack ∨ inCallback stack = true

section Transparent

/-! A frame that changes neither the posture nor the mark. -/

variable {m : ManagerId} {frame : Frame} {rest : List Frame}

theorem Quiet.cons (quiet : Quiet m rest)
    (posture : frame.posture m (posture m rest) = posture m rest) (marks : frame.marks = false)
    (free : frame.isInterruption = false) : Quiet m (frame :: rest) :=
  ⟨posture.trans quiet.outside, by simp [marks, quiet.unmarked], by simp [free, quiet.free]⟩

theorem Acting.cons (acting : Acting m rest)
    (posture : frame.posture m (posture m rest) = posture m rest) (marks : frame.marks = false)
    (free : frame.isInterruption = false) : Acting m (frame :: rest) :=
  ⟨acting.meeting.imp fun _ => posture.trans, by simp [marks, acting.marked],
    by simp [free, acting.free]⟩

theorem Open.cons (calls : Open m rest)
    (posture : frame.posture m (posture m rest) = posture m rest) (marks : frame.marks = false)
    (free : frame.isInterruption = false) : Open m (frame :: rest) :=
  calls.imp (·.cons posture marks free) (·.cons posture marks free)

theorem Ground.cons (ground : Ground m rest)
    (posture : frame.posture m (posture m rest) = posture m rest) (marks : frame.marks = false)
    (free : frame.isInterruption = false) : Ground m (frame :: rest) :=
  ground.imp (·.cons posture marks free) fun inside => by simp [inside]

theorem Open.of_cons (calls : Open m (frame :: rest))
    (posture : frame.posture m (posture m rest) = posture m rest) (marks : frame.marks = false) :
    Open m rest := by
  rcases calls with ⟨outside, unmarked, free⟩ | ⟨meeting, marked, free⟩
  · simp only [posture_cons, isMarked_cons, inCallback_cons, posture, marks, Bool.false_or,
      Bool.or_eq_false_iff] at outside unmarked free
    exact .inl ⟨outside, unmarked, free.2⟩
  · simp only [posture_cons, isMarked_cons, inCallback_cons, posture, marks, Bool.false_or,
      Bool.or_eq_false_iff] at meeting marked free
    exact .inr ⟨meeting, marked, free.2⟩

end Transparent

namespace Frame

/-- Only a procedure of the manager puts such a frame on the stack. -/
def isBound (m : ManagerId) : Frame → Bool
  | acquisition a => a.lock = .pause m
  | arrival a => a.phaser = .registry (.manager m)
  | enrolment e => e.registry = .manager m
  | withdrawal x => x.registry = .manager m
  | visit v => v.registry = .manager m
  | phases _ => true
  | _ => false

/-- What holds of a frame, given the stack below it. -/
def Fits (m : ManagerId) (self : ThreadId) (rest : List Frame) : Frame → Prop
  | acquisition a => if a.lock = .pause m then a.owner = self else Ground m rest
  | release lock _ => if lock = .pause m then Quiet m rest else Ground m rest
  | notify _ | arrival _ | interruption _ => True
  | enrolment e =>
    if e.registry = .manager m then
      e.entry.identity = self ∧ (e.point = .insert → bonds rest = [])
    else Ground m rest
  | withdrawal x =>
    if x.registry = .manager m then x.identity = self ∧ bonds rest = [] else Ground m rest
  | visit v =>
    (∀ identity message, v.point ≠ .abandon identity message) ∧
      (v.registry = .manager m ∨ Ground m rest)
  | phases p => p.manager = m ∧ (p.point = .republish → p.drives = true)
  | resuming r => r.manager = m ∧ Quiet m rest
  | polling p => p.manager = m ∧ (Quiet m rest ∨ p.point = .check ∧ Acting m rest)
  | entering e =>
    e.manager = m ∧ (Quiet m rest ∨ e.point = .gate ∧ Acting m rest) ∧
      (e.added = true → bonds rest = [])
  | leaving l =>
    l.manager = m ∧ (Quiet m rest ∨ l.point = .gate ∧ Acting m rest) ∧
      (isMarked rest = false → bonds rest = [])
  | pausing p =>
    p.manager = m ∧ p.point ≠ .abandon ∧ (Quiet m rest ∨ p.point = .gate ∧ Acting m rest)
  | foreign f =>
    f.manager = m ∧ Open m rest ∧ (f.added = true → bonds rest = []) ∧
      (f.point = .abandon → f.added = true)
  | acquiring a => a.manager = m ∧ Open m rest
  | blocking b => b.manager = m ∧ Open m rest
  | _ => Ground m rest

/-- The waiting frame can have this child above it, and this stack below. -/
def Awaits (m : ManagerId) (parent child : Frame) (below : List Frame) : Prop :=
  match parent with
  | polling p =>
    match child with
    | phases q => p.point = .exitPhases ∧ q.drives = false ∧ q.record = p.record
    | _ => False
  | pausing p =>
    match child with
    | polling _ | resuming _ => p.point = .lock
    | acquisition a => p.point = .open ∧ a.lock = .pause m
    | notify _ => p.point = .interrupt ∨ p.point = .leaveGlobal
    | visit _ => p.point = .leaveGlobal
    | phases q => p.point = .exitPhases ∧ q.drives = true ∧ q.record = p.record
    | release lock _ => p.point = .announceEnd ∧ lock = .pause m
    | _ => False
  | entering e =>
    match child with
    | acquisition a => e.point = .enrol ∧ a.lock = .pause m ∧ a.patience = .uninterruptible
    | enrolment x => e.point = .announce ∧ x.registry = .manager m
    | _ => False
  | leaving l =>
    match child with
    | polling _ | resuming _ => l.point = .withdraw
    | withdrawal x => l.point = .announce ∧ x.registry = .manager m
    | _ => False
  | resuming r =>
    match child with
    | acquisition a => r.point = .settle ∧ a.lock ≠ .pause m
    | drain _ => r.point = .drained
    | _ => False
  | phases p =>
    match child with
    | script _ => p.point = .third
    | arrival a => a.phaser = .registry (.manager m) ∧ p.point ≠ .first ∧ p.point ≠ .third
    | _ => False
  | visit v =>
    match child with
    | interruption _ => ∃ identity, v.point = .release identity
    | _ => False
  | foreign f =>
    match child with
    | entering _ => f.point = .pause
    | pausing _ => f.point = .leave
    | answer reply =>
      f.point = .leave ∨
        f.point = .pause ∧ (reply = .succeeded (.truth true) → bonds below = [])
    | _ => False
  | start _ | acquisition _ | release _ _ | notify _ | arrival _ | enrolment _ | withdrawal _
  | sleeping _ | parking _ => False
  | _ => child.isBound m = false

/-- The frame can stand on this stack. -/
def Awaited (m : ManagerId) (frame : Frame) : List Frame → Prop
  | [] => frame.isBound m = false
  | parent :: below => parent.Awaits m frame below

end Frame

/-- Every frame is where it belongs. -/
def Sound (m : ManagerId) (self : ThreadId) : List Frame → Prop
  | [] => True
  | frame :: rest => frame.Fits m self rest ∧ frame.Awaited m rest ∧ Sound m self rest

/-- No procedure of the manager waits for such a frame. -/
def Frame.isPlain : Frame → Bool
  | start _ | discard | word _ | rethrow _ | keepGuard _ _ | sequence _ | trial _ | foreign _
  | acquiring _ | blocking _ | sleeping _ | parking _ => true
  | _ => false

/-- The frame does not unwind of its own, and what unwinds above it is none of its business. -/
def Frame.isFirm : Frame → Bool
  | interruption _ | phases _ | arrival _ => true
  | _ => false

/-- A stack that stands for the same as another, as far as pauses go. -/
structure Follows (m : ManagerId) (thread : ThreadId) (before after : List Frame) : Prop where
  sound : Sound m thread after
  posture : posture m after = posture m before
  marks : isMarked after = isMarked before
  bonds : bonds after ⊆ bonds before

namespace Frame

variable {m : ManagerId} {self : ThreadId} {frame frame' parent : Frame} {rest : List Frame}

/-- Where a plain frame can stand, so can any other that is not bound. -/
theorem Awaited.exchange (awaited : frame.Awaited m rest) (plain : frame.isPlain = true)
    (bound : frame'.isBound m = false) : frame'.Awaited m rest := by
  cases rest with
  | nil => exact bound
  | cons parent below =>
    simp only [Awaited] at awaited ⊢
    cases parent <;> first
      | exact bound
      | exact awaited.elim
      | (cases frame <;> first | exact awaited.elim | simp [isPlain] at plain)

theorem Awaited.alike (awaited : frame.Awaited m rest)
    (alike : ∀ (parent : Frame) below, parent.Awaits m frame below → parent.Awaits m frame' below)
    (bound : frame'.isBound m = frame.isBound m) : frame'.Awaited m rest := by
  cases rest with
  | nil => exact bound.trans awaited
  | cons parent below => exact alike parent below awaited

end Frame

namespace Follows

variable {m : ManagerId} {self : ThreadId} {first second third : List Frame}

theorem refl (sound : Sound m self first) : Follows m self first first :=
  ⟨sound, rfl, rfl, List.Subset.refl _⟩

theorem trans (before : Follows m self first second) (after : Follows m self second third) :
    Follows m self first third :=
  ⟨after.sound, after.posture.trans before.posture, after.marks.trans before.marks,
    List.Subset.trans after.bonds before.bonds⟩

end Follows

namespace Sound

variable {m : ManagerId} {self : ThreadId} {frame parent : Frame} {rest below : List Frame}

theorem tail (sound : Sound m self (frame :: rest)) : Sound m self rest := sound.2.2

theorem reply (sound : Sound m self (parent :: below)) (value : Reply)
    (pausing : ∀ p, parent = .pausing p → ∀ failure, value ≠ .failed failure)
    (entering : ∀ e, parent = .entering e → value = .truth true → bonds below = [])
    (foreign : ∀ f, parent = .foreign f → f.point = .pause → value = .succeeded (.truth true) →
      bonds below = []) :
    Follows m self (parent :: below) (parent.resume value :: below) := by
  have same := Follows.refl sound
  obtain ⟨fits, stands, sound⟩ := sound
  cases parent with
  | discard | word | keepGuard | sequence | acquiring | blocking =>
    cases value <;> exact ⟨⟨fits, stands.exchange rfl rfl, sound⟩, rfl, rfl, List.Subset.refl _⟩
  | script s =>
    have noted (s' : Script) : Frame.Awaited m (.script s') below :=
      stands.alike (fun _ _ => id) rfl
    cases value <;> exact ⟨⟨fits, noted _, sound⟩, rfl, rfl, List.Subset.refl _⟩
  | phases p =>
    cases value with
    | unwound =>
      exact ⟨⟨fits, stands.alike (fun _ _ => id) rfl, sound⟩, rfl,
        rfl, List.Subset.refl _⟩
    | _ => exact same
  | polling p =>
    cases value with
    | unwound =>
      exact ⟨⟨fits, stands.alike (fun _ _ => id) rfl, sound⟩, rfl,
        rfl, List.Subset.refl _⟩
    | _ => exact same
  | resuming r =>
    cases value with
    | count =>
      exact ⟨⟨fits, stands.alike (fun _ _ => id) rfl, sound⟩, rfl,
        rfl, List.Subset.refl _⟩
    | _ => exact same
  | leaving l =>
    cases value with
    | registration =>
      exact ⟨⟨fits, stands.alike (fun _ _ => id) rfl, sound⟩, rfl,
        rfl, List.Subset.refl _⟩
    | _ => exact same
  | pausing p =>
    cases value with
    | failed failure => exact absurd rfl (pausing p rfl failure)
    | unwound =>
      exact ⟨⟨fits, stands.alike (fun _ _ => id) rfl, sound⟩, rfl,
        rfl, List.Subset.refl _⟩
    | _ => exact same
  | entering e =>
    cases value with
    | truth added =>
      refine ⟨⟨⟨fits.1, fits.2.1, ?_⟩, stands.alike (fun _ _ => id) rfl,
        sound⟩, rfl, rfl, List.Subset.refl _⟩
      intro same
      subst same
      exact entering e rfl rfl
    | _ => exact same
  | foreign f =>
    have noted : Frame.Awaited m (.foreign { f with reply := value }) below := stands.exchange rfl rfl
    unfold Frame.resume
    dsimp only
    split
    · exact ⟨⟨.inl fits.2.1, stands.exchange rfl rfl, sound⟩, rfl, rfl, List.Subset.refl _⟩
    · rename_i pause
      refine ⟨⟨⟨fits.1, fits.2.1, ?_, by simp [pause]⟩, stands.exchange rfl rfl, sound⟩, rfl, rfl,
        List.Subset.refl _⟩
      intro same
      subst same
      exact foreign f rfl pause rfl
    · exact ⟨⟨fits, noted, sound⟩, rfl, rfl, List.Subset.refl _⟩
  | _ => exact same

/-- Unwinding through user code comes to whoever catches it, or to the end. -/
theorem unwind {message : String} (sound : Sound m self rest) (calls : Open m rest)
    (awaited : frame.Awaited m rest) (loose : frame.isFirm = false) :
    Follows m self rest (Frame.unwind message rest) := by
  induction rest generalizing frame with
  | nil => exact .refl sound
  | cons parent below ih =>
    have transparent (same : parent.posture m (posture m below) = posture m below)
        (marks : parent.marks = false) (soft : parent.isFirm = false)
        (dropped : parent.catch? message = none) :
        Follows m self (parent :: below) (Frame.unwind message (parent :: below)) := by
      have called : Open m below := calls.of_cons same marks
      have popped : Follows m self (parent :: below) below :=
        ⟨sound.tail, same.symm, by simp [marks], by simp⟩
      have rest := ih sound.tail called sound.2.1 soft
      simp only [Frame.unwind, dropped]
      exact popped.trans rest
    have engaged (busy : posture m (parent :: below) ≠ .outside)
        (away : (posture m (parent :: below)).meets = false) : False := by
      rcases calls with ⟨outside, -, -⟩ | ⟨⟨leads, meeting⟩, -, -⟩
      · exact busy outside
      · simp [meeting, Posture.meets] at away
    cases parent with
    | interruption =>
      rcases calls with ⟨-, -, free⟩ | ⟨-, -, free⟩ <;> simp [Frame.isInterruption] at free
    | phases p =>
      have third : p.point = .third := by
        simp only [Frame.Awaited] at awaited
        cases frame <;> first
          | exact awaited
          | exact awaited.elim
          | simp [Frame.isFirm] at loose
      have caught : Frame.unwind message (.phases p :: below) =
          .phases { p with outcome := some message } :: below := by
        simp [Frame.unwind, Frame.catch?, third]
      rw [caught]
      exact ⟨⟨sound.1, sound.2.1.alike (fun _ _ => id) rfl, sound.2.2⟩,
        rfl, rfl, List.Subset.refl _⟩
    | visit v =>
      simp only [Frame.Awaited] at awaited
      cases frame <;> first
        | exact awaited.elim
        | simp [Frame.isFirm] at loose
    | pausing p =>
      cases drives : p.point.drives with
      | true =>
        exact (engaged (by simp [Frame.posture, drives])
          (by simp [Frame.posture, drives, Posture.meets])).elim
      | false =>
        refine transparent (by simp [Frame.posture, drives]) ?_ rfl ?_ <;>
          cases point : p.point <;> simp_all [Frame.marks, Frame.catch?, Pausing.Point.drives]
    | polling p =>
      have meeting : p.point = .exitPhases ∧ frame.isFirm = true := by
        simp only [Frame.Awaited] at awaited
        cases frame <;> first
          | exact awaited.elim
          | exact ⟨awaited.1, rfl⟩
      simp [loose] at meeting
    | entering e =>
      have owns : e.point.owns = true := by
        simp only [Frame.Awaited] at awaited
        cases frame <;> first
          | exact awaited.elim
          | simp [awaited.1, Entering.Point.owns]
      exact (engaged (by simp [Frame.posture, owns])
        (by simp [Frame.posture, owns, Posture.meets])).elim
    | foreign f =>
      by_cases leaves : f.point = .leave ∧ f.added
      · have caught : Frame.unwind message (.foreign f :: below) =
            .foreign { f with point := .abandon, message := message } :: below := by
          simp [Frame.unwind, Frame.catch?, leaves]
        rw [caught]
        obtain ⟨manager, calls, unbound, -⟩ := sound.1
        exact ⟨⟨⟨manager, calls, unbound, fun _ => leaves.2⟩, sound.2.1.exchange rfl rfl, sound.2.2⟩,
          rfl, rfl, List.Subset.refl _⟩
      · exact transparent rfl rfl rfl (by simp [Frame.catch?, leaves])
    | start | acquisition | release | notify | arrival | enrolment | withdrawal | sleeping | parking =>
      exact awaited.elim
    | _ => exact transparent rfl rfl rfl rfl

theorem delivered (sound : Sound m self rest) {value : Reply}
    (noted : ∀ {parent below}, rest = parent :: below →
      (∀ p, parent = .pausing p → ∀ failure, value ≠ .failed failure) ∧
      (∀ e, parent = .entering e → value = .truth true → bonds below = []) ∧
      (∀ f, parent = .foreign f → f.point = .pause → value = .succeeded (.truth true) →
        bonds below = [])) :
    Follows m self rest ((Control.reply value).stack rest) := by
  cases rest with
  | nil => exact .refl sound
  | cons parent below =>
    obtain ⟨pausing, entering, foreign⟩ := noted rfl
    exact sound.reply value pausing entering foreign

theorem replied (sound : Sound m self (frame :: rest))
    (posture : frame.posture m (posture m rest) = posture m rest) (marks : frame.marks = false)
    {value : Reply}
    (noted : ∀ {parent below}, rest = parent :: below → parent.Awaits m frame below →
      (∀ p, parent = .pausing p → ∀ failure, value ≠ .failed failure) ∧
      (∀ e, parent = .entering e → value = .truth true → bonds below = []) ∧
      (∀ f, parent = .foreign f → f.point = .pause → value = .succeeded (.truth true) →
        bonds below = [])) :
    Follows m self (frame :: rest) ((Control.reply value).stack rest) := by
  have popped : Follows m self (frame :: rest) rest :=
    ⟨sound.tail, posture.symm, by simp [marks], by simp⟩
  refine popped.trans (sound.tail.delivered fun {parent below} same => ?_)
  subst same
  exact noted rfl sound.2.1

/-- A frame that no procedure of the manager waits for may reply anything. -/
theorem replied_plain (sound : Sound m self (frame :: rest)) (plain : frame.isPlain = true)
    (value : Reply) : Follows m self (frame :: rest) ((Control.reply value).stack rest) := by
  refine sound.replied (by cases frame <;> first | rfl | simp [Frame.isPlain] at plain)
    (by cases frame <;> first | rfl | simp [Frame.isPlain] at plain) fun {parent below} _ awaited => ?_
  refine ⟨?_, ?_, ?_⟩ <;> rintro p rfl <;>
    cases frame <;> first | exact awaited.elim | simp [Frame.isPlain] at plain

theorem unwound (sound : Sound m self (frame :: rest)) (ground : Ground m rest)
    (free : inCallback rest = false)
    (posture : frame.posture m (posture m rest) = posture m rest) (marks : frame.marks = false)
    (loose : frame.isFirm = false) (message : String) :
    Follows m self (frame :: rest) ((Control.unwind message).stack rest) := by
  have popped : Follows m self (frame :: rest) rest :=
    ⟨sound.tail, posture.symm, by simp [marks], by simp⟩
  have calls : Open m rest := ground.resolve_right (by simp [free])
  exact popped.trans (sound.tail.unwind calls sound.2.1 loose)

section Parents

/-! What a bound frame stands on. -/

theorem below_acquisition {a : Acquisition} (sound : Sound m self (.acquisition a :: rest))
    (lock : a.lock = .pause m) :
    (∃ p below, rest = .pausing p :: below ∧ p.point = .open) ∨
      ∃ e below, rest = .entering e :: below ∧ e.point = .enrol ∧ a.patience = .uninterruptible := by
  have stands := sound.2.1
  cases rest with
  | nil => simp [Frame.Awaited, Frame.isBound, lock] at stands
  | cons parent below =>
    cases parent with
    | pausing p => exact .inl ⟨p, below, rfl, stands.1⟩
    | entering e => exact .inr ⟨e, below, rfl, stands.1, stands.2.2⟩
    | _ => simp [Frame.Awaited, Frame.Awaits, Frame.isBound, lock] at stands

theorem below_arrival {a : Arrival} (sound : Sound m self (.arrival a :: rest))
    (phaser : a.phaser = .registry (.manager m)) :
    ∃ p below, rest = .phases p :: below ∧ p.point ≠ .first ∧ p.point ≠ .third := by
  have stands := sound.2.1
  cases rest with
  | nil => simp [Frame.Awaited, Frame.isBound, phaser] at stands
  | cons parent below =>
    cases parent with
    | phases p => exact ⟨p, below, rfl, stands.2⟩
    | _ => simp [Frame.Awaited, Frame.Awaits, Frame.isBound, phaser] at stands

theorem below_enrolment {e : Enrolment} (sound : Sound m self (.enrolment e :: rest))
    (registry : e.registry = .manager m) :
    ∃ x below, rest = .entering x :: below ∧ x.point = .announce := by
  have stands := sound.2.1
  cases rest with
  | nil => simp [Frame.Awaited, Frame.isBound, registry] at stands
  | cons parent below =>
    cases parent with
    | entering x => exact ⟨x, below, rfl, stands.1⟩
    | _ => simp [Frame.Awaited, Frame.Awaits, Frame.isBound, registry] at stands

theorem below_withdrawal {x : Withdrawal} (sound : Sound m self (.withdrawal x :: rest))
    (registry : x.registry = .manager m) :
    ∃ l below, rest = .leaving l :: below ∧ l.point = .announce := by
  have stands := sound.2.1
  cases rest with
  | nil => simp [Frame.Awaited, Frame.isBound, registry] at stands
  | cons parent below =>
    cases parent with
    | leaving l => exact ⟨l, below, rfl, stands.1⟩
    | _ => simp [Frame.Awaited, Frame.Awaits, Frame.isBound, registry] at stands

theorem below_phases {p : Phases} (sound : Sound m self (.phases p :: rest)) :
    (∃ q below, rest = .polling q :: below ∧ q.point = .exitPhases ∧ p.drives = false ∧
        p.record = q.record) ∨
      ∃ q below, rest = .pausing q :: below ∧ q.point = .exitPhases ∧ p.drives = true ∧
        p.record = q.record := by
  have stands := sound.2.1
  cases rest with
  | nil => simp [Frame.Awaited, Frame.isBound] at stands
  | cons parent below =>
    cases parent with
    | polling q => exact .inl ⟨q, below, rfl, stands⟩
    | pausing q => exact .inr ⟨q, below, rfl, stands⟩
    | _ => simp [Frame.Awaited, Frame.Awaits, Frame.isBound] at stands

end Parents

/-- A thread in the phases of a pause is marked. -/
theorem marked (sound : Sound m self rest) (meets : rest.any (·.isPhases) = true) :
    isMarked rest = true := by
  induction rest with
  | nil => simp at meets
  | cons frame below ih =>
    by_cases deeper : below.any (·.isPhases) = true
    · simp [ih sound.tail deeper]
    · have here : frame.isPhases = true := by simpa [deeper] using meets
      obtain ⟨p, rfl⟩ : ∃ p, frame = .phases p := by cases frame <;> simp [Frame.isPhases] at here ⊢
      obtain ⟨q, below, rfl, exit, -⟩ | ⟨q, below, rfl, exit, -⟩ := sound.below_phases <;>
        simp [Frame.marks, exit]

/-- Outside the phases, only a wait for a pause of its own binds a thread to be registered. -/
theorem unbound (sound : Sound m self (frame :: rest)) (unmarked : isMarked rest = false)
    (pausing : rest.any (·.isPausing) = true → rest.any (·.isPhases) = true) : bonds rest = [] := by
  have resting : rest.any (·.isPausing) = false := by
    cases waits : rest.any (·.isPausing) with
    | false => rfl
    | true => simp [sound.tail.marked (pausing waits)] at unmarked
  clear pausing
  induction rest generalizing frame with
  | nil => rfl
  | cons parent below ih =>
    simp only [isMarked_cons, Bool.or_eq_false_iff, List.any_cons] at unmarked resting
    have stands := sound.2.1
    have none : parent.bond? = none := by
      cases parent with
      | pausing => simp [Frame.isPausing] at resting
      | polling p =>
        have exit : p.point = .exitPhases := by
          simp only [Frame.Awaited] at stands
          cases frame <;> first
            | exact stands.elim
            | exact stands.1
        simp [Frame.marks, exit] at unmarked
      | _ => rfl
    rw [bonds_cons, none, ih sound.tail unmarked.2 resting.2]
    rfl

end Sound

end StopTheWorld
