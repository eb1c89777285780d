import StopTheWorld.Proofs.Keepsakes
import StopTheWorld.Proofs.Posture
import StopTheWorld.Proofs.Tenure

namespace StopTheWorld

/-! Who can give a lock back that is given back by dropping its guard. Whoever takes such a lock has the
key to it, a procedure or, in the end, user code; the key goes when the lock is given back. -/

/-- The number of keys that a frame has, on which the procedure above it has not run into a failure. -/
def Frame.keys (ref : LockRef) : Frame → Nat
  | keepGuard lock _ => if ref = .loose lock then 1 else 0
  | entering e => if ref = .pause e.manager ∧ e.point.owns = true then 1 else 0
  | pausing p => if ref = .pause p.manager ∧ p.point.drives = true then 1 else 0
  | release lock point => if ref = lock ∧ point = .clear then 1 else 0
  | _ => 0

/-- The step of the frame gives the lock back, and uses up its key. -/
def Frame.clears (ref : LockRef) : Frame → Bool
  | release lock point => lock = ref && point = .clear
  | _ => false

/-- The frame keeps the key of a lock that the procedure above it takes. -/
def Frame.isKeeper : Frame → Bool
  | keepGuard _ _ | entering _ | pausing _ => true
  | _ => false

def keysIn (ref : LockRef) : List Frame → Nat
  | [] => 0
  | frame :: rest => frame.keys ref + keysIn ref rest

/-- The number of keys that a thread with this stack has. Who waits for a lock is yet to get the key. -/
def keysOf (ref : LockRef) : List Frame → Nat
  | .acquisition a :: rest =>
    if a.lock = ref ∧ a.point ≠ .restore true then keysIn ref rest.tail else keysIn ref rest
  | stack => keysIn ref stack

/-- The number of keys that user code keeps. -/
def World.keysKept (w : World) : LockRef → Nat
  | .loose lock => w.guards.count lock
  | _ => 0

/-- The acquisition is of the lock whose key the frame below it keeps, and the thread's own; there is such
a frame unless the lock is given back by name. -/
inductive Acquisition.Sits (self : ThreadId) (a : Acquisition) : List Frame → Prop
  | guard {lock : LockId} {reply : Reply} {below : List Frame} (own : a.lock = .loose lock)
      (owner : a.owner = self) : Sits self a (.keepGuard lock reply :: below)
  | entering {e : Entering} {below : List Frame} (own : a.lock = .pause e.manager)
      (owner : a.owner = self) (point : e.point = .enrol) (patience : a.patience = .uninterruptible) :
      Sits self a (.entering e :: below)
  | pausing {p : Pausing} {below : List Frame} (own : a.lock = .pause p.manager)
      (owner : a.owner = self) (point : p.point = .open) : Sits self a (.pausing p :: below)
  | global {lock : GlobalId} {rest : List Frame} (own : a.lock = .global lock)
      (free : rest.head?.any (·.isKeeper) = false) : Sits self a rest

/-- The frame stands on one that is where it waits for it. -/
def Frame.Sits (self : ThreadId) (rest : List Frame) : Frame → Prop
  | acquisition a => a.Sits self rest
  | polling _ | resuming _ => ∀ p below, rest = .pausing p :: below → p.point = .lock
  | visit _ => ∀ p below, rest = .pausing p :: below → p.point = .leaveGlobal
  | script _ => ∀ p below, rest = .phases p :: below → p.point = .third
  | release lock _ => ∀ g, lock ≠ .global g
  | _ => True

def Seated (self : ThreadId) : List Frame → Prop
  | [] => True
  | frame :: rest => frame.Sits self rest ∧ Seated self rest

def Control.Sits (self : ThreadId) (rest : List Frame) : Control → Prop
  | goto frame => frame.Sits self rest
  | call child back => child.Sits self (back :: rest) ∧ back.Sits self rest
  | reply _ | unwind _ => True

def World.IsSeated (w : World) : Prop := ∀ thread, Seated thread (w.stack thread)

section

variable {ref : LockRef} {w v : World} {self : ThreadId} {frame parent : Frame} {rest below : List Frame}
  {effect : Effect} {notes : List Note}

theorem Acquisition.Sits.alike {a a' : Acquisition} (sits : a.Sits self rest) (own : a'.lock = a.lock)
    (owner : a'.owner = a.owner) (patience : a'.patience = a.patience) : a'.Sits self rest := by
  cases sits with
  | guard same mine => exact .guard (own.trans same) (owner.trans mine)
  | entering same mine point unbroken =>
    exact .entering (own.trans same) (owner.trans mine) point (patience.trans unbroken)
  | pausing same mine point => exact .pausing (own.trans same) (owner.trans mine) point
  | global same free => exact .global (own.trans same) free

/-- An operation begins on nothing, on a script or on a sequence. -/
theorem Frame.hosted_start {op : Op} (laid : Laid (.start op :: rest)) :
    rest.head?.any (·.isKeeper) = false ∧ ∀ p below, rest ≠ .pausing p :: below := by
  cases rest with
  | nil => simp
  | cons parent below =>
    cases parent <;> simp_all [Laid, Frame.isHosted, Frame.hosts, Frame.isKeeper]

theorem Op.sits_step {op : Op} (laid : Laid (.start op :: rest))
    (step : op.advance self w = some effect) : effect.control.Sits self rest := by
  obtain ⟨free, apart⟩ := Frame.hosted_start laid
  cases op with
  | access a =>
    obtain ⟨-, -, ⟨value, control⟩ | ⟨message, control⟩⟩ := Access.agrees (m := 0) step <;>
      rw [control] <;> trivial
  | release n =>
    obtain ⟨_, -, replies⟩ := Option.bind_eq_some_iff.mp step
    obtain rfl := Option.some.inj replies
    trivial
  | deferLookup | unlock =>
    simp only [advance] at step
    split at step <;> obtain rfl := Option.some.inj step <;> simp [Control.Sits, Frame.Sits]
  | lock | lockInterruptibly =>
    obtain rfl := Option.some.inj step
    exact ⟨.guard rfl rfl, trivial⟩
  | globalEnter =>
    obtain rfl := Option.some.inj step
    exact ⟨.global rfl rfl, trivial⟩
  | globalEnterInterruptibly =>
    obtain rfl := Option.some.inj step
    exact .global rfl free
  | _ =>
    obtain rfl := Option.some.inj step
    simp [Control.Sits, Frame.Sits, apart]

theorem Frame.sits_step (laid : Laid (frame :: rest)) (sits : frame.Sits self rest)
    (step : frame.advance self w = some effect) : effect.control.Sits self rest := by
  cases frame with
  | start op => exact Op.sits_step laid step
  | acquisition a =>
    cases Acquisition.goes step with
    | takes point _ _ _ done =>
      obtain ⟨-, rfl⟩ | ⟨-, rfl⟩ := done
      · trivial
      · exact Acquisition.Sits.alike sits rfl rfl rfl
    | restores => trivial
    | _ => exact Acquisition.Sits.alike sits rfl rfl rfl
  | _ =>
    simp only [advance, Release.advance,
      OwnedLock.advanceNotify, Arrival.advance, Sleeping.advance, Parking.advance,
      Interruption.advance, Enrolment.advance, Withdrawal.advance, Visit.advance, Script.advance,
      Sequence.advance, Drain.advance, Phases.advance, Resuming.advance, Polling.advance,
      Entering.advance, Leaving.advance, Pausing.advance, Foreign.advance, Acquiring.advance,
      Blocking.advance, Trial.advance] at step
    repeat' split at step
    all_goals first
      | (obtain rfl := Option.some.inj step
         first
           | trivial
           | exact sits
           | exact ⟨.global rfl rfl, trivial⟩
           | exact ⟨.global rfl rfl, sits⟩
           | exact ⟨.pausing rfl rfl rfl, trivial⟩
           | exact ⟨.entering rfl rfl rfl rfl, trivial⟩
           | simp [Control.Sits, Sits])
      | (obtain ⟨_, -, goes⟩ := Option.bind_eq_some_iff.mp step
         obtain rfl := Option.some.inj goes
         trivial)
      | simp at step

theorem Frame.sits_resume (sits : parent.Sits self below) (value : Reply) :
    (parent.resume value).Sits self below := by
  unfold Frame.resume
  split <;> first
    | trivial
    | exact sits
    | (split <;> trivial)

theorem Frame.sits_catch {message : String} {handler : Frame} (sits : parent.Sits self below)
    (caught : parent.catch? message = some handler) : handler.Sits self below := by
  unfold Frame.catch? at caught
  repeat' split at caught
  all_goals first
    | (obtain rfl := Option.some.inj caught
       trivial)
    | simp at caught

namespace Seated

theorem unwind (seated : Seated self rest) (message : String) : Seated self (Frame.unwind message rest) := by
  induction rest with
  | nil => trivial
  | cons parent below ih =>
    unfold Frame.unwind
    split
    · exact ⟨Frame.sits_catch seated.1 ‹_›, seated.2⟩
    · exact ih seated.2

theorem step (seated : Seated self (frame :: rest)) (laid : Laid (frame :: rest))
    (step : frame.advance self w = some effect) : Seated self (effect.control.stack rest) := by
  have sits := Frame.sits_step laid seated.1 step
  cases control : effect.control with
  | goto frame' =>
    rw [control] at sits
    exact ⟨sits, seated.2⟩
  | call child back =>
    rw [control] at sits
    exact ⟨sits.1, sits.2, seated.2⟩
  | reply value =>
    cases rest with
    | nil => trivial
    | cons parent below => exact ⟨Frame.sits_resume seated.2.1 value, seated.2.2⟩
  | unwind message => exact seated.2.unwind message

end Seated

theorem World.IsSeated.move {move : Move} (seated : w.IsSeated) (laid : w.IsLaid)
    (moves : w.move move = some (v, notes)) : v.IsSeated := by
  intro thread
  by_cases own : move = .run thread
  · subst own
    obtain ⟨frame, rest, effect, stack, step, rfl, -⟩ := World.step_eq_some moves
    rw [World.stack_setStack, if_pos rfl]
    exact (stack ▸ seated thread : Seated thread (frame :: rest)).step (stack ▸ laid thread) step
  · obtain ⟨-, same | ⟨op, -, told⟩ | ⟨frame, frame', rest, before, after, rouses⟩⟩ :=
      World.move_other moves own
    · exact same ▸ seated thread
    · rw [told]
      exact ⟨trivial, trivial⟩
    · have seated : Seated thread (frame :: rest) := before ▸ seated thread
      rw [after]
      cases rouses <;> exact ⟨trivial, seated.2⟩

/-! What a step makes of the keys. -/

@[simp] theorem keysIn_nil : keysIn ref [] = 0 := rfl

@[simp] theorem keysIn_cons (frame : Frame) (rest : List Frame) :
    keysIn ref (frame :: rest) = frame.keys ref + keysIn ref rest := rfl

@[simp] theorem keysOf_acquisition (a : Acquisition) (rest : List Frame) :
    keysOf ref (.acquisition a :: rest) =
      if a.lock = ref ∧ a.point ≠ .restore true then keysIn ref rest.tail else keysIn ref rest := rfl

theorem keysOf_eq_keysIn (other : ∀ a, frame ≠ .acquisition a) :
    keysOf ref (frame :: rest) = keysIn ref (frame :: rest) := by
  cases frame with
  | acquisition a => exact absurd rfl (other a)
  | _ => rfl

/-- The keys in a call of a procedure that goes on as told; who is about to take the lock has none. -/
def Control.keys (ref : LockRef) : Control → Nat
  | goto frame => frame.keys ref
  | call (.acquisition a) back => if a.lock = ref then 0 else back.keys ref
  | call child back => child.keys ref + back.keys ref
  | reply _ | unwind _ => 0

theorem World.keysKept_eq (same : v.guards = w.guards) : v.keysKept ref = w.keysKept ref := by
  cases ref <;> simp [keysKept, same]

/-- A step that is not of taking the lock gives the keys on, apart from the one that is used up. -/
theorem Op.keys_of_step {op : Op} (isLocal : ∀ g, ref ≠ .global g)
    (step : op.advance self w = some effect) :
    effect.control.keys ref + effect.world.keysKept ref = w.keysKept ref := by
  have apart (g : GlobalId) : (LockRef.global g = ref) = False := eq_false fun same => isLocal g same.symm
  have kept (apart : (Frame.start op).keepsGuards = false) :
      effect.world.keysKept ref = w.keysKept ref :=
    World.keysKept_eq (congrArg Prod.fst (Op.keeps_kept step apart))
  cases op with
  | access a =>
    have same : effect.world.keysKept ref = w.keysKept ref := by
      cases a with
      | unblock tag =>
        simp only [advance, Access.advance] at step
        split at step <;> obtain rfl := Option.some.inj step <;> exact World.keysKept_eq rfl
      | _ => exact kept rfl
    obtain ⟨-, -, ⟨value, control⟩ | ⟨message, control⟩⟩ := Access.agrees (m := 0) step <;>
      simp [control, same, Control.keys]
  | release n =>
    rw [kept rfl]
    obtain ⟨_, -, replies⟩ := Option.bind_eq_some_iff.mp step
    obtain rfl := Option.some.inj replies
    simp [Control.keys]
  | deferLookup =>
    rw [kept rfl]
    simp only [advance] at step
    split at step <;> obtain rfl := Option.some.inj step <;> simp [Control.keys]
  | unlock l =>
    simp only [advance] at step
    split at step <;> rename_i found <;> obtain rfl := Option.some.inj step
    · have mem : l ∈ w.guards := by simpa using found
      cases ref with
      | loose lock =>
        by_cases same : lock = l
        · subst same
          have some := List.count_pos_iff.mpr mem
          simp only [Control.keys, Frame.keys, World.keysKept, List.count_erase_self]
          simp only [and_self, if_true]
          omega
        · simp [Control.keys, Frame.keys, World.keysKept, same, List.count_erase_of_ne same]
      | _ => simp [Control.keys, Frame.keys, World.keysKept]
    · simp [Control.keys]
  | lock l | lockInterruptibly l =>
    rw [kept rfl]
    obtain rfl := Option.some.inj step
    by_cases own : ref = .loose l
    · simp [Control.keys, Acquisition.begin, own]
    · simp [Control.keys, Frame.keys, own]
  | blockOn =>
    obtain rfl := Option.some.inj step
    exact (Nat.zero_add _).trans (World.keysKept_eq rfl)
  | _ =>
    rw [kept rfl]
    obtain rfl := Option.some.inj step
    simp [Control.keys, Frame.keys, Acquisition.begin, apart, Pausing.Point.drives,
      Entering.Point.owns]

theorem Frame.keys_of_step (isLocal : ∀ g, ref ≠ .global g)
    (other : ∀ a, frame ≠ .acquisition a) (step : frame.advance self w = some effect) :
    effect.control.keys ref + effect.world.keysKept ref + (if frame.clears ref then 1 else 0) =
      frame.keys ref + w.keysKept ref := by
  have apart (g : GlobalId) : (LockRef.global g = ref) = False := eq_false fun same => isLocal g same.symm
  have kept (apart : frame.keepsGuards = false) : effect.world.keysKept ref = w.keysKept ref :=
    World.keysKept_eq (congrArg Prod.fst (Frame.keeps_kept step apart))
  cases frame with
  | acquisition a => exact absurd rfl (other a)
  | start op => simpa [clears, keys] using Op.keys_of_step isLocal step
  | keepGuard lock reply =>
    obtain rfl := Option.some.inj step
    cases ref with
    | loose l =>
      by_cases same : l = lock
      · subst same
        simp only [Control.keys, keys, World.keysKept, clears, List.count_append, List.count_singleton_self]
        simp [Nat.add_comm]
      · have other : lock ≠ l := Ne.symm same
        simp [Control.keys, keys, World.keysKept, clears, same, other, List.count_append]
    | _ => simp [Control.keys, keys, World.keysKept, clears]
  | release lock point =>
    rw [kept rfl]
    cases point <;> simp only [advance, Release.advance] at step
    · split at step
      · obtain rfl := Option.some.inj step
        by_cases own : ref = lock
        · simp [Control.keys, keys, clears, own, Nat.add_comm]
        · simp [Control.keys, keys, clears, own, Ne.symm own]
      · simp at step
    · obtain rfl := Option.some.inj step
      simp [Control.keys, keys, clears]
  | entering e | pausing e =>
    rw [kept rfl]
    simp only [advance, Entering.advance, Pausing.advance] at step
    by_cases own : ref = .pause e.manager
    all_goals
      repeat' split at step
      all_goals first
        | (obtain rfl := Option.some.inj step
           simp [Control.keys, keys, clears, Acquisition.begin, *, Pausing.Point.drives,
             Entering.Point.owns])
        | (obtain ⟨_, -, goes⟩ := Option.bind_eq_some_iff.mp step
           obtain rfl := Option.some.inj goes
           simp [Control.keys, keys, clears, *, Pausing.Point.drives])
  | _ =>
    rw [kept rfl]
    simp only [advance, OwnedLock.advanceNotify, Arrival.advance, Sleeping.advance, Parking.advance,
      Interruption.advance, Enrolment.advance, Withdrawal.advance, Visit.advance, Script.advance,
      Sequence.advance, Drain.advance, Phases.advance, Resuming.advance, Polling.advance,
      Leaving.advance, Foreign.advance, Acquiring.advance, Blocking.advance, Trial.advance] at step
    repeat' split at step
    all_goals first
      | (obtain rfl := Option.some.inj step
         simp [Control.keys, keys, clears, Acquisition.begin, apart, Pausing.Point.drives,
           Entering.Point.owns])
      | (obtain ⟨_, -, goes⟩ := Option.bind_eq_some_iff.mp step
         obtain rfl := Option.some.inj goes
         simp [Control.keys, keys, clears])
      | simp at step

/-- What a driver with a key waits for does not fail. -/
theorem Frame.keys_resume {value : Reply} (sits : frame.Sits self (parent :: below))
    (laid : Laid (frame :: parent :: below)) (other : ∀ a, frame ≠ .acquisition a)
    (step : frame.advance self w = some effect) (replies : effect.control = .reply value) :
    (parent.resume value).keys ref = parent.keys ref := by
  have hosted : parent.hosts frame = true := laid.1
  cases parent with
  | keepGuard lock reply => cases frame <;> simp_all [hosts]
  | pausing p =>
    cases value with
    | failed failure =>
      have waits : p.point = .lock := by
        cases frame with
        | polling | resuming => exact sits p below rfl
        | acquisition a => exact absurd rfl (other a)
        | phases q =>
          simp only [advance, Phases.advance] at step
          repeat' split at step
          all_goals
            obtain rfl := Option.some.inj step
            cases outcome : q.outcome <;> simp [outcome] at replies
        | notify | visit | release =>
          simp only [advance, OwnedLock.advanceNotify, Visit.advance, Release.advance] at step
          repeat' split at step
          all_goals first
            | (obtain rfl := Option.some.inj step
               simp at replies)
            | simp at step
        | _ => simp [hosts] at hosted
      simp [resume, keys, waits, Pausing.Point.drives]
    | _ => rfl
  | foreign f =>
    unfold resume
    dsimp only
    split <;> rfl
  | _ => cases value <;> rfl

/-- Whoever catches an unwinding has the keys that it had. -/
theorem Frame.keys_catch {message : String} {handler : Frame}
    (caught : parent.catch? message = some handler) : handler.keys ref = parent.keys ref := by
  cases parent with
  | pausing p =>
    simp only [catch?] at caught
    split at caught
    · rename_i meets
      obtain rfl := Option.some.inj caught
      simp [keys, meets, Pausing.Point.drives]
    · simp at caught
  | _ =>
    simp only [catch?] at caught
    repeat' split at caught
    all_goals first
      | (obtain rfl := Option.some.inj caught
         rfl)
      | simp at caught

/-- An unwinding takes no key along. -/
theorem Seated.keys_unwind (seated : Seated self (frame :: rest)) (laid : Laid (frame :: rest))
    (slow : frame.isFast = false) (message : String) :
    keysIn ref (Frame.unwind message rest) = keysIn ref rest := by
  induction rest generalizing frame with
  | nil => rfl
  | cons parent below ih =>
    have hosted : parent.hosts frame = true := laid.1
    cases catches : parent.catch? message with
    | some handler => simp only [Frame.unwind, catches, keysIn_cons, Frame.keys_catch catches]
    | none =>
      suffices free : parent.keys ref = 0 ∧ parent.isFast = false by
        simp only [Frame.unwind, catches]
        rw [ih seated.2 laid.2 free.2, keysIn_cons, free.1, Nat.zero_add]
      cases parent with
      | release | keepGuard | entering => cases frame <;> simp_all [Frame.hosts, Frame.isFast]
      | phases p =>
        cases frame with
        | script s => simp [Frame.catch?, seated.1 p below rfl] at catches
        | _ => simp_all [Frame.hosts, Frame.isFast]
      | pausing p =>
        cases frame with
        | polling | resuming =>
          exact ⟨by simp [Frame.keys, seated.1 p below rfl, Pausing.Point.drives], rfl⟩
        | visit => simp [Frame.catch?, seated.1 p below rfl] at catches
        | _ => simp_all [Frame.hosts, Frame.isFast]
      | acquisition | notify | arrival | enrolment => simp [Frame.hosts] at hosted
      | _ => exact ⟨rfl, rfl⟩

theorem Frame.slow_of_unwind {message : String} (step : frame.advance self w = some effect)
    (unwinds : effect.control = .unwind message) : frame.isFast = false := by
  cases frame with
  | acquisition a =>
    cases Acquisition.goes step with
    | takes _ _ _ _ done =>
      obtain ⟨-, rfl⟩ | ⟨-, rfl⟩ := done <;> simp at unwinds
    | _ => simp at unwinds
  | release | notify | arrival | enrolment | phases | entering =>
    simp only [advance, Release.advance, OwnedLock.advanceNotify, Arrival.advance,
      Enrolment.advance, Phases.advance, Entering.advance] at step
    repeat' split at step
    all_goals first
      | (obtain rfl := Option.some.inj step
         simp at unwinds)
      | simp at step
  | _ => rfl

/-- An acquisition that goes on in the place of something else is of a lock that has no keys. -/
theorem Frame.global_of_goto {a' : Acquisition} (other : ∀ a, frame ≠ .acquisition a)
    (step : frame.advance self w = some effect) (goes : effect.control = .goto (.acquisition a')) :
    ∃ g, a'.lock = .global g := by
  cases frame with
  | acquisition a => exact absurd rfl (other a)
  | start op =>
    cases op with
    | globalEnterInterruptibly =>
      obtain rfl := Option.some.inj step
      obtain rfl := Frame.acquisition.inj (Control.goto.inj goes)
      exact ⟨_, rfl⟩
    | access a =>
      obtain ⟨-, -, ⟨value, control⟩ | ⟨message, control⟩⟩ := Access.agrees (m := 0) step <;>
        simp [control] at goes
    | release n =>
      obtain ⟨v, notes, leaves, rfl⟩ := World.leaves_of_bind step
      simp at goes
    | deferLookup | unlock =>
      simp only [advance, Op.advance] at step
      split at step <;> obtain rfl := Option.some.inj step <;> simp at goes
    | _ =>
      obtain rfl := Option.some.inj step
      simp at goes
  | _ =>
    simp only [advance, Release.advance, OwnedLock.advanceNotify, Arrival.advance, Sleeping.advance,
      Parking.advance, Interruption.advance, Enrolment.advance, Withdrawal.advance, Visit.advance,
      Script.advance, Sequence.advance, Drain.advance, Phases.advance, Resuming.advance,
      Polling.advance, Entering.advance, Leaving.advance, Pausing.advance, Foreign.advance,
      Acquiring.advance, Blocking.advance, Trial.advance] at step
    repeat' split at step
    all_goals first
      | (obtain rfl := Option.some.inj step
         simp at goes)
      | (obtain ⟨v, notes, leaves, rfl⟩ := World.leaves_of_bind step
         simp at goes)
      | simp at step

theorem Frame.resume_ne_acquisition (hosted : parent.hosts frame = true) (value : Reply)
    (a : Acquisition) : parent.resume value ≠ .acquisition a := by
  intro same
  unfold resume at same
  repeat' split at same
  all_goals first
    | simp at same
    | (subst same
       simp [hosts] at hosted)

theorem Frame.catch_ne_acquisition {message : String} {handler : Frame}
    (caught : parent.catch? message = some handler) (a : Acquisition) : handler ≠ .acquisition a := by
  unfold catch? at caught
  repeat' split at caught
  all_goals first
    | (obtain rfl := Option.some.inj caught
       simp)
    | simp at caught

theorem keysOf_unwind (message : String) :
    keysOf ref (Frame.unwind message rest) = keysIn ref (Frame.unwind message rest) := by
  induction rest with
  | nil => rfl
  | cons parent below ih =>
    unfold Frame.unwind
    split
    · exact keysOf_eq_keysIn (Frame.catch_ne_acquisition ‹_›)
    · exact ih

/-- The stack that a call leaves has the keys that the call tells, and those below. -/
theorem Control.keysOf_stack (isLocal : ∀ g, ref ≠ .global g) (seated : Seated self (frame :: rest))
    (laid : Laid (frame :: rest)) (other : ∀ a, frame ≠ .acquisition a)
    (step : frame.advance self w = some effect) :
    keysOf ref (effect.control.stack rest) = effect.control.keys ref + keysIn ref rest := by
  cases control : effect.control with
  | goto frame' =>
    cases frame' with
    | acquisition a =>
      obtain ⟨g, named⟩ := Frame.global_of_goto other step control
      have apart : a.lock ≠ ref := fun same => isLocal g (same.symm.trans named)
      simp [stack, apart, keys, Frame.keys]
    | _ => exact keysIn_cons ..
  | call child back =>
    cases child with
    | acquisition a =>
      by_cases own : a.lock = ref
      · have fresh : a.point ≠ .restore true := by
          obtain ⟨lock, owner, patience, rfl⟩ | ⟨a, same, -⟩ :=
            Frame.acquisition_of_step step (by rw [control]; rfl)
          · cases patience <;> simp [Acquisition.begin]
          · exact absurd same (other a)
        simp [stack, own, fresh, keys]
      · simp [stack, own, keys]
    | _ => simp [stack, keysOf, keys, Nat.add_assoc]
  | reply value =>
    cases rest with
    | nil => rfl
    | cons parent below =>
      rw [stack, keysOf_eq_keysIn (Frame.resume_ne_acquisition laid.1 value), keysIn_cons,
        keysIn_cons, Frame.keys_resume seated.1 laid other step control, keys, Nat.zero_add]
  | unwind message =>
    rw [stack, keysOf_unwind, seated.keys_unwind laid (Frame.slow_of_unwind step control), keys,
      Nat.zero_add]

/-- The acquisition is about to take the lock. -/
def Frame.takes (ref : LockRef) (w : World) : Frame → Bool
  | acquisition a => a.lock = ref && a.point = .test && decide (w.lock ref).IsFree
  | _ => false

/-- The frame below the taking of a lock keeps its key, and lets go of it on a failure. -/
theorem Acquisition.Sits.keeper {a : Acquisition} (isLocal : ∀ g, ref ≠ .global g)
    (sits : a.Sits self rest) (own : a.lock = ref) : ∃ parent below, rest = parent :: below ∧
      parent.keys ref = 1 ∧ (parent.resume (.succeeded .nothing)).keys ref = 1 ∧
        (a.patience ≠ .uninterruptible →
          ∀ failure, (parent.resume (.failed failure)).keys ref = 0) := by
  subst own
  cases sits with
  | guard own => exact ⟨_, _, rfl, by simp [Frame.keys, own], by simp [Frame.resume, Frame.keys, own],
      fun _ _ => rfl⟩
  | entering own _ point patience =>
    refine ⟨_, _, rfl, ?_, ?_, fun patient => absurd patience patient⟩ <;>
      simp [Frame.resume, Frame.keys, own, point, Entering.Point.owns]
  | pausing own _ point =>
    refine ⟨_, _, rfl, ?_, ?_, fun _ _ => ?_⟩ <;>
      simp [Frame.resume, Frame.keys, own, point, Pausing.Point.drives]
  | global own => exact absurd own (isLocal _)

/-- Taking another lock has nothing to do with it. -/
theorem Acquisition.Sits.keys_resume {a : Acquisition} (sits : a.Sits self (parent :: below))
    (apart : a.lock ≠ ref) (value : Reply) : (parent.resume value).keys ref = parent.keys ref := by
  cases sits with
  | guard own =>
    rw [own] at apart
    cases value <;> simp [Frame.resume, Frame.keys, Ne.symm apart]
  | entering => cases value <;> rfl
  | pausing own =>
    rw [own] at apart
    cases value <;> simp [Frame.resume, Frame.keys, Ne.symm apart]
  | global own free =>
    cases parent with
    | keepGuard | entering | pausing => simp [Frame.isKeeper] at free
    | foreign f =>
      unfold Frame.resume
      dsimp only
      split <;> rfl
    | _ => cases value <;> rfl

/-- Whoever takes the lock gets its key; nobody else who waits for it does. -/
theorem Acquisition.Goes.keysOf_stack {a : Acquisition} (isLocal : ∀ g, ref ≠ .global g)
    (sits : a.Sits self rest) (laid : Laid (.acquisition a :: rest)) (goes : a.Goes self w effect) :
    keysOf ref (effect.control.stack rest) =
      keysOf ref (.acquisition a :: rest) +
        (if (Frame.acquisition a).takes ref w then 1 else 0) := by
  by_cases own : a.lock = ref
  · obtain ⟨parent, below, rfl, has, succeeds, fails⟩ := sits.keeper isLocal own
    have replied (value : Reply) : keysOf ref (parent.resume value :: below) =
        (parent.resume value).keys ref + keysIn ref below := by
      rw [keysOf_eq_keysIn (Frame.resume_ne_acquisition laid.1 value), keysIn_cons]
    cases goes with
    | takes point _ _ free done =>
      subst own
      obtain ⟨-, rfl⟩ | ⟨-, rfl⟩ := done
      · simp [Control.stack, replied, succeeds, Frame.takes, point, free, Nat.add_comm]
      · simp [Control.stack, Frame.takes, point, free, has, Nat.add_comm]
    | @restores _ _ acquired patience point =>
      cases acquired with
      | true => simp [Control.stack, replied, succeeds, Frame.takes, point, has]
      | false =>
        simp [Control.stack, replied, fails (by simp [patience]), Frame.takes, point, own]
    | enters _ point _ _ owned | sleeps _ point _ _ owned =>
      subst own
      simp [Control.stack, Frame.takes, point, owned]
    | installs _ point | obeys _ point | looks _ point | yields _ point | stays _ point
    | awaits _ point => simp [Control.stack, Frame.takes, point, own]
  · have takes : (Frame.acquisition a).takes ref w = false := by simp [Frame.takes, own]
    have replied (value : Reply) :
        keysOf ref ((Control.reply value).stack rest) = keysIn ref rest := by
      cases rest with
      | nil => rfl
      | cons parent below =>
        rw [Control.stack, keysOf_eq_keysIn (Frame.resume_ne_acquisition laid.1 value), keysIn_cons,
          keysIn_cons, sits.keys_resume own]
    rw [takes]
    cases goes with
    | takes _ _ _ _ done =>
      obtain ⟨-, rfl⟩ | ⟨-, rfl⟩ := done
      · simp [replied, own]
      · simp [Control.stack, own]
    | restores => simp [replied, own]
    | _ => simp [Control.stack, own]

/-- A step gives the keys on: one more if it takes the lock, one less if it gives it back. -/
theorem Seated.keysOf_of_step (isLocal : ∀ g, ref ≠ .global g) (seated : Seated self (frame :: rest))
    (laid : Laid (frame :: rest)) (step : frame.advance self w = some effect) :
    keysOf ref (effect.control.stack rest) + effect.world.keysKept ref +
        (if frame.clears ref then 1 else 0) =
      keysOf ref (frame :: rest) + w.keysKept ref + (if frame.takes ref w then 1 else 0) := by
  by_cases acquires : ∃ a, frame = .acquisition a
  · obtain ⟨a, rfl⟩ := acquires
    have kept : effect.world.keysKept ref = w.keysKept ref :=
      World.keysKept_eq (congrArg Prod.fst (Frame.keeps_kept step rfl))
    have keys := (Acquisition.goes step).keysOf_stack isLocal seated.1 laid
    rw [kept, keys]
    simp only [Frame.clears, Bool.false_eq_true, if_false]
    omega
  · have other (a : Acquisition) : frame ≠ .acquisition a := fun same => acquires ⟨a, same⟩
    have takes : frame.takes ref w = false := by
      cases frame with
      | acquisition a => exact absurd rfl (other a)
      | _ => rfl
    have keys := Frame.keys_of_step isLocal other step
    rw [Control.keysOf_stack isLocal seated laid other step, keysOf_eq_keysIn other, keysIn_cons, takes]
    simp only [Bool.false_eq_true, if_false]
    omega

end

end StopTheWorld
