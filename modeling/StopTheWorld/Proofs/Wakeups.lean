import StopTheWorld.Proofs.Interrupts
import StopTheWorld.Proofs.Orderly
import StopTheWorld.Proofs.PauseCall

namespace StopTheWorld

/-! No wake-up is lost. Whoever goes to sleep looks first at what would keep it from sleeping, and
whoever brings that about wakes it up afterwards. -/

/-- The thread is in a waiting room, or on its way there, after a look that the check tells of: from
then on only somebody else can keep it from sleeping. -/
def World.Lies (w : World) (late : Acquisition → Bool) (thread : ThreadId) : Prop :=
  ∃ a rest, w.stack thread = .acquisition a :: rest ∧
    (late a = true ∨ a.point = .test ∧ thread ∈ (w.lock a.lock).waiting ∧
      late { a with point := .await } = true)

/-- Past the look at its own flag. -/
def Acquisition.isHeedless (target : ThreadId) (ref : LockRef) (a : Acquisition) : Bool :=
  a.lock = ref && a.patience.target? = some target && (a.point = .checkYield || a.point = .await)

/-- Past the look at its other reason to give up. -/
def Acquisition.isSettled (reason : Yield) (ref : LockRef) (a : Acquisition) : Bool :=
  a.lock = ref && a.point = .await &&
    match a.patience with
    | .uninterruptible => false
    | .interruptible _ yields => yields = reason

/-- Past the look at the flag, before a wait that only the thread's token ends. -/
def Frame.isDrowsy : Frame → Bool
  | sleeping s => s.point = .look || s.point = .doze
  | parking point => point = .parked
  | _ => false

/-- In the wait that only the thread's token ends, or the clock. -/
def Frame.awaitsToken : Frame → Bool
  | sleeping s => s.point = .doze
  | parking point => point = .parked
  | _ => false

/-- The thread waits for its token, which is not there. -/
def World.Rests (w : World) (thread : ThreadId) : Prop :=
  w.isAt Frame.isDrowsy thread = true ∧ (w.interrupter thread).token = false

/-- While it waits for a lock through its own interrupter, the thread has its waiting room woken. -/
def World.Listens (w : World) (thread : ThreadId) : Prop :=
  ∀ ⦃a rest⦄, w.stack thread = .acquisition a :: rest → a.patience.target? = some thread →
    a.point ≠ .install → (w.interrupter thread).callback = some (.notify a.lock)

/-- The thread waits, and nothing that would end its wait has come: it is in a waiting room through its
own interrupter, or has no token. -/
def World.IsLeft (w : World) (thread : ThreadId) : Prop :=
  (∃ a rest, w.stack thread = .acquisition a :: rest ∧ a.patience.target? = some thread ∧
    thread ∈ (w.lock a.lock).waiting) ∨
  w.isAt Frame.awaitsToken thread = true ∧ (w.interrupter thread).token = false

/-- The step leaves the callback of the target alone, or is the target's own. -/
def World.leavesCallback (target : ThreadId) (w : World) (self : ThreadId) : Bool :=
  self = target || !w.isAt (·.installs target self w) self

section

variable {target thread self : ThreadId} {ref : LockRef} {w v : World} {frame : Frame}
  {above rest : List Frame} {effect : Effect} {notes : List Note} {move : Move}
  {late : Acquisition → Bool}

/-- The check tells of interruptible waiters for a lock only, and of those in its critical section. -/
structure Acquisition.IsLate (late : Acquisition → Bool) (ref : LockRef) : Prop where
  lock : ∀ {a}, late a = true → a.lock = ref
  patience : ∀ {a}, late a = true → a.patience ≠ .uninterruptible
  point : ∀ {a}, late a = true → a.point = .checkYield ∨ a.point = .await

theorem Acquisition.isLate_isHeedless : IsLate (·.isHeedless target ref) ref := by
  constructor <;> intro a heedless <;>
    simp only [isHeedless, Bool.and_eq_true, Bool.or_eq_true, decide_eq_true_eq] at heedless
  · exact heedless.1.1
  · intro same
    simp [same, Patience.target?] at heedless
  · exact heedless.2

theorem Acquisition.isLate_isSettled {reason : Yield} : IsLate (·.isSettled reason ref) ref := by
  constructor <;> intro a settled <;>
    simp only [isSettled, Bool.and_eq_true, decide_eq_true_eq] at settled
  · exact settled.1.1
  · intro same
    simp [same] at settled
  · exact .inr settled.1.2

namespace World.Lies

/-- A thread lies down only after its own look. -/
theorem of_step (isLate : Acquisition.IsLate late ref) (rooms : w.Rooms)
    (stack : w.stack self = frame :: rest) (laid : Laid (frame :: rest))
    (step : frame.advance self w = some effect)
    (looks : ∀ {a a'}, frame = .acquisition a → effect.control = .goto (.acquisition a') →
      late a' = true → late a = true)
    (lies : (effect.world.setStack self (effect.control.stack rest)).Lies late self) :
    w.Lies late self := by
  obtain ⟨a', below, after, lies⟩ := lies
  rw [World.stack_setStack, if_pos rfl] at after
  rw [World.lock_setStack] at lies
  have top := effect.control.top_of_stack laid.1 after rfl
  have awake : self ∉ (w.lock a'.lock).waiting := rooms.awake stack step
  obtain ⟨lock, owner, patience, rfl⟩ | ⟨a, rfl, goes, told⟩ := Frame.acquisition_of_step step top
  · cases patience with
    | uninterruptible =>
      obtain passes | ⟨-, -, passes⟩ := lies
      · simpa [Acquisition.begin] using isLate.point passes
      · exact absurd rfl (isLate.patience passes)
    | interruptible =>
      obtain passes | ⟨point, -⟩ := lies
      · simpa [Acquisition.begin] using isLate.point passes
      · simp [Acquisition.begin] at point
  refine ⟨a, rest, stack, .inl ?_⟩
  obtain passes | ⟨point, waits, passes⟩ := lies
  · exact looks rfl told passes
  -- It has come into the waiting room by this step, for it would not have taken it there.
  cases goes with
  | awaits _ here =>
    obtain rfl := Frame.acquisition.inj (Control.goto.inj told)
    have same : { a with point := .await } = a := by
      rw [← here]
    exact same ▸ passes
  | sleeps patience =>
    obtain rfl := Frame.acquisition.inj (Control.goto.inj told)
    exact (isLate.patience passes patience).elim
  | installs =>
    rw [World.lock_modifyInterrupter] at waits
    exact absurd waits awake
  | takes _ _ _ _ done =>
    obtain ⟨-, rfl⟩ | ⟨-, rfl⟩ := done
    · simp at told
    · obtain rfl := Frame.acquisition.inj (Control.goto.inj told)
      simp at point
  | restores => simp at told
  | _ =>
    obtain rfl := Frame.acquisition.inj (Control.goto.inj told)
    simp at point

/-- Nobody is made to lie down by others. -/
theorem of_move (isLate : Acquisition.IsLate late ref) (rooms : w.Rooms) (laid : w.IsLaid)
    (moves : w.move move = some (v, notes))
    (looks : ∀ {a a' rest effect}, w.stack thread = .acquisition a :: rest →
      a.Goes thread w effect → effect.control = .goto (.acquisition a') → late a' = true →
        late a = true)
    (lies : v.Lies late thread) : w.Lies late thread := by
  by_cases own : move = .run thread
  · subst own
    obtain ⟨frame, rest, effect, stack, step, rfl, -⟩ := World.step_eq_some moves
    refine of_step isLate rooms stack (stack ▸ laid thread) step (fun top told passes => ?_) lies
    subst top
    exact looks stack (Acquisition.goes step) told passes
  · obtain ⟨a, rest, after, lies⟩ := lies
    have before : w.stack thread = .acquisition a :: rest := by
      obtain ⟨-, same | ⟨op, -, told⟩ | ⟨frame, frame', below, -, woken, rouses⟩⟩ :=
        World.move_other moves own
      · exact same ▸ after
      · simp [told] at after
      · rw [woken] at after
        obtain ⟨rfl, -⟩ := List.cons.inj after
        cases rouses
    refine ⟨a, rest, before, lies.imp_right fun ⟨point, waits, passes⟩ => ⟨point, ?_, passes⟩⟩
    by_cases runs : ∃ self, move = .run self
    · obtain ⟨self, rfl⟩ := runs
      obtain ⟨frame, below, effect, stack, step, rfl, -⟩ := World.step_eq_some moves
      rw [World.lock_setStack] at waits
      exact (World.Rooms.waiting_of_step step waits).resolve_right fun mine => own (by rw [mine.1])
    · obtain same | ⟨_, same⟩ := World.lock_other a.lock moves fun self same => runs ⟨self, same⟩
      · exact same ▸ waits
      · rw [same] at waits
        exact List.mem_of_mem_filter waits

end World.Lies

/-- While its flag is up, a thread does not go past the look at it. -/
theorem World.heedless_of_move (rooms : w.Rooms) (laid : w.IsLaid)
    (raised : (w.interrupter thread).interrupted = true) (moves : w.move move = some (v, notes))
    (lies : v.Lies (·.isHeedless thread ref) thread) : w.Lies (·.isHeedless thread ref) thread := by
  refine lies.of_move Acquisition.isLate_isHeedless rooms laid moves
    fun {a a' rest effect} stack goes told passes => ?_
  have late := Acquisition.isLate_isHeedless.point passes
  simp only [Acquisition.isHeedless, Bool.and_eq_true, decide_eq_true_eq] at passes
  cases goes with
  | looks patience _ flag =>
    obtain rfl := Frame.acquisition.inj (Control.goto.inj told)
    simp only [patience, Patience.target?, Option.some.injEq] at passes
    rw [passes.1.2, raised] at flag
    simp at flag
  | stays _ point =>
    obtain rfl := Frame.acquisition.inj (Control.goto.inj told)
    obtain ⟨⟨lock, listens⟩, -⟩ := passes
    dsimp only at lock listens
    simp [Acquisition.isHeedless, lock, listens, point]
  | takes _ _ _ _ done =>
    obtain ⟨-, rfl⟩ | ⟨-, rfl⟩ := done
    · cases told
    · cases told
      simp at late
  | sleeps _ point =>
    cases told
    simp [point] at late
  | _ => cases told <;> simp at late

/-- While its other reason to give up is there, a thread does not go past the look at that. -/
theorem World.settled_of_move {reason : Yield} (rooms : w.Rooms) (laid : w.IsLaid)
    (reasoned : w.yields reason = true) (moves : w.move move = some (v, notes))
    (lies : v.Lies (·.isSettled reason ref) thread) : w.Lies (·.isSettled reason ref) thread := by
  refine lies.of_move Acquisition.isLate_isSettled rooms laid moves
    fun {a a' rest effect} stack goes told passes => ?_
  simp only [Acquisition.isSettled, Bool.and_eq_true, decide_eq_true_eq] at passes
  cases goes with
  | stays patience _ none =>
    cases told
    simp only [patience, decide_eq_true_eq] at passes
    rw [passes.2, reasoned] at none
    simp at none
  | takes _ _ _ _ done =>
    obtain ⟨-, rfl⟩ | ⟨-, rfl⟩ := done
    · cases told
    · cases told
      simp at passes
  | sleeps _ point =>
    cases told
    simp [point] at passes
  | _ => cases told <;> simp at passes

/-- A notification wakes everybody who lies in front of the lock. -/
theorem World.awake_of_notify (isLate : Acquisition.IsLate late ref) (rooms : v.Rooms)
    (isOpen : (v.lock ref).IsOpen) (empty : (v.lock ref).waiting = []) : ¬ v.Lies late thread := by
  rintro ⟨a, rest, stack, passes | ⟨-, waits, passes⟩⟩
  · have inside : (v.lock ref).inside = some thread := by
      refine rooms.inside (World.isAt_iff.mpr ⟨_, rest, stack, ?_⟩)
      have point := isLate.point passes
      simp only [Frame.acquires, Acquisition.isWithin, isLate.lock passes, decide_true, Bool.true_and,
        Bool.or_eq_true, decide_eq_true_eq]
      tauto
    rw [OwnedLock.IsOpen, inside] at isOpen
    simp at isOpen
  · have same : { a with point := .await }.lock = ref := isLate.lock passes
    rw [show a.lock = ref from same, empty] at waits
    simp at waits

/-- A waiting room is woken from inside the critical section. -/
theorem World.notified (stack : w.stack self = .notify ref :: rest)
    (moves : w.move (.run self) = some (v, notes)) :
    (v.lock ref).IsOpen ∧ (v.lock ref).waiting = [] := by
  obtain ⟨frame, below, effect, top, step, rfl, -⟩ := World.step_eq_some moves
  obtain ⟨rfl, rfl⟩ := List.cons.inj (top.symm.trans stack)
  simp only [Frame.advance, OwnedLock.advanceNotify] at step
  split at step
  · rename_i isOpen
    obtain rfl := Option.some.inj step
    dsimp only
    rw [World.lock_setStack, World.lock_modifyLock, if_pos rfl]
    exact ⟨isOpen, rfl⟩
  · simp at step

/-- A release gives the lock back before it wakes the waiting room. -/
theorem World.cleared (stack : w.stack self = .release ref .clear :: rest)
    (moves : w.move (.run self) = some (v, notes)) :
    (v.lock ref).IsOpen ∧ v.stack self = .release ref .notify :: rest := by
  obtain ⟨frame, below, effect, top, step, rfl, -⟩ := World.step_eq_some moves
  obtain ⟨rfl, rfl⟩ := List.cons.inj (top.symm.trans stack)
  simp only [Frame.advance, Release.advance] at step
  split at step
  · rename_i isOpen
    obtain rfl := Option.some.inj step
    dsimp only
    rw [World.lock_setStack, World.lock_modifyLock, if_pos rfl, World.stack_setStack, if_pos rfl]
    exact ⟨isOpen, rfl⟩
  · simp at step

theorem Frame.isLeaf_of_isDrowsy (drowsy : frame.isDrowsy = true) : frame.isLeaf = true := by
  cases frame <;> first | rfl | simp [isDrowsy] at drowsy

/-- Only a look at the flag, which is down, leads to a wait for the token. -/
theorem Frame.drowsy_of_step (step : frame.advance self w = some effect)
    (drowsy : effect.control.enters Frame.isDrowsy = true) :
    frame.isDrowsy = true ∨ (w.interrupter self).interrupted = false := by
  cases frame with
  | sleeping s =>
    cases point : s.point with
    | begin =>
      simp only [advance, Sleeping.advance, point] at step
      split at step <;> obtain rfl := Option.some.inj step <;>
        simp [Control.enters, isDrowsy] at drowsy
    | check =>
      simp only [advance, Sleeping.advance, point] at step
      obtain ⟨flag, checks⟩ | ⟨flag, checks⟩ := w.checkInterrupt_cases self <;>
        rw [checks] at step <;> obtain rfl := Option.some.inj step
      · exact .inr flag
      · simp [Control.enters] at drowsy
    | look | doze => exact .inl (by simp [isDrowsy, point])
  | parking point =>
    cases point with
    | check =>
      simp only [advance, Parking.advance] at step
      obtain ⟨flag, checks⟩ | ⟨flag, checks⟩ := w.checkInterrupt_cases self <;>
        rw [checks] at step <;> obtain rfl := Option.some.inj step
      · exact .inr flag
      · simp [Control.enters] at drowsy
    | parked => exact .inl rfl
    | recheck =>
      obtain rfl := Option.some.inj step
      simp [Control.enters] at drowsy
  | start op =>
    cases op with
    | access a =>
      obtain ⟨-, -, ⟨value, control⟩ | ⟨message, control⟩⟩ := Access.agrees (m := 0) step <;>
        simp [control, Control.enters] at drowsy
    | release n =>
      obtain ⟨v, notes, leaves, rfl⟩ := World.leaves_of_bind step
      simp [Control.enters] at drowsy
    | deferLookup | unlock =>
      simp only [advance, Op.advance] at step
      split at step <;> obtain rfl := Option.some.inj step <;>
        simp [Control.enters, isDrowsy] at drowsy
    | _ =>
      obtain rfl := Option.some.inj step
      simp [Control.enters, isDrowsy] at drowsy
  | acquisition a =>
    cases Acquisition.goes step with
    | takes _ _ _ _ done =>
      obtain ⟨-, rfl⟩ | ⟨-, rfl⟩ := done <;> simp [Control.enters, isDrowsy] at drowsy
    | _ => simp [Control.enters, isDrowsy] at drowsy
  | _ =>
    simp only [advance, Release.advance, OwnedLock.advanceNotify, Arrival.advance,
      Enrolment.advance, Withdrawal.advance, Interruption.advance, Visit.advance, Script.advance,
      Sequence.advance, Drain.advance, Phases.advance, Resuming.advance, Polling.advance,
      Entering.advance, Leaving.advance, Pausing.advance, Foreign.advance, Acquiring.advance,
      Blocking.advance, Trial.advance] at step
    repeat' split at step
    all_goals first
      | (obtain rfl := Option.some.inj step
         simp [Control.enters, isDrowsy] at drowsy)
      | (obtain ⟨v, notes, leaves, rfl⟩ := World.leaves_of_bind step
         simp [Control.enters, isDrowsy] at drowsy)
      | simp at step

/-- What is no step of a thread leaves all interrupters alone. -/
theorem World.interrupter_other (moves : w.move move = some (v, notes))
    (other : ∀ self, move ≠ .run self) : v.interrupter target = w.interrupter target := by
  cases move with
  | run self => exact absurd rfl (other self)
  | submit self op =>
    obtain ⟨u, submit, same⟩ := Option.map_eq_some_iff.mp moves
    obtain ⟨rfl, rfl⟩ := Prod.mk.inj same
    unfold World.submit at submit
    split at submit
    · obtain rfl := Option.some.inj submit
      exact World.interrupter_setStack _ _
    · simp at submit
  | elapse span =>
    obtain ⟨rfl, rfl⟩ := Prod.mk.inj (Option.some.inj moves)
    rfl
  | rouse self =>
    obtain ⟨rfl, rfl⟩ := Prod.mk.inj (Option.some.inj moves)
    unfold World.rouse
    split
    · exact World.interrupter_modifyLock _ _
    · exact World.interrupter_setStack _ _
    · split
      · exact World.interrupter_setStack _ _
      · rfl
    · rfl

/-- While its flag is up, a thread does not begin to wait for its token. -/
theorem World.rests_of_move (laid : w.IsLaid) (raised : (w.interrupter thread).interrupted = true)
    (moves : w.move move = some (v, notes)) (rests : v.Rests thread) : w.Rests thread := by
  obtain ⟨drowsy, token⟩ := rests
  by_cases runs : ∃ self, move = .run self
  · obtain ⟨self, rfl⟩ := runs
    obtain ⟨frame, rest, effect, stack, step, rfl, -⟩ := World.step_eq_some moves
    rw [World.isAt_step Frame.isLeaf_of_isDrowsy (stack ▸ laid self) step] at drowsy
    rw [World.interrupter_setStack] at token
    have kept : w.isAt Frame.isDrowsy thread = true := by
      split at drowsy
      · rename_i own
        subst own
        have before := (Frame.drowsy_of_step step drowsy).resolve_right (by simp [raised])
        exact World.isAt_iff.mpr ⟨frame, rest, stack, before⟩
      · exact drowsy
    refine ⟨kept, ?_⟩
    have shakes : effect.Shakes thread self w frame := Frame.shakes step
    cases shakes with
    | keeps same | raises _ _ _ same | lowers _ _ _ same | installs _ same =>
      rw [same] at token
      exact token
    | unparks _ _ _ same =>
      rw [same] at token
      simp at token
    | consumes own wakes =>
      rw [if_pos own.symm] at drowsy
      obtain ⟨s, -, -, control⟩ | ⟨-, control⟩ := wakes <;>
        simp [control, Control.enters, Frame.isDrowsy] at drowsy
  · have other (self : ThreadId) : move ≠ .run self := fun same => runs ⟨self, same⟩
    rw [World.interrupter_other moves other] at token
    refine ⟨?_, token⟩
    obtain ⟨frame, rest, after, passes⟩ := World.isAt_iff.mp drowsy
    obtain ⟨-, same | ⟨op, -, told⟩ | ⟨frame, frame', below, -, woken, rouses⟩⟩ :=
      World.move_other moves (other thread)
    · exact World.isAt_iff.mpr ⟨frame, rest, same ▸ after, passes⟩
    · obtain ⟨rfl, -⟩ := List.cons.inj (told.symm.trans after)
      simp [Frame.isDrowsy] at passes
    · obtain ⟨rfl, -⟩ := List.cons.inj (woken.symm.trans after)
      cases rouses <;> simp [Frame.isDrowsy] at passes

theorem Frame.callback_of_step (step : frame.advance self w = some effect)
    (alone : frame.installs target self w = false) :
    (effect.world.interrupter target).callback = (w.interrupter target).callback := by
  have shakes : effect.Shakes target self w frame := Frame.shakes step
  cases shakes with
  | keeps same => rw [same]
  | raises _ _ _ same | unparks _ _ _ same | lowers _ _ _ same | consumes _ _ same =>
    rw [same]
    rfl
  | installs installs =>
    rw [alone] at installs
    simp at installs

theorem Acquisition.Goes.patience {a a' : Acquisition} (goes : a.Goes self w effect)
    (told : effect.control = .goto (.acquisition a')) : a'.patience = a.patience := by
  cases goes with
  | takes _ _ _ _ done =>
    obtain ⟨-, rfl⟩ | ⟨-, rfl⟩ := done
    · cases told
    · cases told
      rfl
  | restores => cases told
  | _ =>
    cases told
    rfl

/-- An acquisition has its callback in place from its first step to its last. -/
theorem Acquisition.Goes.listens {a a' : Acquisition} (goes : a.Goes thread w effect)
    (listens : a.point ≠ .install → (w.interrupter thread).callback = some (.notify a.lock))
    (own : a'.patience.target? = some thread) (told : effect.control = .goto (.acquisition a')) :
    (effect.world.interrupter thread).callback = some (.notify a'.lock) := by
  cases goes with
  | installs patience =>
    cases told
    simp only [patience, Patience.target?, Option.some.injEq] at own
    simp [World.interrupter_modifyInterrupter, own]
  | takes point _ _ _ done =>
    obtain ⟨-, rfl⟩ | ⟨-, rfl⟩ := done
    · cases told
    · cases told
      simpa using listens (by simp [point])
  | sleeps patience =>
    cases told
    simp [patience, Patience.target?] at own
  | obeys _ point =>
    cases told
    rw [World.interrupter_modifyLock, World.interrupter_modifyInterrupter]
    split
    · rename_i same
      exact same ▸ listens (by simp [point])
    · exact listens (by simp [point])
  | enters _ point | yields _ point | awaits _ point =>
    cases told
    simpa using listens (by simp [point])
  | looks _ point | stays _ point =>
    cases told
    exact listens (by simp [point])
  | restores => cases told

theorem World.Listens.of_move (listens : w.Listens thread) (laid : w.IsLaid)
    (alone : ∀ self, move = .run self → w.leavesCallback thread self = true)
    (moves : w.move move = some (v, notes)) : v.Listens thread := by
  intro a' below after own point
  by_cases runs : ∃ self, move = .run self
  · obtain ⟨self, rfl⟩ := runs
    obtain ⟨frame, rest, effect, stack, step, rfl, -⟩ := World.step_eq_some moves
    rw [World.interrupter_setStack]
    by_cases mine : self = thread
    · subst mine
      rw [World.stack_setStack, if_pos rfl] at after
      have top := effect.control.top_of_stack (stack ▸ laid self).1 after rfl
      obtain ⟨lock, owner, patience, rfl⟩ | ⟨a, rfl, goes, told⟩ := Frame.acquisition_of_step step top
      · cases patience with
        | uninterruptible => simp [Acquisition.begin, Patience.target?] at own
        | interruptible => simp [Acquisition.begin] at point
      · refine goes.listens (fun begun => listens stack ?_ begun) own told
        rw [← goes.patience told]
        exact own
    · rw [World.stack_setStack, if_neg (Ne.symm mine), Frame.advance_stack step] at after
      rw [Frame.callback_of_step step]
      · exact listens after own point
      · have leaves := alone self rfl
        simpa [World.leavesCallback, mine, World.isAt, stack] using leaves
  · have other (self : ThreadId) : move ≠ .run self := fun same => runs ⟨self, same⟩
    rw [World.interrupter_other moves other]
    obtain ⟨-, same | ⟨op, -, told⟩ | ⟨frame, frame', below, -, woken, rouses⟩⟩ :=
      World.move_other moves (other thread)
    · exact listens (same ▸ after) own point
    · simp [told] at after
    · obtain ⟨rfl, -⟩ := List.cons.inj (woken.symm.trans after)
      cases rouses

/-- What keeps a thread from being forgotten where it waits. -/
structure World.IsReady (target : ThreadId) (w : World) : Prop where
  laid : w.IsLaid
  rooms : w.Rooms
  listens : w.Listens target

theorem World.IsStill.isReady (still : w.IsStill) : w.IsReady target :=
  ⟨still.isLaid, still.rooms, fun a rest stack => by simp [still.idle] at stack⟩

theorem World.IsReady.of_move (ready : w.IsReady target)
    (alone : ∀ self, move = .run self → w.leavesCallback target self = true)
    (moves : w.move move = some (v, notes)) : v.IsReady target :=
  ⟨ready.laid.move moves, ready.rooms.move ready.laid moves,
    ready.listens.of_move ready.laid alone moves⟩

/-- What each move keeps as long as something is so, a course keeps as long. -/
theorem Course.keeps_while {moments : List Moment} {P Q : World → Prop} (ready : w.IsReady target)
    (course : Course (fun w self => w.leavesCallback target self = true) w moments v)
    (step : ∀ {x y : World} {move : Move} {notes : List Note}, x.IsReady target → Q x → Q y →
      x.move move = some (y, notes) → P x → P y)
    (during : ∀ moment ∈ moments, Q moment.world) (last : Q v) (start : P w) :
    v.IsReady target ∧ P v := by
  induction course with
  | nil => exact ⟨ready, start⟩
  | snoc _ allowed moves ih =>
    have here : Q _ := during _ (List.mem_append_right _ (List.mem_singleton_self _))
    obtain ⟨ready, kept⟩ := ih (fun moment mem => during moment (List.mem_append_left _ mem)) here
    exact ⟨ready.of_move allowed moves, step ready here last moves kept⟩

/-- How far an interruption of the target has come. It has been past nobody who lies asleep. -/
inductive World.Interrupts (target self : ThreadId) (rest : List Frame) (w : World) : Prop
  | looks (stack : w.stack self = .interruption { target, point := .look } :: rest)
  | notifies {ref : LockRef}
      (stack : w.stack self = .notify ref :: .interruption { target, point := .unpark } :: rest)
      (only : ∀ {other}, w.Lies (·.isHeedless target other) target → other = ref)
  | past (above : List Frame)
      (stack : w.stack self = above ++ .interruption { target, point := .unpark } :: rest)
      (nobody : ∀ ref, ¬ w.Lies (·.isHeedless target ref) target)

theorem World.Listens.of_lies (listens : w.Listens target)
    (lies : w.Lies (·.isHeedless target ref) target) :
    (w.interrupter target).callback = some (.notify ref) := by
  obtain ⟨a, rest, stack, lies⟩ := lies
  simp only [Acquisition.isHeedless, Bool.and_eq_true, Bool.or_eq_true, decide_eq_true_eq] at lies
  obtain ⟨⟨rfl, own⟩, point⟩ | ⟨point, -, ⟨rfl, own⟩, -⟩ := lies
  · exact listens stack own (by rcases point with point | point <;> simp [point])
  · exact listens stack own (by simp [point])

/-- A step of the interrupting thread brings the interruption on, or ends it. -/
theorem World.Interrupts.step (interrupts : w.Interrupts target self rest)
    (ready : w.IsReady target) (raised : (w.interrupter target).interrupted = true)
    (moves : w.move (.run self) = some (v, notes)) (on : rest.length < (v.stack self).length) :
    v.Interrupts target self rest := by
  have before {ref : LockRef} (lies : v.Lies (·.isHeedless target ref) target) :
      w.Lies (·.isHeedless target ref) target :=
    World.heedless_of_move ready.rooms ready.laid raised moves lies
  have rooms : v.Rooms := ready.rooms.move ready.laid moves
  have notified {ref : LockRef} {below : List Frame} (top : w.stack self = .notify ref :: below) :
      (v.lock ref).IsOpen ∧ (v.lock ref).waiting = [] := World.notified top moves
  obtain ⟨frame, below, effect, stack, step, rfl, -⟩ := World.step_eq_some moves
  have after : (effect.world.setStack self (effect.control.stack below)).stack self =
      effect.control.stack below := by
    rw [World.stack_setStack, if_pos rfl]
  rw [after] at on
  cases interrupts with
  | looks top =>
    obtain ⟨rfl, rfl⟩ := List.cons.inj (stack.symm.trans top)
    simp only [Frame.advance, Interruption.advance] at step
    split at step <;> obtain rfl := Option.some.inj step
    · rename_i callback
      refine .past [] after fun ref lies => ?_
      have heard := ready.listens.of_lies (before lies)
      simp [callback] at heard
    · rename_i lock callback
      refine .notifies after fun lies => ?_
      have heard := ready.listens.of_lies (before lies)
      simpa [callback, eq_comm] using heard
    · rename_i tag ops callback
      refine .past [.script { rest := ops }] after fun ref lies => ?_
      have heard := ready.listens.of_lies (before lies)
      simp [callback] at heard
  | notifies top only =>
    rename_i ref
    obtain ⟨isOpen, empty⟩ := notified top
    obtain ⟨rfl, rfl⟩ := List.cons.inj (stack.symm.trans top)
    simp only [Frame.advance, OwnedLock.advanceNotify] at step
    split at step
    · obtain rfl := Option.some.inj step
      refine .past [] after fun other lies => ?_
      obtain rfl := only (before lies)
      exact World.awake_of_notify Acquisition.isLate_isHeedless rooms isOpen empty lies
    · simp at step
  | past above top nobody =>
    have nobody (ref : LockRef) : ¬ (effect.world.setStack self (effect.control.stack below)).Lies
        (·.isHeedless target ref) target := fun lies => nobody ref (before lies)
    cases above with
    | nil =>
      obtain ⟨rfl, rfl⟩ := List.cons.inj (stack.symm.trans top)
      obtain rfl := Option.some.inj step
      exact absurd on (Nat.not_lt.mpr (Control.length_stack_le_reply _ _))
    | cons frame' above =>
      obtain ⟨rfl, rfl⟩ := List.cons.inj (stack.symm.trans top)
      obtain ⟨above', same⟩ | ⟨rfl, value, replies, same⟩ | ⟨message, -, same⟩ :=
        effect.control.stack_append above (.interruption { target, point := .unpark }) rest
      · exact .past above' (after.trans same) nobody
      · exact .past [] (after.trans same) nobody
      · rw [List.append_eq, same] at on
        exact absurd (Frame.length_unwind_lt rfl) (Nat.not_le.mpr on)

/-- While the flag of its target is up, an interruption goes on to its end. -/
theorem World.Interrupts.of_move (interrupts : w.Interrupts target self rest)
    (ready : w.IsReady target) (raised : (w.interrupter target).interrupted = true)
    (moves : w.move move = some (v, notes)) (on : rest.length < (v.stack self).length) :
    v.Interrupts target self rest := by
  by_cases own : move = .run self
  · exact interrupts.step ready raised (own ▸ moves) on
  have before {ref : LockRef} (lies : v.Lies (·.isHeedless target ref) target) :
      w.Lies (·.isHeedless target ref) target :=
    World.heedless_of_move ready.rooms ready.laid raised moves lies
  have stays {frame : Frame} {below : List Frame} (stack : w.stack self = frame :: below)
      (asleep : ∀ frame', ¬ frame.Rouses frame') : v.stack self = frame :: below := by
    obtain ⟨-, same | ⟨op, idle, -⟩ | ⟨top, top', below', under, -, rouses⟩⟩ :=
      World.move_other moves own
    · exact same.trans stack
    · simp [idle] at stack
    · obtain ⟨rfl, -⟩ := List.cons.inj (stack.symm.trans under)
      exact absurd rouses (asleep top')
  cases interrupts with
  | looks stack => exact .looks (stays stack (by rintro _ ⟨⟩))
  | notifies stack only => exact .notifies (stays stack (by rintro _ ⟨⟩)) fun lies => only (before lies)
  | past above stack nobody =>
    have nobody (ref : LockRef) : ¬ v.Lies (·.isHeedless target ref) target :=
      fun lies => nobody ref (before lies)
    cases above with
    | nil => exact .past [] (stays stack (by rintro _ ⟨⟩)) nobody
    | cons top above =>
      obtain ⟨-, same | ⟨op, idle, -⟩ | ⟨frame, frame', below, under, after, -⟩⟩ :=
        World.move_other moves own
      · exact .past (top :: above) (same.trans stack) nobody
      · simp [idle] at stack
      · obtain ⟨-, rfl⟩ := List.cons.inj (stack.symm.trans under)
        exact .past (frame' :: above) after nobody

/-- Nobody is in a waiting room, or waits for its token, past the look that would have told. -/
def World.IsAwake (target : ThreadId) (w : World) : Prop :=
  (∀ ref, ¬ w.Lies (·.isHeedless target ref) target) ∧ ¬ w.Rests target

theorem World.IsAwake.of_move (awake : w.IsAwake target) (ready : w.IsReady target)
    (raised : (w.interrupter target).interrupted = true) (moves : w.move move = some (v, notes)) :
    v.IsAwake target :=
  ⟨fun ref lies => awake.1 ref (World.heedless_of_move ready.rooms ready.laid raised moves lies),
    fun rests => awake.2 (World.rests_of_move ready.laid raised moves rests)⟩

theorem World.IsAwake.not_isLeft (awake : w.IsAwake target) (rooms : w.Rooms) :
    ¬ w.IsLeft target := by
  rintro (⟨a, rest, stack, own, waits⟩ | ⟨waits, token⟩)
  · obtain ⟨top, below, same, before⟩ := World.isAt_iff.mp (rooms.waiting waits)
    obtain ⟨rfl, -⟩ := List.cons.inj (stack.symm.trans same)
    simp only [Frame.acquires, Acquisition.isBefore, decide_true, Bool.true_and,
      decide_eq_true_eq] at before
    exact awake.1 a.lock
      ⟨a, rest, stack, .inr ⟨before, waits, by simp [Acquisition.isHeedless, own]⟩⟩
  · obtain ⟨top, below, stack, waits⟩ := World.isAt_iff.mp waits
    refine awake.2 ⟨World.isAt_iff.mpr ⟨top, below, stack, ?_⟩, token⟩
    cases top <;> simp_all [Frame.awaitsToken, Frame.isDrowsy]

/-- An interruption that is over has left its target a token. -/
theorem World.Interrupts.replies {value : Reply} (interrupts : w.Interrupts target self rest)
    (ready : w.IsReady target) (raised : (w.interrupter target).interrupted = true)
    (moves : w.move (.run self) = some (v, notes))
    (replies : (⟨w, .run self, notes⟩ : Moment).Replies self rest value) : v.IsAwake target := by
  obtain ⟨-, frame, effect, stack, step, control⟩ := replies
  cases interrupts with
  | looks top =>
    obtain ⟨rfl, -⟩ := List.cons.inj (stack.symm.trans top)
    simp only [Frame.advance, Interruption.advance] at step
    split at step <;> obtain rfl := Option.some.inj step <;> simp at control
  | notifies top =>
    have lengths := congrArg List.length (stack.symm.trans top)
    simp at lengths
  | past above top nobody =>
    cases above with
    | cons =>
      have lengths := congrArg List.length (stack.symm.trans top)
      simp at lengths
      omega
    | nil =>
      obtain ⟨rfl, -⟩ := List.cons.inj (stack.symm.trans top)
      refine ⟨fun ref lies =>
        nobody ref (World.heedless_of_move ready.rooms ready.laid raised moves lies), ?_⟩
      rintro ⟨-, token⟩
      rw [World.move_of_advance stack step] at moves
      obtain ⟨rfl, -⟩ := Prod.mk.inj (Option.some.inj moves)
      obtain rfl := Option.some.inj step
      simp [World.interrupter_modifyInterrupter] at token

/-- As long as a lock that nobody is in the critical section of stays free, nobody comes to its waiting
room. -/
theorem World.Rooms.free_of_move (rooms : w.Rooms) (free : (w.lock ref).IsFree)
    (isOpen : (w.lock ref).IsOpen) (still : (v.lock ref).IsFree)
    (moves : w.move move = some (v, notes)) :
    (v.lock ref).IsOpen ∧ (v.lock ref).waiting ⊆ (w.lock ref).waiting := by
  by_cases runs : ∃ self, move = .run self
  · obtain ⟨self, rfl⟩ := runs
    obtain ⟨frame, rest, effect, stack, step, rfl, -⟩ := World.step_eq_some moves
    rw [World.lock_setStack] at still ⊢
    have handles : effect.Handles ref self w frame := Frame.handles step
    cases handles with
    | keeps same => exact ⟨same ▸ isOpen, same ▸ List.Subset.refl _⟩
    | takes _ _ _ _ _ same | tries _ _ _ _ same =>
      rw [same, OwnedLock.IsFree] at still
      simp at still
    | enters _ _ _ _ owned => exact absurd free owned
    | exits _ _ _ same => exact ⟨by rw [same]; rfl, by rw [same]; exact List.Subset.refl _⟩
    | awaits top own stands =>
      subst top
      obtain point | ⟨-, -, owned⟩ := stands
      · have inside : (w.lock ref).inside = some self := by
          refine rooms.inside (World.isAt_iff.mpr ⟨_, rest, stack, ?_⟩)
          simp [Frame.acquires, Acquisition.isWithin, own, point]
        rw [OwnedLock.IsOpen, inside] at isOpen
        simp at isOpen
      · exact absurd free owned
    | clears _ _ same => exact ⟨by rw [same]; exact isOpen, by rw [same]; exact List.Subset.refl _⟩
    | notifies same => exact ⟨by rw [same]; exact isOpen, by rw [same]; exact List.nil_subset _⟩
    | leaves _ _ _ same =>
      rw [same, OwnedLock.leave]
      split
      · exact ⟨isOpen, List.nil_subset _⟩
      · exact ⟨isOpen, List.Subset.refl _⟩
  · obtain same | ⟨thread, same⟩ := World.lock_other ref moves fun self same => runs ⟨self, same⟩
    · exact ⟨same ▸ isOpen, same ▸ List.Subset.refl _⟩
    · rw [same]
      exact ⟨isOpen, List.filter_subset_self _⟩

/-- The lock is free, nobody is in its critical section, and those in its waiting room are still to be
told so by a release that is not over. -/
structure World.Releases (ref : LockRef) (thread : ThreadId) (rest : List Frame) (w : World) : Prop where
  isOpen : (w.lock ref).IsOpen
  told : (w.lock ref).waiting = [] ∨ w.stack thread = .release ref .notify :: rest

theorem World.Releases.of_move (releases : w.Releases ref self rest) (rooms : w.Rooms)
    (free : (w.lock ref).IsFree) (still : (v.lock ref).IsFree)
    (moves : w.move move = some (v, notes)) :
    v.Releases ref self rest ∧ (move = .run self → (v.lock ref).waiting = []) := by
  obtain ⟨isOpen, kept⟩ := rooms.free_of_move free releases.isOpen still moves
  obtain told | stack := releases.told
  · have empty : (v.lock ref).waiting = [] := List.subset_nil.mp (told ▸ kept)
    exact ⟨⟨isOpen, .inl empty⟩, fun _ => empty⟩
  · by_cases own : move = .run self
    · subst own
      obtain ⟨frame, below, effect, top, step, rfl, -⟩ := World.step_eq_some moves
      obtain ⟨rfl, rfl⟩ := List.cons.inj (top.symm.trans stack)
      obtain rfl := Option.some.inj step
      have empty : ((w.modifyLock ref (·.notify)).lock ref).waiting = [] := by
        rw [World.lock_modifyLock, if_pos rfl]
        rfl
      rw [← World.lock_setStack self] at empty
      exact ⟨⟨isOpen, .inl empty⟩, fun _ => empty⟩
    · refine ⟨⟨isOpen, .inr ?_⟩, fun runs => absurd runs own⟩
      obtain ⟨-, same | ⟨op, idle, -⟩ | ⟨frame, frame', below, before, -, rouses⟩⟩ :=
        World.move_other moves own
      · exact same.trans stack
      · simp [idle] at stack
      · obtain ⟨rfl, -⟩ := List.cons.inj (before.symm.trans stack)
        cases rouses

/-- Some thread looks at the flag of the target, and is told that it was up. -/
def Moment.Observes (target : ThreadId) (moment : Moment) : Prop :=
  ∃ self frame rest effect, moment.move = .run self ∧ moment.world.stack self = frame :: rest ∧
    frame.advance self moment.world = some effect ∧ frame.looks target self = true ∧
    effect.TellsInterrupt frame

theorem World.lowered (raised : (w.interrupter target).interrupted = true)
    (moves : w.move move = some (v, notes)) (down : (v.interrupter target).interrupted = false) :
    (⟨w, move, notes⟩ : Moment).Observes target := by
  by_cases runs : ∃ self, move = .run self
  · obtain ⟨self, rfl⟩ := runs
    obtain ⟨frame, rest, effect, stack, step, rfl, -⟩ := World.step_eq_some moves
    rw [World.interrupter_setStack] at down
    have shakes : effect.Shakes target self w frame := Frame.shakes step
    cases shakes with
    | lowers looks _ tells => exact ⟨self, frame, rest, effect, rfl, stack, step, looks, tells⟩
    | raises _ _ _ same =>
      rw [same] at down
      simp at down
    | keeps same | unparks _ _ _ same | consumes _ _ same | installs _ same =>
      rw [same] at down
      exact absurd (raised.symm.trans down) (by simp)
  · rw [World.interrupter_other moves fun self same => runs ⟨self, same⟩, raised] at down
    simp at down

/-- What a waiting thread, and those who wait for a lock, can rely on after these moments. -/
structure Wakeful (target : ThreadId) (moments : List Moment) (v : World) : Prop where
  /-- An interruption raises the flag first. -/
  raises : ∀ {pre first post self rest next}, moments = pre ++ first :: post →
    first.move = .run self → first.world.stack self = .interruption { target } :: rest →
    first.world.move first.move = some (next, first.notes) →
    (next.interrupter target).interrupted = true
  /-- The flag goes down only when somebody looks at it, who is told. -/
  stays : ∀ {pre moment post next}, moments = pre ++ moment :: post →
    moment.world.move moment.move = some (next, moment.notes) →
    (moment.world.interrupter target).interrupted = true →
    (next.interrupter target).interrupted = false → moment.Observes target
  /-- Once an interruption has returned, and while the flag it raised is up, the target is not left
  waiting. -/
  interrupted : ∀ {pre first mid last post self rest value},
    moments = pre ++ first :: (mid ++ last :: post) → first.move = .run self →
    first.world.stack self = .interruption { target } :: rest →
    (∀ moment ∈ mid, rest.length < (moment.world.stack self).length) →
    last.Replies self rest value →
    (∀ moment ∈ mid ++ last :: post, (moment.world.interrupter target).interrupted = true) →
    (v.interrupter target).interrupted = true → ¬ v.IsLeft target
  /-- Once a waiting room has been woken for a reason to give up, and while it is there, nobody is left
  in it who would give up for that reason. -/
  woken : ∀ {pre moment post self rest ref reason}, moments = pre ++ moment :: post →
    moment.move = .run self → moment.world.stack self = .notify ref :: rest →
    (∀ other ∈ moment :: post, other.world.yields reason = true) → v.yields reason = true →
    ∀ {thread a below interrupter}, v.stack thread = .acquisition a :: below → a.lock = ref →
      a.patience = .interruptible interrupter reason → thread ∉ (v.lock ref).waiting
  /-- Once the release of a lock has gone on to its end, and while the lock is free, nobody is left
  waiting for it. -/
  released : ∀ {pre first post last self rest ref}, moments = pre ++ first :: post →
    first.move = .run self → first.world.stack self = .release ref .clear :: rest →
    last ∈ post → last.move = .run self → (∀ moment ∈ post, (moment.world.lock ref).IsFree) →
    (v.lock ref).IsFree → (v.lock ref).waiting = []
  /-- A lock that is given back in any other way has its waiting room woken by that very step. -/
  freed : ∀ {pre first post self frame rest ref}, moments = pre ++ first :: post →
    first.move = .run self → first.world.stack self = frame :: rest → frame ≠ .release ref .clear →
    ¬ (first.world.lock ref).IsFree → (∀ moment ∈ post, (moment.world.lock ref).IsFree) →
    (v.lock ref).IsFree → (v.lock ref).waiting = []

/-- What is so all along a course is so at its start. -/
theorem Course.at_start {custom : World → ThreadId → Prop} {moments : List Moment} {Q : World → Prop}
    (course : Course custom w moments v) (during : ∀ moment ∈ moments, Q moment.world) (last : Q v) :
    Q w := by
  induction course with
  | nil => exact last
  | snoc _ _ _ ih =>
    exact ih (fun moment mem => during moment (List.mem_append_left _ mem))
      (during _ (List.mem_append_right _ (List.mem_singleton_self _)))

section

variable {moments mid post : List Moment} {last : Moment}

/-- An interruption that has begun leaves nobody behind, if its flag stays up. -/
theorem Course.interrupts {value : Reply} (ready : w.IsReady target)
    (begun : w.Interrupts target self rest)
    (course : Course (fun w self => w.leavesCallback target self = true) w (mid ++ last :: post) v)
    (on : ∀ moment ∈ mid, rest.length < (moment.world.stack self).length)
    (replies : last.Replies self rest value)
    (raised : ∀ moment ∈ mid ++ last :: post, (moment.world.interrupter target).interrupted = true)
    (up : (v.interrupter target).interrupted = true) : ¬ v.IsLeft target := by
  obtain ⟨ended, during, allowed, moved, since⟩ := course.split rfl
  have high : rest.length < (last.world.stack self).length := by
    obtain ⟨-, frame, effect, top, -⟩ := replies
    simp [top]
  obtain ⟨calling, interrupts⟩ := during.keeps_while ready
    (Q := fun x => (x.interrupter target).interrupted = true ∧ rest.length < (x.stack self).length)
    (P := World.Interrupts target self rest)
    (fun ready here there moves interrupts => interrupts.of_move ready here.1 moves there.2)
    (fun moment mem => ⟨raised moment (List.mem_append_left _ mem), on moment mem⟩)
    ⟨raised last (by simp), high⟩ begun
  have awake : ended.IsAwake target := by
    obtain ⟨world, move, notes⟩ := last
    obtain rfl : move = .run self := replies.runs
    exact interrupts.replies calling (raised _ (by simp)) moved replies
  obtain ⟨waiting, awake⟩ := since.keeps_while (calling.of_move allowed moved)
    (Q := fun x => (x.interrupter target).interrupted = true) (P := World.IsAwake target)
    (fun ready here _ moves awake => awake.of_move ready here moves)
    (fun moment mem => raised moment (by simp [mem])) up awake
  exact awake.not_isLeft waiting.rooms

/-- As long as there is a reason to give up, nobody who would goes to sleep. -/
theorem Course.settled {reason : Yield} {a : Acquisition} {interrupter : ThreadId}
    {below : List Frame} (ready : w.IsReady target)
    (nobody : ¬ w.Lies (·.isSettled reason ref) thread)
    (course : Course (fun w self => w.leavesCallback target self = true) w moments v)
    (reasoned : ∀ moment ∈ moments, moment.world.yields reason = true)
    (now : v.yields reason = true) (stack : v.stack thread = .acquisition a :: below)
    (own : a.lock = ref) (patience : a.patience = .interruptible interrupter reason) :
    thread ∉ (v.lock ref).waiting := by
  intro waits
  obtain ⟨waiting, nobody⟩ := course.keeps_while ready (Q := fun x => x.yields reason = true)
    (P := fun x => ¬ x.Lies (·.isSettled reason ref) thread)
    (fun ready here _ moves nobody lies =>
      nobody (World.settled_of_move ready.rooms ready.laid here moves lies))
    reasoned now nobody
  subst own
  obtain ⟨top, rest, same, before⟩ := World.isAt_iff.mp (waiting.rooms.waiting waits)
  obtain ⟨rfl, -⟩ := List.cons.inj (stack.symm.trans same)
  simp only [Frame.acquires, Acquisition.isBefore, decide_true, Bool.true_and,
    decide_eq_true_eq] at before
  exact nobody ⟨a, below, stack,
    .inr ⟨before, waits, by simp [Acquisition.isSettled, patience]⟩⟩

/-- A waiting room that is empty when the lock is given back stays empty as long as it is free. -/
theorem Course.empty (ready : w.IsReady target) (isOpen : (w.lock ref).IsOpen)
    (empty : (w.lock ref).waiting = [])
    (course : Course (fun w self => w.leavesCallback target self = true) w moments v)
    (free : ∀ moment ∈ moments, (moment.world.lock ref).IsFree) (now : (v.lock ref).IsFree) :
    (v.lock ref).waiting = [] :=
  (course.keeps_while ready (Q := fun x => (x.lock ref).IsFree)
    (P := fun x => (x.lock ref).IsOpen ∧ (x.lock ref).waiting = [])
    (fun ready here there moves vacant =>
      (ready.rooms.free_of_move here vacant.1 there moves).imp_right
        fun kept => List.subset_nil.mp (vacant.2 ▸ kept))
    free now ⟨isOpen, empty⟩).2.2

/-- A release that goes on to its end empties the waiting room, if the lock stays free. -/
theorem Course.released (ready : w.IsReady target) (releases : w.Releases ref self rest)
    (course : Course (fun w self => w.leavesCallback target self = true) w moments v)
    (free : ∀ moment ∈ moments, (moment.world.lock ref).IsFree) (now : (v.lock ref).IsFree)
    (later : last ∈ moments) (again : last.move = .run self) : (v.lock ref).waiting = [] := by
  obtain ⟨before, after, rfl⟩ := List.append_of_mem later
  obtain ⟨next, first, allowed, moved, second⟩ := course.split rfl
  have here : (last.world.lock ref).IsFree := free last (by simp)
  have since : ∀ moment ∈ after, (moment.world.lock ref).IsFree :=
    fun moment mem => free moment (by simp [mem])
  have freed : (next.lock ref).IsFree :=
    second.at_start (Q := fun x => (x.lock ref).IsFree) since now
  obtain ⟨ready, releases⟩ := first.keeps_while ready (Q := fun x => (x.lock ref).IsFree)
    (P := World.Releases ref self rest)
    (fun ready here there moves releases => (releases.of_move ready.rooms here there moves).1)
    (fun moment mem => free moment (by simp [mem])) here releases
  obtain ⟨told, empty⟩ := releases.of_move ready.rooms here freed moved
  exact second.empty (ready.of_move allowed moved) told.isOpen (empty again) since now

/-- A step that gives a lock back leaves its waiting room empty, or is the first of a release. -/
theorem World.emptied (stack : w.stack self = frame :: rest) (owned : ¬ (w.lock ref).IsFree)
    (other : frame ≠ .release ref .clear) (moves : w.move (.run self) = some (v, notes))
    (free : (v.lock ref).IsFree) : (v.lock ref).IsOpen ∧ (v.lock ref).waiting = [] := by
  obtain ⟨frame', rest', effect, top, step, rfl, -⟩ := World.step_eq_some moves
  obtain ⟨rfl, rfl⟩ := List.cons.inj (stack.symm.trans top)
  rw [World.lock_setStack] at free ⊢
  have handles : effect.Handles ref self w frame := Frame.handles step
  cases handles with
  | takes _ _ _ _ open' | tries _ _ _ open' => exact absurd open' owned
  | clears top => exact absurd top other
  | leaves _ isOpen _ same =>
    rw [same, OwnedLock.leave] at free ⊢
    split
    · exact ⟨isOpen, rfl⟩
    · rename_i foreign
      rw [if_neg foreign] at free
      exact absurd free owned
  | keeps same | enters _ _ _ _ _ same | exits _ _ _ same | awaits _ _ _ _ same | notifies same =>
    rw [same] at free
    exact absurd free owned

end

theorem no_wakeup_lost {moments : List Moment} (still : w.IsStill)
    (course : Course (fun w self => w.leavesCallback target self = true) w moments v) :
    Wakeful target moments v := by
  have ready {moments : List Moment} {v : World} (course : Course (fun w self =>
      w.leavesCallback target self = true) w moments v) : v.IsReady target :=
    course.keeps (fun ready alone moves => ready.of_move alone moves) still.isReady
  constructor
  · intro pre first post self rest next parts runs stack moves
    obtain ⟨world, move, notes⟩ := first
    obtain rfl : move = .run self := runs
    obtain ⟨frame, below, effect, top, step, rfl, -⟩ := World.step_eq_some moves
    obtain ⟨rfl, rfl⟩ := List.cons.inj (top.symm.trans stack)
    obtain rfl := Option.some.inj step
    simp [World.interrupter_modifyInterrupter]
  · intro pre moment post next parts moves raised down
    exact World.lowered raised moves down
  · intro pre first mid last post self rest value parts runs stack on replies raised up
    obtain ⟨next, before, allowed, moved, after⟩ := course.split parts
    refine after.interrupts (ready (before.trans (.single allowed moved))) ?_ on replies raised up
    rw [runs] at moved
    obtain ⟨frame, below, effect, top, step, rfl, -⟩ := World.step_eq_some moved
    obtain ⟨rfl, rfl⟩ := List.cons.inj (top.symm.trans stack)
    obtain rfl := Option.some.inj step
    refine .looks ?_
    rw [World.stack_setStack, if_pos rfl]
    rfl
  · intro pre moment post self rest ref reason parts runs stack reasoned now thread a below
      interrupter asleep own patience
    obtain ⟨next, before, allowed, moved, after⟩ := course.split parts
    have started := ready (before.trans (.single allowed moved))
    obtain ⟨isOpen, empty⟩ := World.notified stack (runs ▸ moved)
    exact after.settled started
      (World.awake_of_notify Acquisition.isLate_isSettled started.rooms isOpen empty)
      (fun other mem => reasoned other (.tail _ mem)) now asleep own patience
  · intro pre first post last self rest ref parts runs stack later again free now
    obtain ⟨next, before, allowed, moved, after⟩ := course.split parts
    obtain ⟨isOpen, told⟩ := World.cleared stack (runs ▸ moved)
    have releases : next.Releases ref self rest := ⟨isOpen, .inr told⟩
    exact after.released (ready (before.trans (.single allowed moved))) releases free now later again
  · intro pre first post self frame rest ref parts runs stack other owned free now
    obtain ⟨next, before, allowed, moved, after⟩ := course.split parts
    have freed : (next.lock ref).IsFree :=
      after.at_start (Q := fun x => (x.lock ref).IsFree) free now
    obtain ⟨isOpen, empty⟩ := World.emptied stack owned other (runs ▸ moved) freed
    exact after.empty (ready (before.trans (.single allowed moved))) isOpen empty free now

theorem World.pair_isStill : World.pair.IsStill := by
  refine ⟨World.pair_isFresh.idle, fun ref => ?_⟩
  cases ref with
  | global | loose => exact ⟨rfl, rfl⟩
  | pause m =>
    have managers : World.pair.manager m = [({} : Manager)].getD m default := Table.get_ofList _ m
    have lock : World.pair.lock (.pause m) = ([({} : Manager)].getD m default).pauseLock :=
      congrArg Manager.pauseLock managers
    rw [lock]
    cases m <;> exact ⟨rfl, rfl⟩

/-- One thread waits for a lock that the other one has, and is interrupted by it. -/
def interruptedWait : List Move :=
  Move.repeated [
    (1, .submit 0 (.lock 0)), (3, .run 0), (1, .submit 1 (.lockInterruptibly 0 none)), (6, .run 1),
    (1, .submit 0 (.interrupt (some 1))), (5, .run 0), (4, .run 1)]

def Note.isGivingUp : Note → Bool
  | completed (.failed .interrupted) => true
  | _ => false

theorem Note.isGivingUp_iff {note : Note} :
    note.isGivingUp = true ↔ note = .completed (.failed .interrupted) := by
  unfold isGivingUp
  split
  · simp
  · rename_i other
    simpa using other

theorem no_wakeup_lost_interruptedWait : ∃ moments v, World.pair.IsStill ∧
    Course (fun w self => w.leavesCallback 1 self = true) World.pair moments v ∧
    (∃ moment ∈ moments, 1 ∈ (moment.world.lock (.loose 0)).waiting) ∧
    (1, .completed (.failed .interrupted)) ∈ observations moments ∧ Wakeful 1 moments v := by
  have made : (World.pair.follow (World.leavesCallback 1) interruptedWait).any (fun made =>
      made.1.any (fun moment => decide (1 ∈ (moment.world.lock (.loose 0)).waiting)) &&
      shows 1 (·.isGivingUp) (observations made.1)) = true := by
    decide +kernel
  obtain ⟨⟨moments, v⟩, follows, state⟩ := (Option.any_eq_true _ _).mp made
  simp only [Bool.and_eq_true, List.any_eq_true, decide_eq_true_eq] at state
  have course : Course (fun w self => w.leavesCallback 1 self = true) World.pair moments v :=
    World.course_of_follow (fun _ _ => id) follows
  exact ⟨moments, v, World.pair_isStill, course, state.1, (shows_iff Note.isGivingUp_iff).mp state.2,
    no_wakeup_lost World.pair_isStill course⟩

end

end StopTheWorld
