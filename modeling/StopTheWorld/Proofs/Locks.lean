import StopTheWorld.Proofs.Layout

namespace StopTheWorld

/-! What a step makes of an owned lock: who takes it, who is in its critical section and who waits. -/

/-- The frame is that of an acquisition which passes the check. -/
def Frame.acquires (check : Acquisition → Bool) : Frame → Bool
  | acquisition a => check a
  | _ => false

/-- The acquisition is in the critical section of the lock between two of its steps. -/
def Acquisition.isWithin (ref : LockRef) (a : Acquisition) : Bool :=
  a.lock = ref && (a.point = .checkFlag || a.point = .checkYield || a.point = .await)

/-- The acquisition is in front of the critical section of the lock, perhaps in the waiting room. -/
def Acquisition.isBefore (ref : LockRef) (a : Acquisition) : Bool :=
  a.lock = ref && a.point = .test

/-- The global lock that a step gives back, if it is owned by the one on whose behalf. -/
def Frame.gives? (self : ThreadId) (w : World) : Frame → Option (GlobalId × ThreadId)
  | start (.access (.globalLeave lock owner)) => some (lock, owner.getD self)
  | start (.release n) => some ((w.manager n).globalLock, self)
  | polling p =>
    if p.point = .leaveGlobal then some ((w.manager p.manager).globalLock, self) else none
  | pausing p =>
    if p.point = .leaveGlobal ∧ p.holdsGlobal = true then
      some ((w.manager p.manager).globalLock, self)
    else none
  | blocking b =>
    if b.point = .release ∧ b.holdsGlobal = true then
      some ((w.manager b.manager).globalLock, self)
    else none
  | _ => none

/-- What a step makes of a lock. -/
inductive Effect.Handles (ref : LockRef) (self : ThreadId) (w : World) (frame : Frame)
    (effect : Effect) : Prop
  | keeps (same : effect.world.lock ref = w.lock ref)
  /-- A waiter takes it. -/
  | takes {a : Acquisition} (top : frame = .acquisition a) (own : a.lock = ref)
      (test : a.point = .test) (isOpen : (w.lock ref).IsOpen) (free : (w.lock ref).IsFree)
      (same : effect.world.lock ref = (w.lock ref).take a.owner)
  | tries {lock : GlobalId} {owner : Option ThreadId}
      (top : frame = .start (.access (.globalTryEnter lock owner))) (own : ref = .global lock)
      (isOpen : (w.lock ref).IsOpen) (free : (w.lock ref).IsFree)
      (same : effect.world.lock ref = (w.lock ref).take (owner.getD self))
  /-- A waiter finds it owned, and stays in the critical section to look at its flag. -/
  | enters {a : Acquisition} (top : frame = .acquisition a) (own : a.lock = ref)
      (test : a.point = .test) (isOpen : (w.lock ref).IsOpen) (owned : ¬ (w.lock ref).IsFree)
      (same : effect.world.lock ref = (w.lock ref).enter self)
  | exits {a : Acquisition} (top : frame = .acquisition a) (own : a.lock = ref)
      (within : a.point = .checkFlag ∨ a.point = .checkYield)
      (same : effect.world.lock ref = (w.lock ref).exit)
  | awaits {a : Acquisition} (top : frame = .acquisition a) (own : a.lock = ref)
      (stands : a.point = .await ∨
        a.point = .test ∧ (w.lock ref).IsOpen ∧ ¬ (w.lock ref).IsFree)
      (waits : effect.control.enters (Frame.acquires (·.isBefore ref)) = true)
      (same : effect.world.lock ref = (w.lock ref).await self)
  | clears (top : frame = .release ref .clear) (isOpen : (w.lock ref).IsOpen)
      (same : effect.world.lock ref = (w.lock ref).clear)
  | notifies (same : effect.world.lock ref = (w.lock ref).notify)
  /-- It is given back and its waiting room notified at once, if it is the owner's. -/
  | leaves {lock : GlobalId} {owner : ThreadId} (own : ref = .global lock)
      (isOpen : (w.lock ref).IsOpen) (gives : frame.gives? self w = some (lock, owner))
      (same : effect.world.lock ref = (w.lock ref).leave owner)

/-- The steps of taking a lock. -/
inductive Acquisition.Goes (a : Acquisition) (self : ThreadId) (w : World) : Effect → Prop
  | installs {target : ThreadId} {yields : Yield} (patience : a.patience = .interruptible target yields)
      (point : a.point = .install) :
      Goes a self w
        { world := w.modifyInterrupter target (·.install (some (.notify a.lock)))
          control := .goto (.acquisition
            { a with saved := (w.interrupter target).callback, point := .test }) }
  | takes {control : Control} (point : a.point = .test) (isOpen : (w.lock a.lock).IsOpen)
      (fresh : self ∉ (w.lock a.lock).waiting) (free : (w.lock a.lock).IsFree)
      (done : a.patience = .uninterruptible ∧ control = .reply (.succeeded .nothing) ∨
        a.patience ≠ .uninterruptible ∧
          control = .goto (.acquisition { a with point := .restore true })) :
      Goes a self w
        { world := w.modifyLock a.lock (·.take a.owner), control
          notes := [.took a.lock a.owner] }
  | sleeps (patience : a.patience = .uninterruptible) (point : a.point = .test)
      (isOpen : (w.lock a.lock).IsOpen) (fresh : self ∉ (w.lock a.lock).waiting)
      (owned : ¬ (w.lock a.lock).IsFree) :
      Goes a self w
        { world := w.modifyLock a.lock (·.await self), control := .goto (.acquisition a) }
  | enters (patience : a.patience ≠ .uninterruptible) (point : a.point = .test)
      (isOpen : (w.lock a.lock).IsOpen) (fresh : self ∉ (w.lock a.lock).waiting)
      (owned : ¬ (w.lock a.lock).IsFree) :
      Goes a self w
        { world := w.modifyLock a.lock (·.enter self)
          control := .goto (.acquisition { a with point := .checkFlag }) }
  /-- The flag is seen, and is down again. -/
  | obeys {target : ThreadId} {yields : Yield} (patience : a.patience = .interruptible target yields)
      (point : a.point = .checkFlag) (flag : (w.interrupter target).interrupted = true) :
      Goes a self w
        { world := (w.modifyInterrupter target (·.lower)).modifyLock a.lock (·.exit)
          control := .goto (.acquisition { a with point := .restore false }) }
  | looks {target : ThreadId} {yields : Yield} (patience : a.patience = .interruptible target yields)
      (point : a.point = .checkFlag) (flag : (w.interrupter target).interrupted = false) :
      Goes a self w
        { world := w, control := .goto (.acquisition { a with point := .checkYield }) }
  | yields {target : ThreadId} {reason : Yield} (patience : a.patience = .interruptible target reason)
      (point : a.point = .checkYield) (reasoned : w.yields reason = true) :
      Goes a self w
        { world := w.modifyLock a.lock (·.exit)
          control := .goto (.acquisition { a with point := .restore false }) }
  | stays {target : ThreadId} {reason : Yield} (patience : a.patience = .interruptible target reason)
      (point : a.point = .checkYield) (none : w.yields reason = false) :
      Goes a self w
        { world := w, control := .goto (.acquisition { a with point := .await }) }
  | awaits (patience : a.patience ≠ .uninterruptible) (point : a.point = .await) :
      Goes a self w
        { world := w.modifyLock a.lock (·.await self)
          control := .goto (.acquisition { a with point := .test }) }
  | restores {target : ThreadId} {yields : Yield} {acquired : Bool}
      (patience : a.patience = .interruptible target yields) (point : a.point = .restore acquired) :
      Goes a self w
        { world := w.modifyInterrupter target (·.install a.saved)
          control := .reply (if acquired then .succeeded .nothing else .failed .interrupted) }

section

variable {ref : LockRef} {w v : World} {self thread : ThreadId} {frame : Frame} {rest : List Frame}
  {effect : Effect} {notes : List Note}

namespace World

theorem lock_modifyManager (n : ManagerId) {f : Manager → Manager}
    (keeps : ∀ manager, (f manager).pauseLock = manager.pauseLock) :
    (w.modifyManager n f).lock ref = w.lock ref := by
  cases ref with
  | global | loose => rfl
  | pause m =>
    simp only [lock, manager_modifyManager]
    split
    · rename_i same
      rw [keeps, same]
    · rfl

@[simp] theorem lock_modifyRegistry (registry : RegistryRef) (f : Registry → Registry) :
    (w.modifyRegistry registry f).lock ref = w.lock ref := by
  cases registry with
  | loose => cases ref <;> rfl
  | manager n => exact lock_modifyManager n fun _ => rfl

@[simp] theorem lock_setPhaser (phaser : PhaserRef) (value : Phaser) :
    (w.setPhaser phaser value).lock ref = w.lock ref := by
  cases phaser with
  | loose => cases ref <;> rfl
  | registry registry => exact lock_modifyRegistry registry _

@[simp] theorem lock_modifyInterrupter (target : ThreadId)
    (f : Interrupter Wake → Interrupter Wake) :
    (w.modifyInterrupter target f).lock ref = w.lock ref := by
  cases ref <;> rfl

@[simp] theorem lock_modifyRecord (record : RecordId) (f : Record Deferred → Record Deferred) :
    (w.modifyRecord record f).lock ref = w.lock ref := by
  cases ref <;> rfl

@[simp] theorem lock_setStack (thread : ThreadId) (stack : List Frame) :
    (w.setStack thread stack).lock ref = w.lock ref := by
  cases ref <;> rfl

@[simp] theorem lock_setInPause (thread : ThreadId) (inPause : Bool) :
    (w.setInPause thread inPause).lock ref = w.lock ref := by
  cases ref <;> rfl

@[simp] theorem lock_publish (n : ManagerId) (event : Event) :
    (w.publish n event).lock ref = w.lock ref :=
  lock_modifyManager n fun _ => rfl

theorem lock_unsubscribe (name : String) : (w.unsubscribe name).lock ref = w.lock ref := by
  unfold unsubscribe
  split
  · rfl
  · rename_i s _
    have kept : (w.modifyManager s.manager fun m => { m with bus := m.bus.dropReceiver s.key }).lock
        ref = w.lock ref := lock_modifyManager _ fun _ => rfl
    rw [← kept]
    cases ref <;> rfl

theorem lock_subscribe (n : ManagerId) (name : String) :
    (w.subscribe n name).lock ref = w.lock ref := by
  refine Eq.trans ?_ (lock_unsubscribe name)
  refine Eq.trans ?_ (lock_modifyManager (w := w.unsubscribe name) n
    (f := fun manager => { manager with bus := ((w.unsubscribe name).manager n).bus.subscribe.1 })
    fun _ => rfl)
  cases ref <;> rfl

theorem lock_checkInterrupt (thread : ThreadId) :
    (w.checkInterrupt thread).1.lock ref = w.lock ref := by
  unfold checkInterrupt
  split
  · exact lock_modifyInterrupter thread _
  · rfl

theorem lock_depart {phaser : PhaserRef} {phase : Nat}
    (departs : w.depart phaser = .ok (v, phase, notes)) : v.lock ref = w.lock ref := by
  unfold depart at departs
  dsimp only at departs
  split at departs
  · simp at departs
  · simp only [Except.ok.injEq, Prod.mk.injEq] at departs
    obtain ⟨rfl, -⟩ := departs
    exact lock_setPhaser phaser _

end World

namespace Effect.Handles

theorem leaveGlobal {lock : GlobalId} {owner : ThreadId} {control : Control}
    (leaves : w.leaveGlobal lock owner = some (v, notes))
    (gives : frame.gives? self w = some (lock, owner)) :
    Handles ref self w frame ⟨v, control, notes⟩ := by
  simp only [World.leaveGlobal] at leaves
  split at leaves
  · rename_i isOpen
    obtain ⟨rfl, -⟩ := Prod.mk.inj (Option.some.inj leaves)
    by_cases same : ref = .global lock
    · subst same
      exact .leaves rfl isOpen gives (by simp [World.lock_modifyLock])
    · exact .keeps (by simp [World.lock_modifyLock, same])
  · simp at leaves

end Effect.Handles

theorem Access.handles {access : Access} (step : access.advance self w = some effect) :
    effect.Handles ref self w (.start (.access access)) := by
  cases access with
  | globalLeave lock owner =>
    obtain ⟨v, notes, leaves, rfl⟩ := World.leaves_of_bind step
    exact .leaveGlobal leaves rfl
  | globalTryEnter lock owner =>
    simp only [advance] at step
    split at step
    · rename_i isOpen
      split at step <;> obtain rfl := Option.some.inj step
      · rename_i free
        by_cases same : ref = .global lock
        · subst same
          exact .tries rfl rfl isOpen free (by simp [World.lock_modifyLock])
        · exact .keeps (by simp [World.lock_modifyLock, same])
      · exact .keeps rfl
    · simp at step
  | phaserDepart phaser =>
    simp only [advance] at step
    split at step <;> obtain rfl := Option.some.inj step
    · exact .keeps rfl
    · exact .keeps (World.lock_depart ‹_›)
  | phaserRegister phaser =>
    obtain rfl := Option.some.inj step
    exact .keeps (World.lock_setPhaser _ _)
  | unsubscribe name =>
    obtain rfl := Option.some.inj step
    exact .keeps (World.lock_unsubscribe name)
  | subscribe n name =>
    obtain rfl := Option.some.inj step
    exact .keeps (World.lock_subscribe n name)
  | check other =>
    obtain rfl := Option.some.inj step
    exact .keeps (World.lock_checkInterrupt _)
  | unblock =>
    simp only [advance] at step
    split at step <;> obtain rfl := Option.some.inj step
    · exact .keeps rfl
    · refine .keeps ?_
      cases ref <;> rfl
  | _ =>
    obtain rfl := Option.some.inj step
    refine .keeps ?_
    cases ref <;> rfl

theorem Op.handles {op : Op} (step : op.advance self w = some effect) :
    effect.Handles ref self w (.start op) := by
  cases op with
  | access a => exact Access.handles step
  | release n =>
    obtain ⟨v, notes, leaves, rfl⟩ := World.leaves_of_bind step
    exact .leaveGlobal leaves rfl
  | deferLookup | unlock =>
    simp only [advance] at step
    split at step <;> obtain rfl := Option.some.inj step <;>
      exact .keeps (by cases ref <;> rfl)
  | _ =>
    obtain rfl := Option.some.inj step
    exact .keeps (by cases ref <;> rfl)

theorem Acquisition.goes {a : Acquisition} (step : a.advance self w = some effect) :
    a.Goes self w effect := by
  obtain ⟨lock, owner, patience, saved, point⟩ := a
  have interruptible (target : ThreadId) (yields : Yield) :
      Patience.interruptible target yields ≠ .uninterruptible := by simp
  cases point <;> cases patience <;> simp only [advance, took, gaveUp, reduceCtorEq] at step
  case install.interruptible | restore.interruptible | await.interruptible =>
    obtain rfl := Option.some.inj step
    first
      | exact .installs rfl rfl
      | exact .restores rfl rfl
      | exact .awaits (interruptible _ _) rfl
  case test.uninterruptible =>
    split at step
    · split at step <;> obtain rfl := Option.some.inj step
      · exact .takes rfl (And.left ‹_›) (And.right ‹_›) ‹_› (.inl ⟨rfl, rfl⟩)
      · exact .sleeps rfl rfl (And.left ‹_›) (And.right ‹_›) ‹_›
    · simp at step
  case test.interruptible =>
    split at step
    · split at step <;> obtain rfl := Option.some.inj step
      · exact .takes rfl (And.left ‹_›) (And.right ‹_›) ‹_› (.inr ⟨interruptible _ _, rfl⟩)
      · exact .enters (interruptible _ _) rfl (And.left ‹_›) (And.right ‹_›) ‹_›
    · simp at step
  case checkFlag.interruptible =>
    split at step <;> obtain rfl := Option.some.inj step
    · exact .obeys rfl rfl ‹_›
    · exact .looks rfl rfl (Bool.eq_false_iff.mpr ‹_›)
  case checkYield.interruptible =>
    split at step <;> obtain rfl := Option.some.inj step
    · exact .yields rfl rfl ‹_›
    · exact .stays rfl rfl (Bool.eq_false_iff.mpr ‹_›)

theorem Acquisition.Goes.handles {a : Acquisition} (goes : a.Goes self w effect) :
    effect.Handles ref self w (.acquisition a) := by
  have wrote (f : OwnedLock → OwnedLock) (u : World) :
      (u.modifyLock a.lock f).lock a.lock = f (u.lock a.lock) := by
    rw [World.lock_modifyLock, if_pos rfl]
  by_cases own : a.lock = ref
  · subst own
    cases goes with
    | installs | restores => exact .keeps (World.lock_modifyInterrupter _ _)
    | looks | stays => exact .keeps rfl
    | takes point isOpen fresh free => exact .takes rfl rfl point isOpen free (wrote _ w)
    | sleeps _ point isOpen fresh owned =>
      refine .awaits rfl rfl (.inr ⟨point, isOpen, owned⟩) ?_ (wrote _ w)
      simp [Control.enters, Frame.acquires, Acquisition.isBefore, point]
    | enters _ point isOpen fresh owned => exact .enters rfl rfl point isOpen owned (wrote _ w)
    | obeys _ point =>
      refine .exits rfl rfl (.inl point) ((wrote _ _).trans ?_)
      rw [World.lock_modifyInterrupter]
    | yields _ point => exact .exits rfl rfl (.inr point) (wrote _ w)
    | awaits _ point =>
      refine .awaits rfl rfl (.inl point) ?_ (wrote _ w)
      simp [Control.enters, Frame.acquires, Acquisition.isBefore]
  · refine .keeps ?_
    cases goes <;> simp [World.lock_modifyLock, Ne.symm own]

theorem Frame.handles (step : frame.advance self w = some effect) :
    effect.Handles ref self w frame := by
  have checking {thread : ThreadId} {reply : Reply} {u : World}
      (checks : w.checkInterrupt thread = (u, reply)) : u.lock ref = w.lock ref := by
    have kept : (w.checkInterrupt thread).1.lock ref = w.lock ref :=
      World.lock_checkInterrupt thread
    rwa [checks] at kept
  cases frame with
  | start op => exact Op.handles step
  | acquisition a => exact (Acquisition.goes step).handles
  | release lock point =>
    simp only [advance, Release.advance] at step
    split at step
    · split at step
      · obtain rfl := Option.some.inj step
        by_cases same : ref = lock
        · subst same
          exact .clears rfl ‹_› (by simp [World.lock_modifyLock])
        · exact .keeps (by simp [World.lock_modifyLock, same])
      · simp at step
    · obtain rfl := Option.some.inj step
      by_cases same : ref = lock
      · subst same
        exact .notifies (by simp [World.lock_modifyLock])
      · exact .keeps (by simp [World.lock_modifyLock, same])
  | notify lock =>
    simp only [advance, OwnedLock.advanceNotify] at step
    split at step
    · obtain rfl := Option.some.inj step
      by_cases same : ref = lock
      · subst same
        exact .notifies (by simp [World.lock_modifyLock])
      · exact .keeps (by simp [World.lock_modifyLock, same])
    · simp at step
  | keepGuard =>
    obtain rfl := Option.some.inj step
    exact .keeps (by cases ref <;> rfl)
  | withdrawal x =>
    simp only [advance, Withdrawal.advance] at step
    repeat' split at step
    all_goals first
      | obtain rfl := Option.some.inj step
      | simp at step
    all_goals first
      | exact .keeps rfl
      | exact .keeps (World.lock_modifyRegistry _ _)
      | exact .keeps (World.lock_depart ‹_›)
  | _ =>
    simp only [advance, Arrival.advance, Enrolment.advance, Sleeping.advance, Parking.advance,
      Interruption.advance, Visit.advance, Script.advance, Sequence.advance, Drain.advance,
      Phases.advance, Resuming.advance, Polling.advance, Entering.advance, Leaving.advance,
      Pausing.advance, Foreign.advance, Acquiring.advance, Blocking.advance, Trial.advance] at step
    repeat' split at step
    all_goals first
      | (obtain rfl := Option.some.inj step
         refine .keeps ?_
         first
           | (simp only [World.lock_modifyRegistry, World.lock_setPhaser,
               World.lock_modifyInterrupter, World.lock_modifyRecord, World.lock_setInPause,
               World.lock_publish]
              done)
           | exact checking ‹_›
           | exact checking (Prod.eta _).symm
           | exact World.lock_modifyManager _ fun _ => rfl)
      | (obtain ⟨v, notes, leaves, rfl⟩ := World.leaves_of_bind step
         exact .leaveGlobal leaves (by simp [gives?, *]))
      | simp at step

theorem Frame.isLeaf_of_acquires {check : Acquisition → Bool} (passes : frame.acquires check = true) :
    frame.isLeaf = true := by
  cases frame <;> first | rfl | simp [acquires] at passes

/-- Whoever comes to take a lock begins with that, or goes on with it. -/
theorem Frame.acquisition_of_step {a' : Acquisition} (step : frame.advance self w = some effect)
    (top : effect.control.top? = some (.acquisition a')) :
    (∃ lock owner patience, a' = .begin lock owner patience) ∨
      ∃ a, frame = .acquisition a ∧ a.Goes self w effect ∧
        effect.control = .goto (.acquisition a') := by
  have begun {lock : LockRef} {owner : ThreadId} {patience : Patience}
      (same : some (Frame.acquisition (.begin lock owner patience)) = some (.acquisition a')) :
      ∃ lock owner patience, a' = Acquisition.begin lock owner patience :=
    ⟨lock, owner, patience, (Frame.acquisition.inj (Option.some.inj same)).symm⟩
  cases frame with
  | acquisition a =>
    refine .inr ⟨a, rfl, Acquisition.goes step, ?_⟩
    cases Acquisition.goes step with
    | takes _ _ _ _ done =>
      obtain ⟨-, rfl⟩ | ⟨-, rfl⟩ := done
      · simp [Control.top?] at top
      · exact congrArg Control.goto (Option.some.inj top)
    | restores => simp [Control.top?] at top
    | _ => exact congrArg Control.goto (Option.some.inj top)
  | start op =>
    refine .inl ?_
    cases op with
    | access a =>
      obtain ⟨-, -, ⟨value, control⟩ | ⟨message, control⟩⟩ := Access.agrees (m := 0) step <;>
        simp [control, Control.top?] at top
    | release n =>
      obtain ⟨v, notes, leaves, rfl⟩ := World.leaves_of_bind step
      simp [Control.top?] at top
    | deferLookup | unlock =>
      simp only [advance, Op.advance] at step
      split at step <;> obtain rfl := Option.some.inj step <;> simp [Control.top?] at top
    | globalEnter | globalEnterInterruptibly | lock | lockInterruptibly =>
      obtain rfl := Option.some.inj step
      exact begun top
    | _ =>
      obtain rfl := Option.some.inj step
      simp [Control.top?] at top
  | _ =>
    refine .inl ?_
    simp only [advance, Release.advance, OwnedLock.advanceNotify, Arrival.advance,
      Enrolment.advance, Withdrawal.advance, Sleeping.advance, Parking.advance,
      Interruption.advance, Visit.advance, Script.advance, Sequence.advance, Drain.advance,
      Phases.advance, Resuming.advance, Polling.advance, Entering.advance, Leaving.advance,
      Pausing.advance, Foreign.advance, Acquiring.advance, Blocking.advance, Trial.advance] at step
    repeat' split at step
    all_goals first
      | (obtain rfl := Option.some.inj step
         first
           | exact begun top
           | simp [Control.top?] at top)
      | (obtain ⟨v, notes, leaves, rfl⟩ := World.leaves_of_bind step
         simp [Control.top?] at top)
      | simp at step

/-- Whoever is at work in a critical section is inside, and who is in a waiting room waits there. -/
structure World.Rooms (w : World) : Prop where
  inside : ∀ {ref thread}, w.isAt (Frame.acquires (·.isWithin ref)) thread = true →
    (w.lock ref).inside = some thread
  waiting : ∀ {ref thread}, thread ∈ (w.lock ref).waiting →
    w.isAt (Frame.acquires (·.isBefore ref)) thread = true

/-- What is no step of a thread at most wakes somebody up. -/
theorem World.lock_other {move : Move} (ref : LockRef) (moves : w.move move = some (v, notes))
    (other : ∀ thread, move ≠ .run thread) :
    v.lock ref = w.lock ref ∨ ∃ thread, v.lock ref = (w.lock ref).rouse thread := by
  cases move with
  | run thread => exact absurd rfl (other thread)
  | submit thread op =>
    obtain ⟨u, submit, same⟩ := Option.map_eq_some_iff.mp moves
    obtain ⟨rfl, rfl⟩ := Prod.mk.inj same
    unfold World.submit at submit
    split at submit
    · obtain rfl := Option.some.inj submit
      exact .inl (World.lock_setStack _ _)
    · simp at submit
  | elapse span =>
    obtain ⟨rfl, rfl⟩ := Prod.mk.inj (Option.some.inj moves)
    exact .inl (by cases ref <;> rfl)
  | rouse thread =>
    obtain ⟨rfl, rfl⟩ := Prod.mk.inj (Option.some.inj moves)
    unfold World.rouse
    split
    · rw [World.lock_modifyLock]
      split
      · rename_i same
        exact .inr ⟨thread, same ▸ rfl⟩
      · exact .inl rfl
    · exact .inl (World.lock_setStack _ _)
    · split
      · exact .inl (World.lock_setStack _ _)
      · exact .inl rfl
    · exact .inl rfl

/-- Whoever sleeps in a waiting room takes no step. -/
theorem World.awake_of_isBefore (stack : w.stack self = frame :: rest)
    (step : frame.advance self w = some effect)
    (waits : w.isAt (Frame.acquires (·.isBefore ref)) self = true) :
    self ∉ (w.lock ref).waiting := by
  intro asleep
  obtain ⟨top, below, same, waits⟩ := World.isAt_iff.mp waits
  obtain ⟨rfl, -⟩ := List.cons.inj (stack.symm.trans same)
  cases frame with
  | acquisition a =>
    simp only [Frame.acquires, Acquisition.isBefore, Bool.and_eq_true, decide_eq_true_eq] at waits
    obtain ⟨rfl, point⟩ := waits
    cases Acquisition.goes step <;> simp_all
  | _ => simp [Frame.acquires] at waits

namespace World.Rooms

theorem awake (rooms : w.Rooms) (stack : w.stack self = frame :: rest)
    (step : frame.advance self w = some effect) : self ∉ (w.lock ref).waiting :=
  fun asleep => World.awake_of_isBefore stack step (rooms.waiting asleep) asleep

theorem isWithin_of_step (rooms : w.Rooms) (stack : w.stack self = frame :: rest)
    (step : frame.advance self w = some effect)
    (within : effect.control.enters (Frame.acquires (·.isWithin ref)) = true) :
    (effect.world.lock ref).inside = some self := by
  obtain ⟨top, entered, passes⟩ := (Option.any_eq_true _ _).mp within
  obtain ⟨a', rfl⟩ : ∃ a', top = .acquisition a' := by
    cases top <;> simp [Frame.acquires] at passes ⊢
  simp only [Frame.acquires, Acquisition.isWithin, Bool.and_eq_true, Bool.or_eq_true,
    decide_eq_true_eq] at passes
  obtain ⟨rfl, point⟩ := passes
  obtain ⟨lock, owner, patience, rfl⟩ | ⟨a, rfl, goes, told⟩ :=
    Frame.acquisition_of_step step entered
  · cases patience <;> simp [Acquisition.begin] at point
  have before (before : a.point = .checkFlag ∨ a.point = .checkYield) :
      (w.lock a.lock).inside = some self := by
    refine rooms.inside (World.isAt_iff.mpr ⟨_, rest, stack, ?_⟩)
    rcases before with before | before <;> simp [Frame.acquires, Acquisition.isWithin, before]
  cases goes with
  | enters =>
    cases told
    dsimp only
    rw [World.lock_modifyLock, if_pos rfl]
    rfl
  | looks _ here | stays _ here =>
    cases told
    exact before (by simp [here])
  | takes _ _ _ _ done =>
    obtain ⟨-, rfl⟩ | ⟨-, rfl⟩ := done
    · cases told
    · cases told
      simp at point
  | sleeps _ here =>
    cases told
    simp [here] at point
  | _ =>
    cases told <;> simp at point

/-- Nobody else gets in the way of whoever is in a critical section. -/
theorem inside_of_step (rooms : w.Rooms) (stack : w.stack self = frame :: rest)
    (step : frame.advance self w = some effect) (other : thread ≠ self)
    (inside : (w.lock ref).inside = some thread) : (effect.world.lock ref).inside = some thread := by
  have closed (isOpen : (w.lock ref).IsOpen) : False := by
    rw [OwnedLock.IsOpen, inside] at isOpen
    simp at isOpen
  have intruder {a : Acquisition} (top : frame = .acquisition a) (own : a.lock = ref)
      (point : a.point = .checkFlag ∨ a.point = .checkYield ∨ a.point = .await) : False := by
    subst top
    have mine : (w.lock ref).inside = some self := by
      refine rooms.inside (World.isAt_iff.mpr ⟨_, rest, stack, ?_⟩)
      rcases point with point | point | point <;>
        simp [Frame.acquires, Acquisition.isWithin, own, point]
    exact other (Option.some.inj (inside.symm.trans mine))
  have handles : effect.Handles ref self w frame := Frame.handles step
  cases handles with
  | keeps same => rw [same, inside]
  | takes _ _ _ isOpen | tries _ _ isOpen | enters _ _ _ isOpen | clears _ isOpen
  | leaves _ isOpen => exact (closed isOpen).elim
  | exits top own within => exact (intruder top own (by tauto)).elim
  | awaits top own stands =>
    obtain point | ⟨-, isOpen, -⟩ := stands
    · exact (intruder top own (by tauto)).elim
    · exact (closed isOpen).elim
  | notifies same =>
    rw [same]
    exact inside

/-- Only whoever waits comes into the waiting room. -/
theorem waiting_of_step (step : frame.advance self w = some effect)
    (waits : thread ∈ (effect.world.lock ref).waiting) :
    thread ∈ (w.lock ref).waiting ∨
      thread = self ∧ effect.control.enters (Frame.acquires (·.isBefore ref)) = true := by
  have handles : effect.Handles ref self w frame := Frame.handles step
  cases handles with
  | keeps same | takes _ _ _ _ _ same | tries _ _ _ _ same | enters _ _ _ _ _ same
  | exits _ _ _ same | clears _ _ same =>
    rw [same] at waits
    exact .inl waits
  | awaits _ _ _ before same =>
    rw [same, OwnedLock.await, List.mem_append, List.mem_singleton] at waits
    exact waits.imp_right fun own => ⟨own, before⟩
  | notifies same =>
    rw [same] at waits
    simp [OwnedLock.notify] at waits
  | leaves _ _ _ same =>
    rw [same, OwnedLock.leave] at waits
    split at waits
    · simp [OwnedLock.notify] at waits
    · exact .inl waits

theorem step (rooms : w.Rooms) (laid : w.IsLaid) (steps : w.step self = some (v, notes)) :
    v.Rooms := by
  obtain ⟨frame, rest, effect, stack, step, rfl, -⟩ := World.step_eq_some steps
  have isAt {check : Acquisition → Bool} (thread : ThreadId) :
      (effect.world.setStack self (effect.control.stack rest)).isAt (Frame.acquires check) thread =
        if thread = self then effect.control.enters (Frame.acquires check)
        else w.isAt (Frame.acquires check) thread :=
    World.isAt_step Frame.isLeaf_of_acquires (stack ▸ laid self) step thread
  constructor
  · intro ref thread within
    rw [World.lock_setStack]
    rw [isAt] at within
    split at within
    · rename_i same
      exact same ▸ rooms.isWithin_of_step stack step within
    · exact rooms.inside_of_step stack step ‹_› (rooms.inside within)
  · intro ref thread waits
    rw [World.lock_setStack] at waits
    rw [isAt]
    obtain waits | ⟨rfl, before⟩ := waiting_of_step step waits
    · rw [if_neg fun same => rooms.awake stack step (same ▸ waits)]
      exact rooms.waiting waits
    · rw [if_pos rfl, before]

theorem move {move : Move} (rooms : w.Rooms) (laid : w.IsLaid)
    (moves : w.move move = some (v, notes)) : v.Rooms := by
  by_cases runs : ∃ self, move = .run self
  · obtain ⟨self, rfl⟩ := runs
    exact rooms.step laid moves
  · have other (self : ThreadId) : move ≠ .run self := fun same => runs ⟨self, same⟩
    have isAt {check : Acquisition → Bool} (thread : ThreadId) :
        v.isAt (Frame.acquires check) thread = w.isAt (Frame.acquires check) thread :=
      World.isAt_other (fun _ => rfl) (fun rouses => by cases rouses <;> rfl) moves (other thread)
    constructor
    · intro ref thread within
      rw [isAt] at within
      have inside := rooms.inside within
      obtain same | ⟨_, same⟩ := World.lock_other ref moves other <;> rw [same]
      · exact inside
      · exact inside
    · intro ref thread waits
      rw [isAt]
      refine rooms.waiting ?_
      obtain same | ⟨_, same⟩ := World.lock_other ref moves other <;> rw [same] at waits
      · exact waits
      · exact List.mem_of_mem_filter waits

end World.Rooms

/-- Nobody is in the critical section of the lock but at work there, and nobody is in its waiting room
but waits. -/
structure World.Attended (ref : LockRef) (w : World) : Prop where
  inside : ∀ {thread}, (w.lock ref).inside = some thread →
    w.isAt (Frame.acquires (·.isWithin ref)) thread = true
  waiting : ∀ {thread}, thread ∈ (w.lock ref).waiting →
    w.isAt (Frame.acquires (·.isBefore ref)) thread = true

namespace World.Attended

theorem at_work (attended : w.Attended ref) (stack : w.stack self = frame :: rest)
    (inside : (w.lock ref).inside = some self) :
    ∃ a, frame = .acquisition a ∧ a.lock = ref ∧
      (a.point = .checkFlag ∨ a.point = .checkYield ∨ a.point = .await) := by
  obtain ⟨top, below, same, within⟩ := World.isAt_iff.mp (attended.inside inside)
  obtain ⟨rfl, -⟩ := List.cons.inj (stack.symm.trans same)
  cases frame with
  | acquisition a =>
    simp only [Frame.acquires, Acquisition.isWithin, Bool.and_eq_true, Bool.or_eq_true,
      decide_eq_true_eq, or_assoc] at within
    exact ⟨a, rfl, within⟩
  | _ => simp [Frame.acquires] at within

/-- Whoever stays in the critical section goes on with its work there. -/
theorem isWithin_of_step (attended : w.Attended ref) (stack : w.stack self = frame :: rest)
    (step : frame.advance self w = some effect)
    (inside : (effect.world.lock ref).inside = some self) :
    effect.control.enters (Frame.acquires (·.isWithin ref)) = true := by
  have top : ∃ a, frame = .acquisition a ∧ a.lock = ref := by
    have handles : effect.Handles ref self w frame := Frame.handles step
    cases handles with
    | keeps same | notifies same =>
      rw [same] at inside
      obtain ⟨a, top, own, -⟩ := attended.at_work stack inside
      exact ⟨a, top, own⟩
    | takes top own | enters top own | exits top own | awaits top own => exact ⟨_, top, own⟩
    | tries _ _ isOpen _ same | clears _ isOpen same =>
      rw [same] at inside
      exact absurd (isOpen.symm.trans inside) (by simp)
    | leaves _ isOpen _ same =>
      rw [same, OwnedLock.leave] at inside
      split at inside <;> exact absurd (isOpen.symm.trans inside) (by simp)
  obtain ⟨a, rfl, rfl⟩ := top
  have elsewhere (inside : (w.lock a.lock).inside = some self)
      (away : a.point ≠ .checkFlag ∧ a.point ≠ .checkYield ∧ a.point ≠ .await) : False := by
    obtain ⟨b, ⟨⟩, -, within⟩ := attended.at_work stack inside
    tauto
  cases Acquisition.goes step with
  | installs _ point | restores _ point =>
    rw [World.lock_modifyInterrupter] at inside
    exact (elsewhere inside (by simp [point])).elim
  | takes point isOpen =>
    rw [World.lock_modifyLock, if_pos rfl] at inside
    exact absurd (isOpen.symm.trans inside) (by simp)
  | sleeps | obeys | yields | awaits =>
    rw [World.lock_modifyLock, if_pos rfl] at inside
    simp [OwnedLock.await, OwnedLock.exit] at inside
  | enters | looks | stays =>
    simp [Control.enters, Frame.acquires, Acquisition.isWithin]

/-- Nobody is put into the critical section by others. -/
theorem inside_of_other (step : frame.advance self w = some effect) (other : thread ≠ self)
    (inside : (effect.world.lock ref).inside = some thread) :
    (w.lock ref).inside = some thread := by
  have handles : effect.Handles ref self w frame := Frame.handles step
  cases handles with
  | keeps same | takes _ _ _ _ _ same | tries _ _ _ _ same | clears _ _ same | notifies same =>
    rw [same] at inside
    exact inside
  | enters _ _ _ _ _ same =>
    rw [same] at inside
    exact absurd (Option.some.inj inside).symm other
  | exits _ _ _ same | awaits _ _ _ _ same =>
    rw [same] at inside
    simp [OwnedLock.exit, OwnedLock.await] at inside
  | leaves _ _ _ same =>
    rw [same, OwnedLock.leave] at inside
    split at inside <;> exact inside

theorem step (attended : w.Attended ref) (laid : w.IsLaid) (steps : w.step self = some (v, notes)) :
    v.Attended ref := by
  obtain ⟨frame, rest, effect, stack, step, rfl, -⟩ := World.step_eq_some steps
  have isAt {check : Acquisition → Bool} (thread : ThreadId) :
      (effect.world.setStack self (effect.control.stack rest)).isAt (Frame.acquires check) thread =
        if thread = self then effect.control.enters (Frame.acquires check)
        else w.isAt (Frame.acquires check) thread :=
    World.isAt_step Frame.isLeaf_of_acquires (stack ▸ laid self) step thread
  constructor
  · intro thread inside
    rw [World.lock_setStack] at inside
    rw [isAt]
    split
    · rename_i own
      exact attended.isWithin_of_step stack step (own ▸ inside)
    · rename_i other
      exact attended.inside (inside_of_other step other inside)
  · intro thread waits
    rw [World.lock_setStack] at waits
    rw [isAt]
    obtain waits | ⟨rfl, before⟩ := World.Rooms.waiting_of_step step waits
    · have other : thread ≠ self := by
        rintro rfl
        exact World.awake_of_isBefore stack step (attended.waiting waits) waits
      rw [if_neg other]
      exact attended.waiting waits
    · rw [if_pos rfl, before]

theorem move {move : Move} (attended : w.Attended ref) (laid : w.IsLaid)
    (moves : w.move move = some (v, notes)) : v.Attended ref := by
  by_cases runs : ∃ self, move = .run self
  · obtain ⟨self, rfl⟩ := runs
    exact attended.step laid moves
  · have other (self : ThreadId) : move ≠ .run self := fun same => runs ⟨self, same⟩
    have isAt {check : Acquisition → Bool} (thread : ThreadId) :
        v.isAt (Frame.acquires check) thread = w.isAt (Frame.acquires check) thread :=
      World.isAt_other (fun _ => rfl) (fun rouses => by cases rouses <;> rfl) moves (other thread)
    constructor
    · intro thread inside
      rw [isAt]
      refine attended.inside ?_
      obtain same | ⟨_, same⟩ := World.lock_other ref moves other <;> rw [same] at inside
      · exact inside
      · exact inside
    · intro thread waits
      rw [isAt]
      refine attended.waiting ?_
      obtain same | ⟨_, same⟩ := World.lock_other ref moves other <;> rw [same] at waits
      · exact waits
      · exact List.mem_of_mem_filter waits

end World.Attended

/-- Nobody does anything, and nobody is in a critical section or a waiting room. -/
structure World.IsStill (w : World) : Prop where
  idle : ∀ thread, w.stack thread = []
  empty : ∀ ref, (w.lock ref).inside = none ∧ (w.lock ref).waiting = []

theorem World.IsStill.isLaid (still : w.IsStill) : w.IsLaid := fun thread => by
  rw [still.idle]
  trivial

theorem World.IsStill.rooms (still : w.IsStill) : w.Rooms := by
  constructor
  · intro ref thread within
    rw [World.isAt_nil (still.idle thread)] at within
    simp at within
  · intro ref thread waits
    simp [(still.empty ref).2] at waits

theorem Course.rooms {custom : World → ThreadId → Prop} {moments : List Moment}
    (course : Course custom w moments v) (laid : w.IsLaid) (rooms : w.Rooms) : v.Rooms :=
  (course.keeps (P := fun u => u.IsLaid ∧ u.Rooms)
    (fun kept _ moves => ⟨kept.1.move moves, kept.2.move kept.1 moves⟩) ⟨laid, rooms⟩).2

theorem Course.attended {custom : World → ThreadId → Prop} {moments : List Moment}
    (course : Course custom w moments v) (laid : w.IsLaid) (attended : w.Attended ref) :
    v.Attended ref :=
  (course.keeps (P := fun u => u.IsLaid ∧ u.Attended ref)
    (fun kept _ moves => ⟨kept.1.move moves, kept.2.move kept.1 moves⟩) ⟨laid, attended⟩).2

end

end StopTheWorld
