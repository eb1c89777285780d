import StopTheWorld.Proofs.Batches
import StopTheWorld.Proofs.Inside
import StopTheWorld.Proofs.Interrupts
import StopTheWorld.Proofs.Ledger

namespace StopTheWorld

/-! How the interruptible taking of a lock ends, and what it leaves behind. -/

/-- The moment, if it is a step of the thread, leaves the flag of the target as it is. -/
def Moment.KeepsFlag (self target : ThreadId) (moment : Moment) : Prop :=
  moment.move = .run self → ∀ next notes, moment.world.move moment.move = some (next, notes) →
    (next.interrupter target).interrupted = (moment.world.interrupter target).interrupted

/-- The moment, if it is a step of the thread, leaves the owners of all locks as they are. -/
def Moment.KeepsOwners (self : ThreadId) (moment : Moment) : Prop :=
  moment.move = .run self → ∀ next notes, moment.world.move moment.move = some (next, notes) →
    ∀ ref, (next.lock ref).owner = (moment.world.lock ref).owner

/-- The thread takes the lock in a step that finds it free. -/
structure Moment.Acquires (thread : ThreadId) (ref : LockRef) (owner : ThreadId) (moment : Moment) : Prop where
  runs : moment.move = .run thread
  free : (moment.world.lock ref).IsFree
  told : .took ref owner ∈ moment.notes
  owned : ∀ next notes, moment.world.move moment.move = some (next, notes) →
    (next.lock ref).owner = some owner

/-- The thread sees the flag of the target, and takes it down. -/
structure Moment.Obeys (thread target : ThreadId) (moment : Moment) : Prop where
  runs : moment.move = .run thread
  up : (moment.world.interrupter target).interrupted = true
  down : ∀ next notes, moment.world.move moment.move = some (next, notes) →
    (next.interrupter target).interrupted = false

/-- How the taking of the lock of the acquisition through the interrupter of the target has gone. -/
inductive Acquisition.Ends (a : Acquisition) (self target : ThreadId) (reason : Yield)
    (moments : List Moment) : Bool → Prop
  /-- It succeeds: one step takes the lock, and none sees the flag. -/
  | takes {before after : List Moment} {moment : Moment} (parts : moments = before ++ moment :: after)
      (takes : moment.Acquires self a.lock a.owner) (flag : ∀ m ∈ moments, m.KeepsFlag self target)
      (owners : ∀ m ∈ before ++ after, m.KeepsOwners self) : Ends a self target reason moments true
  /-- It fails because of the flag: one step takes that down, and none takes a lock. -/
  | obeys {before after : List Moment} {moment : Moment} (parts : moments = before ++ moment :: after)
      (obeys : moment.Obeys self target) (flag : ∀ m ∈ before ++ after, m.KeepsFlag self target)
      (owners : ∀ m ∈ moments, m.KeepsOwners self) : Ends a self target reason moments false
  /-- It fails for the other reason: no step sees the flag, and none takes a lock. -/
  | yields {moment : Moment} (mem : moment ∈ moments) (runs : moment.move = .run self)
      (reasoned : moment.world.yields reason = true) (flag : ∀ m ∈ moments, m.KeepsFlag self target)
      (owners : ∀ m ∈ moments, m.KeepsOwners self) : Ends a self target reason moments false

/-- The thread begins the acquisition on the stack in the first moment, and ends it in the last, with the
lock or without it. -/
structure Acquisition.Lasts (a : Acquisition) (thread : ThreadId) (rest : List Frame) (first : Moment)
    (mid : List Moment) (last : Moment) (acquired : Bool) : Prop where
  begins : first.move = .run thread
  stack : first.world.stack thread = .acquisition a :: rest
  point : a.point = .install
  waits : ∀ moment ∈ mid, ∃ b, moment.world.stack thread = .acquisition b :: rest
  ends : last.move = .run thread
  restores : ∃ b, last.world.stack thread = .acquisition b :: rest ∧ b.point = .restore acquired

/-- What the steps so far have come to: the acquisition waits, or has only to put the callback back. -/
inductive Acquisition.Stage (a : Acquisition) (self target : ThreadId) (reason : Yield)
    (moments : List Moment) : Acquisition.Point → Prop
  | waits {point : Acquisition.Point} (begun : point ≠ .install)
      (waits : ∀ acquired, point ≠ .restore acquired) (flag : ∀ m ∈ moments, m.KeepsFlag self target)
      (owners : ∀ m ∈ moments, m.KeepsOwners self) : Stage a self target reason moments point
  | ends {acquired : Bool} (ends : a.Ends self target reason moments acquired) :
      Stage a self target reason moments (.restore acquired)

section

variable {ref : LockRef} {w v : World} {self target : ThreadId} {frame : Frame} {rest : List Frame}
  {effect : Effect} {notes : List Note} {moments : List Moment} {moment : Moment} {reason : Yield}
  {a b : Acquisition} {acquired : Bool} {point : Acquisition.Point} {found : Option Wake}
  {custom : World → ThreadId → Prop}

theorem Moment.keepsFlag_other {move : Move} (other : move ≠ .run self) :
    (⟨w, move, notes⟩ : Moment).KeepsFlag self target := fun runs => absurd runs other

theorem Moment.keepsOwners_other {move : Move} (other : move ≠ .run self) :
    (⟨w, move, notes⟩ : Moment).KeepsOwners self := fun runs => absurd runs other

theorem all_snoc {P : Moment → Prop} (before : ∀ m ∈ moments, P m) (last : P moment) :
    ∀ m ∈ moments ++ [moment], P m := by
  simpa [or_imp, forall_and] using ⟨before, last⟩

/-- Steps that have to do with neither do not matter. -/
theorem Acquisition.Ends.snoc (ends : a.Ends self target reason moments acquired)
    (flag : moment.KeepsFlag self target) (owners : moment.KeepsOwners self) :
    a.Ends self target reason (moments ++ [moment]) acquired := by
  cases ends with
  | takes parts takes flags owned =>
    refine .takes (by rw [parts, List.append_assoc, List.cons_append]) takes (all_snoc flags flag) ?_
    rw [← List.append_assoc]
    exact all_snoc owned owners
  | obeys parts obeys flags owned =>
    refine .obeys (by rw [parts, List.append_assoc, List.cons_append]) obeys ?_
      (all_snoc owned owners)
    rw [← List.append_assoc]
    exact all_snoc flags flag
  | yields mem runs reasoned flags owned =>
    exact .yields (List.mem_append_left _ mem) runs reasoned (all_snoc flags flag)
      (all_snoc owned owners)

theorem Acquisition.Stage.snoc (stage : a.Stage self target reason moments point)
    (flag : moment.KeepsFlag self target) (owners : moment.KeepsOwners self) :
    a.Stage self target reason (moments ++ [moment]) point := by
  cases stage with
  | waits begun waits flags owned =>
    exact .waits begun waits (all_snoc flags flag) (all_snoc owned owners)
  | ends ends => exact .ends (ends.snoc flag owners)

/-- What is observed of a step and what it leaves are known from its effect. -/
theorem World.moves_eq (stack : w.stack self = frame :: rest) (step : frame.advance self w = some effect)
    (moves : w.move (.run self) = some (v, notes)) :
    v = effect.world.setStack self (effect.control.stack rest) ∧
      notes = effect.notes ++ effect.control.completion rest := by
  obtain ⟨frame', rest', effect', stack', step', rfl, rfl⟩ := World.step_eq_some moves
  obtain ⟨rfl, rfl⟩ := List.cons.inj (stack.symm.trans stack')
  obtain rfl := Option.some.inj (step.symm.trans step')
  exact ⟨rfl, rfl⟩

theorem Moment.keepsFlag_of_step (stack : w.stack self = frame :: rest)
    (step : frame.advance self w = some effect)
    (same : (effect.world.interrupter target).interrupted = (w.interrupter target).interrupted) :
    (⟨w, .run self, notes⟩ : Moment).KeepsFlag self target := by
  intro _ next told moves
  obtain ⟨rfl, -⟩ := World.moves_eq stack step moves
  rw [World.interrupter_setStack, same]

theorem Moment.keepsOwners_of_step (stack : w.stack self = frame :: rest)
    (step : frame.advance self w = some effect)
    (same : ∀ ref, (effect.world.lock ref).owner = (w.lock ref).owner) :
    (⟨w, .run self, notes⟩ : Moment).KeepsOwners self := by
  intro _ next told moves ref
  obtain ⟨rfl, -⟩ := World.moves_eq stack step moves
  rw [World.lock_setStack, same]

theorem Acquisition.Goes.keepsOwners (goes : b.Goes self w effect) (untaken : effect.notes = [])
    (ref : LockRef) : (effect.world.lock ref).owner = (w.lock ref).owner := by
  have ledger : Ledger ref (w.lock ref).owner effect.notes (effect.world.lock ref).owner := goes.ledger
  rw [untaken] at ledger
  exact ledger.nil_eq

/-- A step of the waiting thread. -/
theorem Acquisition.Stage.step (patience : a.patience = .interruptible target reason)
    (stage : a.Stage self target reason moments point)
    (stack : w.stack self = .acquisition { a with saved := found, point := point } :: rest)
    (moves : w.move (.run self) = some (v, notes)) (here : v.stack self = .acquisition b :: rest) :
    ∃ point', v.stack self = .acquisition { a with saved := found, point := point' } :: rest ∧
      a.Stage self target reason (moments ++ [⟨w, .run self, notes⟩]) point' := by
  obtain ⟨frame, below, effect, top, step, rfl, rfl⟩ := World.step_eq_some moves
  obtain ⟨rfl, rfl⟩ := List.cons.inj (top.symm.trans stack)
  rw [World.stack_setStack, if_pos rfl] at here ⊢
  have flag (same : (effect.world.interrupter target).interrupted = (w.interrupter target).interrupted) :
      (⟨w, .run self, effect.notes ++ effect.control.completion below⟩ : Moment).KeepsFlag self target :=
    Moment.keepsFlag_of_step top step same
  have owners (untaken : effect.notes = []) :
      (⟨w, .run self, effect.notes ++ effect.control.completion below⟩ : Moment).KeepsOwners self :=
    Moment.keepsOwners_of_step top step ((Acquisition.goes step).keepsOwners untaken)
  cases stage with
  | ends ends =>
    cases Acquisition.goes step with
    | restores =>
      cases below with
      | nil => simp [Control.stack] at here
      | cons parent below => simpa [Control.stack] using (List.cons.inj here).2
    | installs _ at' | takes at' | sleeps _ at' | enters _ at' | obeys _ at' | looks _ at'
    | yields _ at' | stays _ at' | awaits _ at' => simp at at'
  | waits begun waits flags owned =>
    cases Acquisition.goes step with
    | installs _ point => exact absurd point begun
    | restores _ point => exact absurd point (waits _)
    | sleeps uninterruptible =>
      rw [patience] at uninterruptible
      simp at uninterruptible
    | takes _ _ _ free done =>
      obtain ⟨uninterruptible, -⟩ | ⟨-, rfl⟩ := done
      · rw [patience] at uninterruptible
        simp at uninterruptible
      · refine ⟨.restore true, rfl, .ends (@Acquisition.Ends.takes _ _ _ _ _ moments [] _ rfl
          ⟨rfl, free, List.mem_singleton_self _, ?_⟩
          (all_snoc flags (flag ?_)) (by simpa using owned))⟩
        · intro next told moved
          obtain ⟨rfl, -⟩ := World.moves_eq top step moved
          rw [World.lock_setStack]
          dsimp only
          rw [World.lock_modifyLock, if_pos rfl, OwnedLock.take_owner]
        · rw [World.interrupter_modifyLock]
    | enters =>
      exact ⟨.checkFlag, rfl, .waits (by simp) (by simp)
        (all_snoc flags (flag (by rw [World.interrupter_modifyLock]))) (all_snoc owned (owners rfl))⟩
    | obeys same _ up =>
      obtain ⟨rfl, rfl⟩ := Patience.interruptible.inj (patience.symm.trans same)
      refine ⟨.restore false, rfl, .ends (@Acquisition.Ends.obeys _ _ _ _ _ moments [] _ rfl ⟨rfl, up, ?_⟩
        (by simpa using flags) (all_snoc owned (owners rfl)))⟩
      intro next told moved
      obtain ⟨rfl, -⟩ := World.moves_eq top step moved
      rw [World.interrupter_setStack]
      dsimp only
      rw [World.interrupter_modifyLock, World.interrupter_modifyInterrupter, if_pos rfl]
      rfl
    | looks =>
      exact ⟨.checkYield, rfl, .waits (by simp) (by simp) (all_snoc flags (flag rfl))
        (all_snoc owned (owners rfl))⟩
    | yields same _ reasoned =>
      obtain ⟨rfl, rfl⟩ := Patience.interruptible.inj (patience.symm.trans same)
      exact ⟨.restore false, rfl, .ends (.yields (List.mem_append_right _ (List.mem_singleton_self _))
        rfl reasoned (all_snoc flags (flag (by rw [World.interrupter_modifyLock])))
        (all_snoc owned (owners rfl)))⟩
    | stays =>
      exact ⟨.await, rfl, .waits (by simp) (by simp) (all_snoc flags (flag rfl))
        (all_snoc owned (owners rfl))⟩
    | awaits =>
      exact ⟨.test, rfl, .waits (by simp) (by simp)
        (all_snoc flags (flag (by rw [World.interrupter_modifyLock]))) (all_snoc owned (owners rfl))⟩

/-- Moves of others leave the wait as it is. -/
theorem Acquisition.Stage.other {move : Move} (stage : a.Stage self target reason moments point)
    (stack : w.stack self = .acquisition { a with saved := found, point := point } :: rest)
    (moves : w.move move = some (v, notes)) (other : move ≠ .run self) :
    v.stack self = .acquisition { a with saved := found, point := point } :: rest ∧
      a.Stage self target reason (moments ++ [⟨w, move, notes⟩]) point := by
  refine ⟨?_, stage.snoc (Moment.keepsFlag_other other) (Moment.keepsOwners_other other)⟩
  obtain ⟨-, same | ⟨op, empty, -⟩ | ⟨frame, frame', below, woken, -, rouses⟩⟩ :=
    World.move_other moves other
  · rw [same, stack]
  · simp [stack] at empty
  · rw [stack] at woken
    obtain ⟨rfl, -⟩ := List.cons.inj woken
    cases rouses

/-- The first step puts the callback in its place. -/
theorem Acquisition.Stage.begun (patience : a.patience = .interruptible target reason)
    (point : a.point = .install) (stack : w.stack self = .acquisition a :: rest)
    (moves : w.move (.run self) = some (v, notes)) :
    v.stack self =
        .acquisition { a with saved := (w.interrupter target).callback, point := .test } :: rest ∧
      a.Stage self target reason [⟨w, .run self, notes⟩] .test := by
  obtain ⟨frame, below, effect, top, step, rfl, rfl⟩ := World.step_eq_some moves
  obtain ⟨rfl, rfl⟩ := List.cons.inj (top.symm.trans stack)
  cases Acquisition.goes step with
  | installs same =>
    obtain ⟨rfl, rfl⟩ := Patience.interruptible.inj (patience.symm.trans same)
    rw [World.stack_setStack, if_pos rfl]
    refine ⟨rfl, .waits (by simp) (by simp) ?_ ?_⟩
    · rw [List.forall_mem_singleton]
      refine Moment.keepsFlag_of_step top step ?_
      dsimp only
      rw [World.interrupter_modifyInterrupter, if_pos rfl]
      rfl
    · rw [List.forall_mem_singleton]
      exact Moment.keepsOwners_of_step top step ((Acquisition.goes step).keepsOwners rfl)
  | takes at' | sleeps _ at' | enters _ at' | obeys _ at' | looks _ at' | yields _ at' | stays _ at'
  | awaits _ at' | restores _ at' => simp [point] at at'

/-- How the wait stands, after any number of moves. -/
theorem Acquisition.Stage.of_course {first : Moment} {mid : List Moment}
    (patience : a.patience = .interruptible target reason) (point : a.point = .install)
    (begins : first.move = .run self) (stack : first.world.stack self = .acquisition a :: rest)
    (waits : ∀ moment ∈ mid, ∃ b, moment.world.stack self = .acquisition b :: rest)
    (course : Course custom first.world (first :: mid) v)
    (here : ∃ b, v.stack self = .acquisition b :: rest) : ∃ point,
      v.stack self =
        .acquisition { a with saved := (first.world.interrupter target).callback, point := point } :: rest ∧
      a.Stage self target reason (first :: mid) point := by
  induction mid using List.reverseRecOn generalizing v with
  | nil =>
    obtain ⟨-, -, moves⟩ := @Course.unsnoc _ _ _ [] _ course
    obtain ⟨world, move, notes⟩ := first
    subst begins
    exact ⟨.test, Acquisition.Stage.begun patience point stack moves⟩
  | append_singleton mid last ih =>
    obtain ⟨before, -, moves⟩ := @Course.unsnoc _ _ _ (first :: mid) _ course
    obtain ⟨point', stands, stage⟩ := ih (fun moment mem => waits moment (List.mem_append_left _ mem))
      before (waits last (List.mem_append_right _ (List.mem_singleton_self _)))
    obtain ⟨world, move, notes⟩ := last
    by_cases own : move = .run self
    · subst own
      obtain ⟨b, here⟩ := here
      exact stage.step patience stands moves here
    · exact ⟨point', stage.other stands moves own⟩

/-- How the taking of a lock that can be interrupted ends. -/
theorem Acquisition.Lasts.ended {first last : Moment} {mid post : List Moment} {next : World}
    (lasts : a.Lasts self rest first mid last acquired) (patience : a.patience = .interruptible target reason)
    (course : Course custom first.world (first :: (mid ++ last :: post)) v)
    (moves : last.world.move last.move = some (next, last.notes)) :
    a.Ends self target reason (first :: mid ++ [last]) acquired ∧
      next.stack self =
        (Control.reply (if acquired then .succeeded .nothing else .failed .interrupted)).stack rest ∧
      (next.interrupter target).callback = (first.world.interrupter target).callback := by
  obtain ⟨-, before, -⟩ := course.split (List.cons_append ..).symm
  obtain ⟨b, done, point⟩ := lasts.restores
  obtain ⟨point', stands, stage⟩ := Acquisition.Stage.of_course patience lasts.point lasts.begins
    lasts.stack lasts.waits before ⟨b, done⟩
  obtain rfl := Frame.acquisition.inj (List.cons.inj (done.symm.trans stands)).1
  obtain rfl : point' = .restore acquired := point
  cases stage with
  | waits _ waits => exact absurd rfl (waits acquired)
  | ends ended =>
    obtain ⟨world, move, notes⟩ := last
    obtain rfl : move = .run self := lasts.ends
    obtain ⟨frame, below, effect, top, step, rfl, -⟩ := World.step_eq_some moves
    obtain ⟨rfl, rfl⟩ := List.cons.inj (top.symm.trans done)
    cases Acquisition.goes step with
    | restores same point =>
      obtain ⟨rfl, rfl⟩ := Patience.interruptible.inj (patience.symm.trans same)
      obtain rfl := Acquisition.Point.restore.inj point
      refine ⟨ended.snoc (Moment.keepsFlag_of_step top step ?_)
        (Moment.keepsOwners_of_step top step ((Acquisition.goes step).keepsOwners rfl)), ?_, ?_⟩
      · dsimp only
        rw [World.interrupter_modifyInterrupter, if_pos rfl]
        rfl
      · rw [World.stack_setStack, if_pos rfl]
      · rw [World.interrupter_setStack]
        dsimp only
        rw [World.interrupter_modifyInterrupter, if_pos rfl]
        rfl
    | installs _ at' | takes at' | sleeps _ at' | enters _ at' | obeys _ at' | looks _ at'
    | yields _ at' | stays _ at' | awaits _ at' => simp at at'

/-- A wait that cannot be interrupted goes on until it takes the lock. -/
theorem World.blocks (stack : w.stack self = .acquisition a :: rest)
    (patience : a.patience = .uninterruptible) (moves : w.move (.run self) = some (v, notes)) :
    (v.stack self = .acquisition a :: rest ∧
        (⟨w, .run self, notes⟩ : Moment).KeepsOwners self) ∨
      v.stack self = (Control.reply (.succeeded .nothing)).stack rest ∧
        (⟨w, .run self, notes⟩ : Moment).Acquires self a.lock a.owner := by
  obtain ⟨frame, below, effect, top, step, rfl, rfl⟩ := World.step_eq_some moves
  obtain ⟨rfl, rfl⟩ := List.cons.inj (top.symm.trans stack)
  rw [World.stack_setStack, if_pos rfl]
  cases Acquisition.goes step with
  | takes _ _ _ free done =>
    obtain ⟨-, rfl⟩ | ⟨patient, -⟩ := done
    · refine .inr ⟨rfl, rfl, free, List.mem_append_left _ (List.mem_singleton_self _), ?_⟩
      intro next told moved
      obtain ⟨rfl, -⟩ := World.moves_eq top step moved
      rw [World.lock_setStack]
      dsimp only
      rw [World.lock_modifyLock, if_pos rfl, OwnedLock.take_owner]
    · exact absurd patience patient
  | sleeps =>
    exact .inl ⟨rfl, Moment.keepsOwners_of_step top step ((Acquisition.goes step).keepsOwners rfl)⟩
  | installs same | obeys same | looks same | yields same | stays same | restores same =>
    simp [patience] at same
  | enters patient | awaits patient => exact absurd patience patient

/-- Trying to take a global lock succeeds if it is free, and changes nothing otherwise. -/
theorem World.tries {lock : GlobalId} {named : Option ThreadId}
    (stack : w.stack self = .start (.access (.globalTryEnter lock named)) :: rest)
    (moves : w.move (.run self) = some (v, notes)) :
    (v.stack self = (Control.reply (.truth true)).stack rest ∧
        (⟨w, .run self, notes⟩ : Moment).Acquires self (.global lock) (named.getD self)) ∨
      v.stack self = (Control.reply (.truth false)).stack rest ∧
        ¬ (w.lock (.global lock)).IsFree ∧ (⟨w, .run self, notes⟩ : Moment).KeepsOwners self := by
  obtain ⟨frame, below, effect, top, step, rfl, rfl⟩ := World.step_eq_some moves
  obtain ⟨rfl, rfl⟩ := List.cons.inj (top.symm.trans stack)
  rw [World.stack_setStack, if_pos rfl]
  have advances := step
  simp only [Frame.advance, Op.advance, Access.advance] at step
  split at step
  · split at step <;> obtain rfl := Option.some.inj step
    · refine .inl ⟨rfl, rfl, ‹_›, List.mem_append_left _ (List.mem_singleton_self _), ?_⟩
      intro next told moved
      obtain ⟨rfl, -⟩ := World.moves_eq top advances moved
      rw [World.lock_setStack]
      dsimp only
      rw [World.lock_modifyLock, if_pos rfl, OwnedLock.take_owner]
    · exact .inr ⟨rfl, ‹_›, Moment.keepsOwners_of_step top advances fun _ => rfl⟩
  · simp at step

/-- A global lock that somebody else owns is left alone. -/
theorem World.leaves_foreign {lock : GlobalId} {owner : ThreadId} (stack : w.stack self = frame :: rest)
    (gives : frame.gives? self w = some (lock, owner))
    (foreign : (w.lock (.global lock)).owner ≠ some owner) (moves : w.move (.run self) = some (v, notes))
    (ref : LockRef) : v.lock ref = w.lock ref := by
  obtain ⟨frame, below, effect, top, step, rfl, -⟩ := World.step_eq_some moves
  obtain ⟨rfl, rfl⟩ := List.cons.inj (top.symm.trans stack)
  have leaves := Frame.leaves_of_gives step gives
  simp only [World.leaveGlobal] at leaves
  split at leaves
  · rw [World.lock_setStack, ← (Prod.mk.inj (Option.some.inj leaves)).1, World.lock_modifyLock]
    split
    · rename_i own
      rw [OwnedLock.leave_eq_self foreign, own]
    · rfl
  · simp at leaves

/-- Who takes a lock that is given back with a key owns it afterwards. -/
theorem Course.took_own {thread owner : ThreadId} (course : Course custom w moments v)
    (unlocked : w.IsUnlocked) (isLocal : ∀ g, ref ≠ .global g)
    (took : (thread, .took ref owner) ∈ observations moments) : owner = thread := by
  obtain ⟨before, moment, after, rfl, -, observed⟩ := exists_first_observed took
  obtain ⟨runs, told⟩ := Moment.mem_observed.mp observed
  obtain ⟨next, first, -, moves, -⟩ := course.split rfl
  rw [runs] at moves
  obtain ⟨frame, rest, effect, stack, step, -, notes⟩ := World.step_eq_some moves
  rw [notes] at told
  exact Frame.took_own isLocal (stack ▸ (first.isSettled unlocked).seated thread).1 step
    (Effect.told told (by simp))

/-- Locks are taken one thread at a time, whatever is interrupted meanwhile. A lock is only taken when it
is free, and only given back when it is taken; it has the owner for whom it was taken last and not given
back since, who is the thread that took it unless it is a global lock. Neither a wait that cannot be
interrupted nor an attempt succeeds without taking the lock, and giving back a global lock in the name
of one that does not own it changes nothing. A wait that is interrupted fails with just that, has taken no
lock, and has taken the flag down exactly if that is why it failed; one that succeeds has left the flag
alone; either way the callback is the one that was found. -/
theorem locks_taken_in_turn (unlocked : w.IsUnlocked) (course : Course custom w moments v) :
    (∀ ref, Ledger ref none (moments.flatMap (·.notes)) (v.lock ref).owner) ∧
    (∀ ref thread owner, (∀ g, ref ≠ .global g) →
      (thread, .took ref owner) ∈ observations moments → owner = thread) ∧
    (∀ pre moment post next thread, moments = pre ++ moment :: post → moment.move = .run thread →
      moment.world.move moment.move = some (next, moment.notes) →
        (∀ a rest, moment.world.stack thread = .acquisition a :: rest →
          a.patience = .uninterruptible →
            next.stack thread = .acquisition a :: rest ∧ moment.KeepsOwners thread ∨
            next.stack thread = (Control.reply (.succeeded .nothing)).stack rest ∧
              moment.Acquires thread a.lock a.owner) ∧
        (∀ lock named rest,
          moment.world.stack thread = .start (.access (.globalTryEnter lock named)) :: rest →
            next.stack thread = (Control.reply (.truth true)).stack rest ∧
              moment.Acquires thread (.global lock) (named.getD thread) ∨
            next.stack thread = (Control.reply (.truth false)).stack rest ∧
              ¬ (moment.world.lock (.global lock)).IsFree ∧ moment.KeepsOwners thread) ∧
        (∀ frame rest lock owner, moment.world.stack thread = frame :: rest →
          frame.gives? thread moment.world = some (lock, owner) →
            (moment.world.lock (.global lock)).owner ≠ some owner →
              ∀ ref, next.lock ref = moment.world.lock ref)) ∧
    (∀ pre first mid last post next (a : Acquisition) thread target reason rest acquired,
      moments = pre ++ first :: (mid ++ last :: post) → a.Lasts thread rest first mid last acquired →
        a.patience = .interruptible target reason →
          last.world.move last.move = some (next, last.notes) →
            a.Ends thread target reason (first :: mid ++ [last]) acquired ∧
              next.stack thread =
                (Control.reply (if acquired then .succeeded .nothing else .failed .interrupted)).stack
                  rest ∧
              (next.interrupter target).callback = (first.world.interrupter target).callback) := by
  refine ⟨fun ref => ?_, fun ref thread owner isLocal took => course.took_own unlocked isLocal took,
    ?_, ?_⟩
  · rw [← show (w.lock ref).owner = none from unlocked.free ref]
    exact course.ledger unlocked
  · rintro pre ⟨world, move, notes⟩ post next thread - rfl moves
    exact ⟨fun a rest stack patience => World.blocks stack patience moves,
      fun lock named rest stack => World.tries stack moves,
      fun frame rest lock owner stack gives foreign ref =>
        World.leaves_foreign stack gives foreign moves ref⟩
  · intro pre first mid last post next a thread target reason rest acquired parts lasts patience moves
    obtain ⟨_, -, allowed, moved, after⟩ := course.split parts
    exact lasts.ended patience ((Course.single allowed moved).trans after) moves

/-- What a thread takes that does nothing else. -/
def soleWait? : List Frame → Option Acquisition
  | [.acquisition a] => some a
  | _ => none

/-- Decides whether a thread takes a lock from the one moment to the other, and with what patience. -/
def lasting (patience : Patience) (acquired : Bool) (thread : ThreadId) (first : Moment)
    (mid : List Moment) (last : Moment) : Bool :=
  first.move.isOf thread && last.move.isOf thread &&
    (soleWait? (first.world.stack thread)).any (fun a => a.point = .install && a.patience = patience) &&
    mid.all (fun moment => (soleWait? (moment.world.stack thread)).isSome) &&
    (soleWait? (last.world.stack thread)).any (·.point = .restore acquired)

theorem soleWait?_eq_some {stack : List Frame} : soleWait? stack = some a ↔ stack = [.acquisition a] := by
  unfold soleWait?
  split <;> simp_all

theorem lasts_of_lasting {patience : Patience} {first last : Moment} {mid : List Moment}
    (passes : lasting patience acquired self first mid last = true) :
    ∃ a : Acquisition, a.Lasts self [] first mid last acquired ∧ a.patience = patience := by
  simp only [lasting, Bool.and_eq_true, Option.any_eq_true, List.all_eq_true,
    decide_eq_true_eq, Option.isSome_iff_exists, soleWait?_eq_some] at passes
  obtain ⟨⟨⟨⟨begins, ends⟩, a, stack, point, same⟩, waits⟩, b, done, restores⟩ := passes
  exact ⟨a, ⟨Move.isOf_iff.mp begins, stack, point, waits, Move.isOf_iff.mp ends, b, done, restores⟩,
    same⟩

/-- A thread waits for a global lock that another has taken, and is interrupted. -/
def interruptedEntry : List Move :=
  Move.repeated [
    (1, .submit 1 (.access (.globalTryEnter 0 none))), (1, .run 1),
    (1, .submit 0 (.globalEnterInterruptibly 0 none none)), (6, .run 0),
    (1, .submit 1 (.interrupt (some 0))), (5, .run 1), (3, .run 0)]

theorem World.pair_isUnlocked : World.pair.IsUnlocked := by
  refine ⟨World.pair_isFresh.idle, rfl, fun ref => ?_⟩
  cases ref with
  | global | loose => rfl
  | pause m =>
    have fresh : World.pair.IsFresh m :=
      World.initial_isFresh (by cases m <;> exact ⟨rfl, rfl, rfl, rfl, rfl⟩)
    exact congrArg OwnedLock.owner fresh.new.pauseLock

/-- The wait fails because of the flag, and the lock is still the other thread's. -/
theorem locks_taken_in_turn_interruptedWait : ∃ pre first mid last v,
    ∃ a : Acquisition, World.pair.IsUnlocked ∧
    Course (fun _ _ => True) World.pair (pre ++ first :: (mid ++ [last])) v ∧
    a.Lasts 0 [] first mid last false ∧ a.Ends 0 0 .never (first :: mid ++ [last]) false ∧
    v.stack 0 = [] ∧ (v.interrupter 0).callback = (first.world.interrupter 0).callback ∧
    Ledger (.global 0) none ((pre ++ first :: (mid ++ [last])).flatMap (·.notes)) (some 1) := by
  have made : (World.pair.follow (fun _ _ => true) interruptedEntry).any (fun made =>
      ((made.2.lock (.global 0)).owner = some 1 && made.1.length = 18) &&
        made.1[4]?.any fun first => (made.1.drop 5)[12]?.any fun last =>
          lasting (.interruptible 0 .never) false 0 first ((made.1.drop 5).take 12) last) = true := by
    decide +kernel
  obtain ⟨⟨moments, v⟩, follows, state⟩ := (Option.any_eq_true _ _).mp made
  simp only [Bool.and_eq_true, decide_eq_true_eq, Option.any_eq_true _] at state
  obtain ⟨⟨owned, length⟩, first, found, last, found', passes⟩ := state
  obtain ⟨a, lasts, patience⟩ := lasts_of_lasting passes
  have course : Course (fun _ _ => True) World.pair moments v :=
    World.course_of_follow (fun _ _ _ => trivial) follows
  have parts : moments = moments.take 4 ++ first :: ((moments.drop 5).take 12 ++ [last]) := by
    have short : (moments.drop 5).drop 13 = [] := List.drop_of_length_le (by simp [length])
    rw [← short, ← eq_take_cons_drop found', ← eq_take_cons_drop found]
  rw [parts] at course
  obtain ⟨ledgers, -, -, ends⟩ := locks_taken_in_turn World.pair_isUnlocked course
  rw [← List.cons_append, ← List.append_assoc] at course
  obtain ⟨-, -, moves⟩ := course.unsnoc
  obtain ⟨ended, stack, callback⟩ := ends _ _ _ _ [] _ a 0 0 .never [] false rfl lasts patience moves
  rw [List.append_assoc, List.cons_append] at course
  exact ⟨_, first, _, last, v, a, World.pair_isUnlocked, course, lasts, ended, stack, callback,
    owned ▸ ledgers (.global 0)⟩

end

end StopTheWorld
