import StopTheWorld.Proofs.Locks

namespace StopTheWorld

/-! What a step makes of a thread's interrupter: who raises its flag and who takes it down, whose
callback it has, and where its token goes. -/

/-- Through whose interrupter a wait can be cut short. -/
def Patience.target? : Patience → Option ThreadId
  | uninterruptible => none
  | interruptible target _ => some target

/-- The frame is about to look at the flag of the target, which takes it down. -/
def Frame.looks (target self : ThreadId) : Frame → Bool
  | start (.access (.take whom)) | start (.access (.check whom)) => whom.getD self = target
  | acquisition a => a.patience.target? = some target && a.point = .checkFlag
  | sleeping s => self = target && s.point = .check
  | parking point => self = target && point != .parked
  | trial t => self = target && t.point = .check
  | _ => false

/-- The frame is about to change the callback of the target. -/
def Frame.installs (target self : ThreadId) (w : World) : Frame → Bool
  | acquisition a =>
    a.patience.target? = some target &&
      match a.point with
      | .install | .restore _ => true
      | _ => false
  | start (.blockOn whom _ _) => whom.getD self = target
  | start (.access (.unblock tag)) => (w.blockers.find? (·.tag = tag)).any (·.target = target)
  | _ => false

/-- The step tells the thread that takes it of an interrupt. -/
def Effect.TellsInterrupt (frame : Frame) (effect : Effect) : Prop :=
  effect.control = .reply (.truth true) ∨ effect.control = .reply (.failed .interrupted) ∨
    ∃ a, frame = .acquisition a ∧
      effect.control = .goto (.acquisition { a with point := .restore false })

/-- What a step makes of an interrupter. -/
inductive Effect.Shakes (target self : ThreadId) (w : World) (frame : Frame) (effect : Effect) : Prop
  | keeps (same : effect.world.interrupter target = w.interrupter target)
  | raises {i : Interruption} (top : frame = .interruption i) (own : i.target = target)
      (point : i.point = .raise)
      (same : effect.world.interrupter target = (w.interrupter target).raise)
  | unparks {i : Interruption} (top : frame = .interruption i) (own : i.target = target)
      (point : i.point = .unpark)
      (same : effect.world.interrupter target = (w.interrupter target).unpark)
  | lowers (looks : frame.looks target self = true)
      (flag : (w.interrupter target).interrupted = true) (tells : effect.TellsInterrupt frame)
      (same : effect.world.interrupter target = (w.interrupter target).lower)
  | consumes (own : self = target)
      (wakes : (∃ s, frame = .sleeping s ∧ s.point = .doze ∧
          effect.control = .goto (.sleeping { s with point := .check })) ∨
        frame = .parking .parked ∧ effect.control = .goto (.parking .recheck))
      (same : effect.world.interrupter target = (w.interrupter target).consume)
  | installs {callback : Option Wake} (installs : frame.installs target self w = true)
      (same : effect.world.interrupter target = (w.interrupter target).install callback)

section

variable {target self : ThreadId} {w v : World} {frame : Frame} {rest : List Frame}
  {effect : Effect} {notes : List Note}

namespace World

@[simp] theorem interrupter_modifyManager (n : ManagerId) (f : Manager → Manager) :
    (w.modifyManager n f).interrupter target = w.interrupter target := rfl

@[simp] theorem interrupter_modifyRecord (record : RecordId)
    (f : Record Deferred → Record Deferred) :
    (w.modifyRecord record f).interrupter target = w.interrupter target := rfl

@[simp] theorem interrupter_modifyLock (lock : LockRef) (f : OwnedLock → OwnedLock) :
    (w.modifyLock lock f).interrupter target = w.interrupter target := by
  simp [interrupter]

@[simp] theorem interrupter_modifyRegistry (registry : RegistryRef) (f : Registry → Registry) :
    (w.modifyRegistry registry f).interrupter target = w.interrupter target := by
  simp [interrupter]

@[simp] theorem interrupter_setPhaser (phaser : PhaserRef) (value : Phaser) :
    (w.setPhaser phaser value).interrupter target = w.interrupter target := by
  simp [interrupter]

@[simp] theorem interrupter_setStack (thread : ThreadId) (stack : List Frame) :
    (w.setStack thread stack).interrupter target = w.interrupter target := by
  unfold interrupter
  rw [thread_setStack]
  split
  · rename_i same
    rw [same]
  · rfl

@[simp] theorem interrupter_setInPause (thread : ThreadId) (inPause : Bool) :
    (w.setInPause thread inPause).interrupter target = w.interrupter target := by
  unfold interrupter
  rw [thread_setInPause]
  split
  · rename_i same
    rw [same]
  · rfl

@[simp] theorem interrupter_publish (n : ManagerId) (event : Event) :
    (w.publish n event).interrupter target = w.interrupter target := rfl

theorem interrupter_unsubscribe (name : String) :
    (w.unsubscribe name).interrupter target = w.interrupter target := by
  unfold unsubscribe
  split <;> rfl

theorem interrupter_renewRecord (thread : ThreadId) :
    (w.renewRecord thread).interrupter target = w.interrupter target := by
  show ((w.modifyThread thread _).thread target).interrupter = _
  rw [thread_modifyThread]
  split
  · rename_i same
    rw [same]
    rfl
  · rfl

theorem interrupter_leaveGlobal {lock : GlobalId} {owner : ThreadId}
    (leaves : w.leaveGlobal lock owner = some (v, notes)) :
    v.interrupter target = w.interrupter target := by
  simp only [World.leaveGlobal] at leaves
  split at leaves
  · obtain ⟨rfl, -⟩ := Prod.mk.inj (Option.some.inj leaves)
    exact interrupter_modifyLock _ _
  · simp at leaves

theorem interrupter_depart {phaser : PhaserRef} {phase : Nat}
    (departs : w.depart phaser = .ok (v, phase, notes)) :
    v.interrupter target = w.interrupter target := by
  unfold depart at departs
  dsimp only at departs
  split at departs
  · simp at departs
  · simp only [Except.ok.injEq, Prod.mk.injEq] at departs
    obtain ⟨rfl, -⟩ := departs
    exact interrupter_setPhaser phaser _

end World

theorem Interrupter.lower_of_lowered {κ : Type} {interrupter : Interrupter κ}
    (lowered : interrupter.interrupted = false) : interrupter.lower = interrupter := by
  cases interrupter
  simp_all [Interrupter.lower]

/-- Looking at a flag takes it down if it is up, which the look tells. -/
theorem World.checkInterrupt_cases (w : World) (thread : ThreadId) :
    ((w.interrupter thread).interrupted = false ∧ w.checkInterrupt thread = (w, .succeeded .nothing)) ∨
      (w.interrupter thread).interrupted = true ∧
        w.checkInterrupt thread = (w.modifyInterrupter thread (·.lower), .failed .interrupted) := by
  unfold checkInterrupt
  split
  · exact .inr ⟨‹_›, rfl⟩
  · exact .inl ⟨Bool.eq_false_iff.mpr ‹_›, rfl⟩

namespace Effect.Shakes

/-- A step that changes an interrupter by its nature changes no other. -/
theorem of_modify {thread : ThreadId} {f : Interrupter Wake → Interrupter Wake} {u : World}
    (world : effect.world.interrupter target = (u.modifyInterrupter thread f).interrupter target)
    (before : u.interrupter target = w.interrupter target)
    (mine : thread = target → effect.world.interrupter target = f (w.interrupter target) →
      Shakes target self w frame effect) : Shakes target self w frame effect := by
  rw [World.interrupter_modifyInterrupter] at world
  by_cases own : target = thread
  · rw [if_pos own] at world
    refine mine own.symm ?_
    rw [world, ← own, before]
  · rw [if_neg own, before] at world
    exact .keeps world

/-- A step that looks at a flag and says what it saw. -/
theorem of_check {thread : ThreadId} (looks : thread = target → frame.looks target self = true)
    (world : effect.world = (w.checkInterrupt thread).1)
    (tells : (w.interrupter thread).interrupted = true → effect.TellsInterrupt frame) :
    Shakes target self w frame effect := by
  obtain ⟨-, same⟩ | ⟨flag, same⟩ := w.checkInterrupt_cases thread
  · rw [same] at world
    exact .keeps (by rw [world])
  · rw [same] at world
    refine of_modify (by rw [world]) rfl fun own lowered => ?_
    subst own
    exact .lowers (looks rfl) flag (tells flag) lowered

end Effect.Shakes

theorem Access.shakes {access : Access} (step : access.advance self w = some effect) :
    effect.Shakes target self w (.start (.access access)) := by
  cases access with
  | globalLeave lock owner =>
    obtain ⟨v, notes, leaves, rfl⟩ := World.leaves_of_bind step
    exact .keeps (World.interrupter_leaveGlobal leaves)
  | phaserDepart phaser =>
    simp only [advance] at step
    split at step <;> obtain rfl := Option.some.inj step
    · exact .keeps rfl
    · exact .keeps (World.interrupter_depart ‹_›)
  | globalTryEnter =>
    simp only [advance] at step
    repeat' split at step
    all_goals first
      | (obtain rfl := Option.some.inj step
         exact .keeps rfl)
      | simp at step
  | unsubscribe name =>
    obtain rfl := Option.some.inj step
    exact .keeps (World.interrupter_unsubscribe name)
  | subscribe n name =>
    obtain rfl := Option.some.inj step
    exact .keeps (World.interrupter_unsubscribe name)
  | phaserRegister phaser =>
    obtain rfl := Option.some.inj step
    exact .keeps (World.interrupter_setPhaser _ _)
  | freshRecord =>
    obtain rfl := Option.some.inj step
    exact .keeps (World.interrupter_renewRecord self)
  | take whom =>
    simp only [advance] at step
    obtain rfl := Option.some.inj step
    refine .of_modify rfl rfl fun own lowered => ?_
    subst own
    cases flag : (w.interrupter (whom.getD self)).interrupted with
    | false => exact .keeps (lowered.trans (Interrupter.lower_of_lowered flag))
    | true => exact .lowers (by simp [Frame.looks]) flag (.inl rfl) lowered
  | check whom =>
    have looks (own : whom.getD self = target) :
        (Frame.start (.access (.check whom))).looks target self = true := by
      simpa [Frame.looks] using own
    simp only [advance] at step
    obtain ⟨flag, checks⟩ | ⟨flag, checks⟩ := w.checkInterrupt_cases (whom.getD self) <;>
      rw [checks] at step <;> obtain rfl := Option.some.inj step
    · exact .keeps rfl
    · exact .of_check looks (by rw [checks]) fun _ => .inr (.inl rfl)
  | unblock tag =>
    simp only [advance] at step
    split at step <;> obtain rfl := Option.some.inj step
    · exact .keeps rfl
    · rename_i guard found
      refine .of_modify (f := (·.install guard.saved)) rfl rfl fun own installed =>
        .installs ?_ installed
      simp [Frame.installs, found, own]
  | _ =>
    obtain rfl := Option.some.inj step
    exact .keeps rfl

theorem Op.shakes {op : Op} (step : op.advance self w = some effect) :
    effect.Shakes target self w (.start op) := by
  cases op with
  | access a => exact Access.shakes step
  | release n =>
    obtain ⟨v, notes, leaves, rfl⟩ := World.leaves_of_bind step
    exact .keeps (World.interrupter_leaveGlobal leaves)
  | blockOn whom tag script =>
    obtain rfl := Option.some.inj step
    exact .of_modify (f := (·.install (some (.script tag script)))) rfl rfl fun own installed =>
      .installs (by simpa [Frame.installs] using own) installed
  | deferLookup | unlock =>
    simp only [advance] at step
    split at step <;> obtain rfl := Option.some.inj step <;> exact .keeps rfl
  | _ =>
    obtain rfl := Option.some.inj step
    exact .keeps rfl

theorem Acquisition.Goes.shakes {a : Acquisition} (goes : a.Goes self w effect) :
    effect.Shakes target self w (.acquisition a) := by
  cases goes with
  | installs patience point =>
    refine .of_modify rfl rfl fun own installed => .installs ?_ installed
    simp [Frame.installs, patience, point, Patience.target?, own]
  | restores patience point =>
    refine .of_modify rfl rfl fun own installed => .installs ?_ installed
    simp [Frame.installs, patience, point, Patience.target?, own]
  | obeys patience point flag =>
    refine .of_modify (World.interrupter_modifyLock _ _) rfl fun own lowered => ?_
    subst own
    exact .lowers (by simp [Frame.looks, patience, point, Patience.target?]) flag
      (.inr (.inr ⟨a, rfl, rfl⟩)) lowered
  | looks | stays => exact .keeps rfl
  | takes | sleeps | enters | yields | awaits => exact .keeps (World.interrupter_modifyLock _ _)

/-- What leads from one world to another is a step of the flag, or none. -/
theorem Frame.shakes (step : frame.advance self w = some effect) :
    effect.Shakes target self w frame := by
  cases frame with
  | start op => exact Op.shakes step
  | acquisition a => exact (Acquisition.goes step).shakes
  | interruption i =>
    cases point : i.point with
    | raise =>
      simp only [advance, Interruption.advance, point] at step
      obtain rfl := Option.some.inj step
      exact .of_modify rfl rfl fun own raised => .raises rfl own point raised
    | look =>
      simp only [advance, Interruption.advance, point] at step
      split at step <;> obtain rfl := Option.some.inj step <;> exact .keeps rfl
    | unpark =>
      simp only [advance, Interruption.advance, point] at step
      obtain rfl := Option.some.inj step
      exact .of_modify rfl rfl fun own unparked => .unparks rfl own point unparked
  | sleeping s =>
    cases point : s.point with
    | check =>
      have looks (own : self = target) : (Frame.sleeping s).looks target self = true := by
        simp [looks, own, point]
      simp only [advance, Sleeping.advance, point] at step
      obtain ⟨flag, checks⟩ | ⟨flag, checks⟩ := w.checkInterrupt_cases self <;>
        rw [checks] at step <;> obtain rfl := Option.some.inj step
      · exact .keeps rfl
      · exact .of_check looks (by rw [checks]) fun _ => .inr (.inl rfl)
    | doze =>
      simp only [advance, Sleeping.advance, point] at step
      split at step
      · obtain rfl := Option.some.inj step
        exact .of_modify rfl rfl fun own consumed =>
          .consumes own (.inl ⟨s, rfl, point, rfl⟩) consumed
      · split at step
        · obtain rfl := Option.some.inj step
          exact .keeps rfl
        · simp at step
    | _ =>
      simp only [advance, Sleeping.advance, point] at step
      split at step <;> obtain rfl := Option.some.inj step <;> exact .keeps rfl
  | parking point =>
    cases point with
    | check =>
      have looks (own : self = target) : (Frame.parking .check).looks target self = true := by
        simp [looks, own]
      simp only [advance, Parking.advance] at step
      obtain ⟨flag, checks⟩ | ⟨flag, checks⟩ := w.checkInterrupt_cases self <;>
        rw [checks] at step <;> obtain rfl := Option.some.inj step
      · exact .keeps rfl
      · exact .of_check looks (by rw [checks]) fun _ => .inr (.inl rfl)
    | parked =>
      simp only [advance, Parking.advance] at step
      split at step
      · obtain rfl := Option.some.inj step
        exact .of_modify rfl rfl fun own consumed => .consumes own (.inr ⟨rfl, rfl⟩) consumed
      · simp at step
    | recheck =>
      have looks (own : self = target) : (Frame.parking .recheck).looks target self = true := by
        simp [looks, own]
      simp only [advance, Parking.advance] at step
      obtain ⟨flag, checks⟩ | ⟨flag, checks⟩ := w.checkInterrupt_cases self <;>
        rw [checks] at step <;> obtain rfl := Option.some.inj step
      · exact .keeps rfl
      · exact .of_check looks (by rw [checks]) fun _ => .inr (.inl rfl)
  | trial t =>
    cases point : t.point with
    | check =>
      have looks (own : self = target) : (Frame.trial t).looks target self = true := by
        simp [looks, own, point]
      simp only [advance, Trial.advance, point] at step
      obtain ⟨flag, checks⟩ | ⟨flag, checks⟩ := w.checkInterrupt_cases self <;>
        rw [checks] at step <;> obtain rfl := Option.some.inj step
      · exact .keeps rfl
      · exact .of_check looks (by rw [checks]) fun _ => .inr (.inl rfl)
    | _ =>
      simp only [advance, Trial.advance, point] at step
      repeat' split at step
      all_goals
        obtain rfl := Option.some.inj step
        exact .keeps rfl
  | keepGuard =>
    obtain rfl := Option.some.inj step
    exact .keeps rfl
  | withdrawal x =>
    simp only [advance, Withdrawal.advance] at step
    repeat' split at step
    all_goals first
      | obtain rfl := Option.some.inj step
      | simp at step
    all_goals first
      | exact .keeps (World.interrupter_depart ‹_›)
      | exact .keeps (World.interrupter_modifyRegistry _ _)
      | exact .keeps rfl
  | _ =>
    simp only [advance, Release.advance, OwnedLock.advanceNotify, Arrival.advance,
      Enrolment.advance, Visit.advance, Script.advance, Sequence.advance, Drain.advance,
      Phases.advance, Resuming.advance, Polling.advance, Entering.advance, Leaving.advance,
      Pausing.advance, Foreign.advance, Acquiring.advance, Blocking.advance] at step
    repeat' split at step
    all_goals first
      | (obtain rfl := Option.some.inj step
         refine .keeps ?_
         simp only [World.interrupter_modifyLock, World.interrupter_modifyManager,
           World.interrupter_modifyRecord, World.interrupter_modifyRegistry,
           World.interrupter_setPhaser, World.interrupter_setInPause, World.interrupter_publish])
      | (obtain ⟨v, notes, leaves, rfl⟩ := World.leaves_of_bind step
         exact .keeps (World.interrupter_leaveGlobal leaves))
      | simp at step

end

end StopTheWorld
