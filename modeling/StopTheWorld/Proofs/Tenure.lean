import StopTheWorld.Proofs.Footprint

namespace StopTheWorld

/-! Who owns the pause lock of a manager, and what the owner has made of its epoch and its action, read
off the stacks, in worlds of any number of managers. -/

/-- What the thread that owns the pause lock has made of the manager. -/
inductive Hold
  /-- A pause may be under way. -/
  | busy
  /-- The fresh epoch is published. -/
  | fresh
  /-- The fresh epoch is published and the action is taken back. -/
  | idle

def Hold.Demands (manager : Manager) : Hold → Prop
  | busy => True
  | fresh => manager.epoch.valid = true
  | idle => manager.epoch.valid = true ∧ manager.action = none

/-- The hold of a driver that is not in the phases. -/
def Pausing.Point.hold : Pausing.Point → Hold
  | exitPhases | clear => .fresh
  | account | unlock => .idle
  | _ => .busy

/-- What a frame makes of the hold that comes from the frames below it. -/
def Frame.hold (m : ManagerId) (frame : Frame) (below : Option Hold) : Option Hold :=
  match frame with
  | pausing p => if p.manager = m ∧ p.point.drives = true then some p.point.hold else below
  | entering e => if e.manager = m ∧ e.point.owns = true then some .idle else below
  | phases p =>
    if p.manager = m ∧ p.drives = true then some (if p.point.isFresh then .fresh else .busy)
    else below
  | acquisition a => if a.lock = .pause m ∧ a.point ≠ .restore true then none else below
  | release lock point => if lock = .pause m ∧ point = .clear then some .idle else below
  | _ => below

/-- The hold of a thread with this stack on the pause lock, if it has one. -/
def holdOf (m : ManagerId) : List Frame → Option Hold
  | [] => none
  | frame :: rest => frame.hold m (holdOf m rest)

@[simp] theorem holdOf_nil (m : ManagerId) : holdOf m [] = none := rfl

@[simp] theorem holdOf_cons (m : ManagerId) (frame : Frame) (rest : List Frame) :
    holdOf m (frame :: rest) = frame.hold m (holdOf m rest) := rfl

def Visit.Point.isAbandon : Visit.Point → Bool
  | abandon _ _ => true
  | _ => false

/-- A callback has unwound that the thread ran as the driver of a pause. -/
def isShaken : List Frame → Bool
  | .visit v :: .pausing _ :: _ => v.point.isAbandon
  | _ => false

def LockRef.isPause : LockRef → Bool
  | pause _ => true
  | _ => false

namespace Frame

/-- Only a procedure of a manager puts such a frame on the stack. -/
def isServant : Frame → Bool
  | acquisition a => a.lock.isPause
  | phases _ => true
  | _ => false

/-- The frame does not unwind, and nothing that unwinds comes through it. -/
def isFast : Frame → Bool
  | acquisition _ | release _ _ | notify _ | arrival _ | enrolment _ | phases _ | entering _ => true
  | _ => false

/-- The waiting frame can have this child above it. -/
def Heads (child : Frame) : Frame → Prop
  | pausing p =>
    match child with
    | polling _ | resuming _ => p.point = .lock
    | acquisition a => p.point = .open ∧ a.lock = .pause p.manager ∧ a.patience ≠ .uninterruptible
    | notify _ => p.point = .interrupt ∨ p.point = .leaveGlobal
    | visit _ => p.point = .leaveGlobal
    | phases q => p.point = .exitPhases ∧ q.manager = p.manager ∧ q.drives = true
    | release _ _ => p.point = .announceEnd
    | _ => False
  | entering e =>
    match child with
    | acquisition a =>
      e.point = .enrol ∧ a.lock = .pause e.manager ∧ a.patience = .uninterruptible
    | enrolment _ => e.point = .announce
    | _ => False
  | polling _ =>
    match child with
    | phases q => q.drives = false
    | _ => False
  | phases p =>
    match child with
    | script _ => p.point = .third
    | arrival _ => p.point ≠ .third
    | _ => False
  | visit v =>
    match child with
    | interruption _ => ∃ identity, v.point = .release identity
    | _ => False
  | start _ | acquisition _ | release _ _ | notify _ | arrival _ | enrolment _ | withdrawal _
  | sleeping _ | parking _ => False
  | _ => child.isServant = false

/-- The frame can stand on this stack. -/
def Stands (frame : Frame) : List Frame → Prop
  | [] => frame.isServant = false
  | parent :: _ => frame.Heads parent

/-- What holds of a frame, given the stack below it. A thread that is past the gate of a call that
takes the pause lock has no hold on it from before. -/
def Suits (m : ManagerId) (self : ThreadId) (rest : List Frame) : Frame → Prop
  | acquisition a => a.lock = .pause m → a.owner = self
  | release lock _ => lock = .pause m → holdOf m rest = none
  | visit v => isShaken (.visit v :: rest) = false
  | phases p => p.point = .republish → p.drives = true
  | entering e => e.manager = m → e.point ≠ .gate → holdOf m rest = none
  | pausing p =>
    p.point ≠ .abandon ∧ (p.manager = m → p.point ≠ .gate → holdOf m rest = none)
  | _ => True

/-- No procedure that owns a pause lock waits for such a frame. -/
def isLoose : Frame → Bool
  | polling _ | resuming _ | acquisition _ | notify _ | visit _ | phases _ | release _ _
  | enrolment _ | script _ | arrival _ | interruption _ => false
  | _ => true

end Frame

/-- Every frame stands where it may. -/
def Straight (m : ManagerId) (self : ThreadId) : List Frame → Prop
  | [] => True
  | frame :: rest => frame.Suits m self rest ∧ frame.Stands rest ∧ Straight m self rest

/-- What a step makes of the hold of a thread and of the manager. -/
inductive Hold.Turns (self : ThreadId) (before after : Manager) : Option Hold → Option Hold → Prop
  | keep {hold : Option Hold} (owner : after.pauseLock.owner = before.pauseLock.owner)
      (epoch : after.epoch = before.epoch) (action : after.action = before.action) :
      Turns self before after hold hold
  | take {hold : Hold} (free : before.pauseLock.owner = none)
      (owner : after.pauseLock.owner = some self) (epoch : after.epoch = before.epoch)
      (action : after.action = before.action) (begins : hold ≠ .fresh) :
      Turns self before after none (some hold)
  | clear (owner : after.pauseLock.owner = none) (epoch : after.epoch = before.epoch)
      (action : after.action = before.action) : Turns self before after (some .idle) none
  | work {hold hold' : Hold} (owner : after.pauseLock.owner = before.pauseLock.owner)
      (demands : hold.Demands before → hold'.Demands after) :
      Turns self before after (some hold) (some hold')

/-- The effect of a step on the stack of the thread and on the manager. -/
structure Effect.Tends (m : ManagerId) (thread : ThreadId) (w : World) (frame : Frame)
    (rest : List Frame) (effect : Effect) : Prop where
  straight : Straight m thread (effect.control.stack rest)
  turns : Hold.Turns thread (w.manager m) (effect.world.manager m) (holdOf m (frame :: rest))
    (holdOf m (effect.control.stack rest))

/-- Nothing that pauses of the manager read differs. -/
structure World.Minds (m : ManagerId) (w v : World) : Prop where
  owner : (v.manager m).pauseLock.owner = (w.manager m).pauseLock.owner
  epoch : (v.manager m).epoch = (w.manager m).epoch
  action : (v.manager m).action = (w.manager m).action

/-- A stack on which a thread has the same hold as on another. -/
structure Keeps (m : ManagerId) (thread : ThreadId) (before after : List Frame) : Prop where
  straight : Straight m thread after
  hold : holdOf m after = holdOf m before

section

variable {m : ManagerId} {self : ThreadId} {w v : World} {frame frame' parent : Frame}
  {rest below : List Frame} {effect : Effect}

namespace Frame

theorem Stands.exchange (stands : frame.Stands rest) (loose : frame.isLoose = true)
    (servant : frame'.isServant = false) : frame'.Stands rest := by
  cases rest with
  | nil => exact servant
  | cons parent below =>
    simp only [Stands] at stands ⊢
    cases parent <;> first
      | exact servant
      | exact stands.elim
      | (cases frame <;> first | exact stands.elim | simp [isLoose] at loose)

theorem Stands.alike (stands : frame.Stands rest)
    (alike : ∀ parent : Frame, frame.Heads parent → frame'.Heads parent)
    (servant : frame'.isServant = frame.isServant) : frame'.Stands rest := by
  cases rest with
  | nil => exact servant.trans stands
  | cons parent below => exact alike parent stands

end Frame

namespace Keeps

variable {first second third : List Frame}

theorem refl (straight : Straight m self first) : Keeps m self first first := ⟨straight, rfl⟩

theorem trans (before : Keeps m self first second) (after : Keeps m self second third) :
    Keeps m self first third :=
  ⟨after.straight, after.hold.trans before.hold⟩

end Keeps

namespace Straight

theorem tail (straight : Straight m self (frame :: rest)) : Straight m self rest := straight.2.2

theorem reply (straight : Straight m self (parent :: below)) (value : Reply)
    (pausing : ∀ p, parent = .pausing p → ∀ failure, value ≠ .failed failure) :
    Keeps m self (parent :: below) (parent.resume value :: below) := by
  have same := Keeps.refl straight
  obtain ⟨suits, stands, straight⟩ := straight
  have other {frame : Frame} (fits : frame.Suits m self below) (loose : parent.isLoose = true)
      (servant : frame.isServant = false) (hold : frame.hold m (holdOf m below) =
        parent.hold m (holdOf m below)) :
      Keeps m self (parent :: below) (frame :: below) :=
    ⟨⟨fits, stands.exchange loose servant, straight⟩, hold⟩
  have alike {frame : Frame} (fits : frame.Suits m self below)
      (alike : ∀ grandparent : Frame, parent.Heads grandparent → frame.Heads grandparent)
      (servant : frame.isServant = parent.isServant) (hold : frame.hold m (holdOf m below) =
        parent.hold m (holdOf m below)) :
      Keeps m self (parent :: below) (frame :: below) :=
    ⟨⟨fits, stands.alike alike servant, straight⟩, hold⟩
  cases parent with
  | discard | word | keepGuard | sequence | acquiring | blocking =>
    cases value <;> exact other trivial rfl rfl rfl
  | script s =>
    have noted (s' : Script) : ∀ parent : Frame,
        Frame.Heads (.script s) parent → Frame.Heads (.script s') parent :=
      fun _ => id
    cases value <;> exact alike suits (noted _) rfl rfl
  | polling p =>
    cases value with
    | unwound => exact alike suits (fun _ => id) rfl rfl
    | _ => exact same
  | resuming r =>
    cases value with
    | count => exact alike suits (fun _ => id) rfl rfl
    | _ => exact same
  | phases p =>
    cases value with
    | unwound => exact alike suits (fun _ => id) rfl rfl
    | _ => exact same
  | entering | leaving =>
    cases value <;> exact other suits rfl rfl rfl
  | pausing p =>
    cases value with
    | failed failure => exact absurd rfl (pausing p rfl failure)
    | _ => exact other suits rfl rfl rfl
  | foreign f =>
    unfold Frame.resume
    dsimp only
    split <;> exact other trivial rfl rfl rfl
  | _ => exact same

theorem replied (straight : Straight m self rest) {value : Reply}
    (pausing : ∀ {p below}, rest = .pausing p :: below → ∀ failure, value ≠ .failed failure) :
    Keeps m self rest ((Control.reply value).stack rest) := by
  cases rest with
  | nil => exact .refl straight
  | cons parent below => exact straight.reply value fun p same => pausing (congrArg (· :: below) same)

/-- An unwinding passes by no frame that has a hold, unless it comes from a callback that runs for a
pause of the thread's own. -/
theorem unwind {message : String} (straight : Straight m self rest) (stands : frame.Stands rest)
    (slow : frame.isFast = false)
    (away : ∀ v p below, frame = .visit v → rest ≠ .pausing p :: below)
    (tame : isShaken (Frame.unwind message rest) = false) :
    Keeps m self rest (Frame.unwind message rest) := by
  induction rest generalizing frame with
  | nil => exact .refl straight
  | cons parent below ih =>
    have through (same : parent.hold m (holdOf m below) = holdOf m below) (slow : parent.isFast = false)
        (away : ∀ v p rest, parent = .visit v → below ≠ .pausing p :: rest)
        (dropped : parent.catch? message = none) :
        Keeps m self (parent :: below) (Frame.unwind message (parent :: below)) := by
      have popped : Keeps m self (parent :: below) below := ⟨straight.tail, same.symm⟩
      simp only [Frame.unwind, dropped] at tame ⊢
      exact popped.trans (ih straight.tail straight.2.1 slow away tame)
    cases parent with
    | start | acquisition | release | notify | arrival | enrolment | withdrawal | sleeping | parking =>
      exact stands.elim
    | visit v =>
      obtain ⟨identity, point⟩ : ∃ identity, v.point = .release identity := by
        simp only [Frame.Stands] at stands
        cases frame <;> first
          | exact stands
          | exact stands.elim
      have caught : Frame.unwind message (.visit v :: below) =
          .visit { v with point := .abandon identity message } :: below := by
        simp [Frame.unwind, Frame.catch?, point]
      rw [caught] at tame ⊢
      refine ⟨⟨tame, straight.2.1.alike (fun parent => ?_) rfl, straight.tail⟩, rfl⟩
      cases parent <;> exact id
    | phases p =>
      have third : p.point = .third := by
        simp only [Frame.Stands] at stands
        cases frame <;> first
          | exact stands
          | exact stands.elim
          | simp [Frame.isFast] at slow
      have caught : Frame.unwind message (.phases p :: below) =
          .phases { p with outcome := some message } :: below := by
        simp [Frame.unwind, Frame.catch?, third]
      rw [caught]
      exact straight.reply (.unwound message) (by simp)
    | polling | entering =>
      simp only [Frame.Stands] at stands
      cases frame <;> first
        | exact stands.elim
        | simp [Frame.isFast] at slow
    | pausing p =>
      have lock : p.point = .lock := by
        simp only [Frame.Stands] at stands
        cases frame <;> first
          | exact stands
          | exact stands.elim
          | exact absurd rfl (away _ p below rfl)
          | simp [Frame.isFast] at slow
      exact through (by simp [Frame.hold, lock, Pausing.Point.drives]) rfl (by simp)
        (by simp [Frame.catch?, lock])
    | foreign f =>
      by_cases leaves : f.point = .leave ∧ f.added
      · have caught : Frame.unwind message (.foreign f :: below) =
            .foreign { f with point := .abandon, message := message } :: below := by
          simp [Frame.unwind, Frame.catch?, leaves]
        rw [caught]
        exact ⟨⟨trivial, straight.2.1.exchange rfl rfl, straight.tail⟩, rfl⟩
      · exact through rfl rfl (by simp) (by simp [Frame.catch?, leaves])
    | _ => exact through rfl rfl (by simp) rfl

end Straight

namespace World.Minds

theorem refl (w : World) : w.Minds m w := ⟨rfl, rfl, rfl⟩

theorem of_agrees (agrees : w.Agrees m v) : w.Minds m v :=
  ⟨congrArg Core.owner agrees.core, congrArg Core.epoch agrees.core,
    congrArg Core.action agrees.core⟩

theorem modifyManager (w : World) (n : ManagerId) {f : Manager → Manager}
    (owner : (f (w.manager m)).pauseLock.owner = (w.manager m).pauseLock.owner)
    (epoch : (f (w.manager m)).epoch = (w.manager m).epoch)
    (action : (f (w.manager m)).action = (w.manager m).action) :
    w.Minds m (w.modifyManager n f) := by
  constructor <;> rw [World.manager_modifyManager] <;> split <;> rename_i same <;> first
    | rfl
    | (rw [← same]; assumption)

theorem modifyRegistry (w : World) (registry : RegistryRef) (f : Registry → Registry) :
    w.Minds m (w.modifyRegistry registry f) := by
  constructor <;> rw [World.manager_modifyRegistry] <;> split <;> rfl

theorem setPhaser (w : World) (phaser : PhaserRef) (value : Phaser) :
    w.Minds m (w.setPhaser phaser value) := by
  cases phaser with
  | loose => exact ⟨rfl, rfl, rfl⟩
  | registry registry => exact modifyRegistry w registry (·.setPhaser value)

theorem modifyLock (w : World) (lock : LockRef) {f : OwnedLock → OwnedLock}
    (owner : lock = .pause m → (f (w.lock lock)).owner = (w.lock lock).owner) :
    w.Minds m (w.modifyLock lock f) :=
  of_agrees (.modifyLock w lock owner)

theorem depart {phaser : PhaserRef} {phase : Nat} {notes : List Note}
    (departs : w.depart phaser = .ok (v, phase, notes)) : w.Minds m v := by
  unfold World.depart at departs
  dsimp only at departs
  split at departs
  · simp at departs
  · simp only [Except.ok.injEq, Prod.mk.injEq] at departs
    obtain ⟨rfl, -⟩ := departs
    exact setPhaser w _ _

theorem checkInterrupt {reply : Reply} (checks : w.checkInterrupt self = (v, reply)) :
    w.Minds m v := by
  have agrees : w.Agrees m (w.checkInterrupt self).1 := .checkInterrupt w self
  rw [checks] at agrees
  exact of_agrees agrees

end World.Minds

namespace Keeps

theorem goto (straight : Straight m self (frame :: rest)) (suits : frame'.Suits m self rest)
    (stands : frame'.Stands rest)
    (hold : frame'.hold m (holdOf m rest) = frame.hold m (holdOf m rest)) :
    Keeps m self (frame :: rest) ((Control.goto frame').stack rest) :=
  ⟨⟨suits, stands, straight.tail⟩, hold⟩

theorem call {back : Frame} (straight : Straight m self (frame :: rest))
    (suits : frame'.Suits m self (back :: rest)) (heads : frame'.Heads back)
    (suitsBack : back.Suits m self rest) (standsBack : back.Stands rest)
    (hold : frame'.hold m (back.hold m (holdOf m rest)) =
      frame.hold m (holdOf m rest)) :
    Keeps m self (frame :: rest) ((Control.call frame' back).stack rest) :=
  ⟨⟨suits, heads, suitsBack, standsBack, straight.tail⟩, hold⟩

theorem reply (straight : Straight m self (frame :: rest))
    (hold : frame.hold m (holdOf m rest) = holdOf m rest) {value : Reply}
    (pausing : ∀ {p below}, rest = .pausing p :: below → ∀ failure, value ≠ .failed failure) :
    Keeps m self (frame :: rest) ((Control.reply value).stack rest) := by
  have popped : Keeps m self (frame :: rest) rest := ⟨straight.tail, hold.symm⟩
  exact popped.trans (straight.tail.replied pausing)

theorem loose (straight : Straight m self (frame :: rest)) (loose : frame.isLoose = true)
    (hold : frame.hold m (holdOf m rest) = holdOf m rest) (value : Reply) :
    Keeps m self (frame :: rest) ((Control.reply value).stack rest) := by
  refine reply straight hold fun {p below} same => ?_
  subst same
  have stands := straight.2.1
  cases frame <;> first | exact stands.elim | simp [Frame.isLoose] at loose

theorem unwound (straight : Straight m self (frame :: rest))
    (hold : frame.hold m (holdOf m rest) = holdOf m rest) (slow : frame.isFast = false)
    (away : ∀ v p below, frame = .visit v → rest ≠ .pausing p :: below) {message : String}
    (tame : isShaken ((Control.unwind message).stack rest) = false) :
    Keeps m self (frame :: rest) ((Control.unwind message).stack rest) := by
  have popped : Keeps m self (frame :: rest) rest := ⟨straight.tail, hold.symm⟩
  exact popped.trans (straight.tail.unwind straight.2.1 slow away tame)

end Keeps

theorem Effect.Tends.calm {control : Control} {notes : List Note} (minds : w.Minds m v)
    (keeps : Keeps m self (frame :: rest) (control.stack rest)) :
    (Effect.mk v control notes).Tends m self w frame rest where
  straight := keeps.straight
  turns := by
    rw [keeps.hold]
    exact .keep minds.owner minds.epoch minds.action

/-- What a loose frame that owns nothing does when it is done. -/
theorem Effect.Tends.done (straight : Straight m self (frame :: rest))
    (loose : frame.isLoose = true) (slow : frame.isFast = false)
    (hold : frame.hold m (holdOf m rest) = holdOf m rest)
    (tame : isShaken (effect.control.stack rest) = false)
    (minds : w.Minds m effect.world)
    (done : (∃ value, effect.control = .reply value) ∨
      ∃ message, effect.control = .unwind message) :
    effect.Tends m self w frame rest := by
  obtain ⟨world, control, notes⟩ := effect
  rcases done with ⟨value, rfl⟩ | ⟨message, rfl⟩
  · exact .calm minds (.loose straight loose hold value)
  · refine .calm minds (.unwound straight hold slow ?_ tame)
    rintro v p below rfl
    simp [Frame.isLoose] at loose

theorem Op.tends {op : Op} (straight : Straight m self (.start op :: rest))
    (tame : isShaken (effect.control.stack rest) = false) (step : op.advance self w = some effect) :
    effect.Tends m self w (.start op) rest := by
  have minds : w.Minds m effect.world := .of_agrees (Op.plain step).1
  have stands {frame : Frame} (servant : frame.isServant = false) : frame.Stands rest :=
    straight.2.1.exchange rfl servant
  have goto {frame : Frame} (suits : frame.Suits m self rest) (servant : frame.isServant = false)
      (hold : frame.hold m (holdOf m rest) = holdOf m rest) :
      Keeps m self (.start op :: rest) ((Control.goto frame).stack rest) :=
    .goto straight suits (stands servant) hold
  have call {frame back : Frame} (suits : frame.Suits m self (back :: rest))
      (heads : frame.Heads back) (suitsBack : back.Suits m self rest)
      (servant : back.isServant = false)
      (hold : frame.hold m (back.hold m (holdOf m rest)) = holdOf m rest) :
      Keeps m self (.start op :: rest) ((Control.call frame back).stack rest) :=
    .call straight suits heads suitsBack (stands servant) hold
  have done (control : (∃ value, effect.control = .reply value) ∨
      ∃ message, effect.control = .unwind message) : effect.Tends m self w (.start op) rest :=
    .done straight rfl rfl rfl tame minds control
  cases op with
  | access a => exact done (Access.agrees (m := m) step).2.2
  | log | defer | blockOn =>
    obtain rfl := Option.some.inj step
    exact done (.inl ⟨_, rfl⟩)
  | unwind message =>
    obtain rfl := Option.some.inj step
    exact done (.inr ⟨_, rfl⟩)
  | release n =>
    obtain ⟨⟨v, notes⟩, leaves, replies⟩ := Option.bind_eq_some_iff.mp step
    obtain rfl := Option.some.inj replies
    exact done (.inl ⟨_, rfl⟩)
  | deferLookup =>
    simp only [advance] at step
    split at step <;> obtain rfl := Option.some.inj step <;> exact done (.inl ⟨_, rfl⟩)
  | enter | enterWith =>
    obtain rfl := Option.some.inj step
    exact .calm minds (call (by simp [Frame.Suits]) rfl trivial rfl (by
      simp [Frame.hold, Entering.Point.owns]))
  | globalEnter | lock | lockInterruptibly =>
    obtain rfl := Option.some.inj step
    exact .calm minds (call (by simp [Frame.Suits, Acquisition.begin]) rfl trivial rfl (by
      simp [Frame.hold, Acquisition.begin]))
  | unlock l =>
    simp only [advance] at step
    split at step <;> obtain rfl := Option.some.inj step
    · exact .calm minds (call (by simp [Frame.Suits]) rfl trivial rfl (by simp [Frame.hold]))
    · exact done (.inl ⟨_, rfl⟩)
  | pause | pauseWith =>
    obtain rfl := Option.some.inj step
    exact .calm minds (goto (by simp [Frame.Suits]) rfl (by
      simp [Frame.hold, Pausing.Point.drives]))
  | visit =>
    obtain rfl := Option.some.inj step
    exact .calm minds (goto tame rfl rfl)
  | globalEnterInterruptibly =>
    obtain rfl := Option.some.inj step
    exact .calm minds (goto (by simp [Frame.Suits, Acquisition.begin]) rfl (by
      simp [Frame.hold, Acquisition.begin]))
  | _ =>
    obtain rfl := Option.some.inj step
    exact .calm minds (goto trivial rfl rfl)

/-- Who waits for a pause lock does so as a driver or as one who registers. -/
theorem Straight.below_acquisition {a : Acquisition} {n : ManagerId}
    (straight : Straight m self (.acquisition a :: rest)) (lock : a.lock = .pause n) :
    (∃ p below, rest = .pausing p :: below ∧ p.point = .open ∧ p.manager = n ∧
        a.patience ≠ .uninterruptible) ∨
      ∃ e below, rest = .entering e :: below ∧ e.point = .enrol ∧ e.manager = n ∧
        a.patience = .uninterruptible := by
  have stands := straight.2.1
  cases rest with
  | nil => simp [Frame.Stands, Frame.isServant, lock, LockRef.isPause] at stands
  | cons parent below =>
    cases parent with
    | pausing p =>
      obtain ⟨point, same, patience⟩ := stands
      exact .inl ⟨p, below, rfl, point, LockRef.pause.inj (same.symm.trans lock), patience⟩
    | entering e =>
      obtain ⟨point, same, patience⟩ := stands
      exact .inr ⟨e, below, rfl, point, LockRef.pause.inj (same.symm.trans lock), patience⟩
    | _ => simp [Frame.Stands, Frame.Heads, Frame.isServant, lock, LockRef.isPause] at stands

theorem Straight.on_acquisition {a a' : Acquisition}
    (straight : Straight m self (.acquisition a :: rest)) (lock : a'.lock = a.lock)
    (owner : a'.owner = a.owner) (patience : a'.patience = a.patience) :
    Straight m self (.acquisition a' :: rest) := by
  obtain ⟨suits, stands, straight⟩ := straight
  refine ⟨fun pause => owner.trans (suits (lock ▸ pause)), stands.alike (fun parent heads => ?_) ?_,
    straight⟩
  · cases parent <;> simp only [Frame.Heads, Frame.isServant, lock, patience] at heads ⊢ <;>
      exact heads
  · simp [Frame.isServant, lock]

theorem Effect.Tends.waits {a a' : Acquisition} {notes : List Note}
    (straight : Straight m self (.acquisition a :: rest)) (minds : w.Minds m v)
    (lock : a'.lock = a.lock) (owner : a'.owner = a.owner) (patience : a'.patience = a.patience)
    (before : a.point ≠ .restore true) (after : a'.point ≠ .restore true) :
    (Effect.mk v (.goto (.acquisition a')) notes).Tends m self w (.acquisition a) rest := by
  refine .calm minds ⟨straight.on_acquisition lock owner patience, ?_⟩
  simp [Control.stack, Frame.hold, lock, before, after]

theorem Acquisition.takes {a : Acquisition} (straight : Straight m self (.acquisition a :: rest))
    (test : a.point = .test) (free : (w.lock a.lock).owner = none)
    (step : a.took w = some effect) : effect.Tends m self w (.acquisition a) rest := by
  by_cases lock : a.lock = .pause m
  · have owner : a.owner = self := straight.1 lock
    have before : holdOf m (.acquisition a :: rest) = none := by simp [Frame.hold, lock, test]
    have taken (hold : Hold) (begins : hold ≠ .fresh) : Hold.Turns self (w.manager m)
        ((w.modifyLock a.lock (·.take a.owner)).manager m) none (some hold) := by
      have free : (w.manager m).pauseLock.owner = none := by simpa [lock, World.lock] using free
      refine .take free ?_ ?_ ?_ begins <;> rw [World.manager_modifyLock, if_pos lock]
      exact congrArg some owner
    obtain ⟨p, below, rfl, point, manager, patient⟩ | ⟨e, below, rfl, point, manager, patience⟩ :=
      straight.below_acquisition lock
    · obtain ⟨interrupter, yields, patience⟩ : ∃ interrupter yields,
          a.patience = .interruptible interrupter yields := by
        cases same : a.patience with
        | uninterruptible => exact absurd same patient
        | interruptible interrupter yields => exact ⟨_, _, rfl⟩
      simp only [took, patience] at step
      obtain rfl := Option.some.inj step
      refine ⟨straight.on_acquisition rfl rfl patience.symm, ?_⟩
      rw [before]
      simpa [Control.stack, Frame.hold, manager, point, Pausing.Point.drives] using
        taken Pausing.Point.open.hold (by simp [Pausing.Point.hold])
    · simp only [took, patience] at step
      obtain rfl := Option.some.inj step
      refine ⟨straight.tail, ?_⟩
      rw [before]
      simpa [Control.stack, Frame.resume, Frame.hold, manager, point, Entering.Point.owns] using
        taken .idle (by simp)
  · have minds : w.Minds m (w.modifyLock a.lock (·.take a.owner)) :=
      .modifyLock w a.lock (absurd · lock)
    simp only [took] at step
    split at step <;> obtain rfl := Option.some.inj step
    · exact .calm minds (.reply straight (by simp [Frame.hold, lock]) (by simp))
    · exact .calm minds
        ⟨straight.on_acquisition rfl rfl rfl, by simp [Control.stack, Frame.hold, lock]⟩

/-- A driver that gives up waiting is to poll. -/
theorem Straight.gives_up {a : Acquisition} (straight : Straight m self (.acquisition a :: rest))
    (restore : a.point = .restore false) (patient : a.patience ≠ .uninterruptible) :
    Keeps m self (.acquisition a :: rest)
      ((Control.reply (.failed .interrupted)).stack rest) := by
  cases pause : a.lock with
  | pause n =>
    obtain ⟨p, below, rfl, point, manager, -⟩ | ⟨e, below, rfl, point, -, patience⟩ :=
      straight.below_acquisition pause
    · obtain ⟨⟨-, held⟩, stands, rest⟩ := straight.tail
      have held : p.manager = m → holdOf m below = none := fun same => held same (by simp [point])
      refine ⟨⟨⟨by simp, fun same _ => held same⟩, stands.exchange rfl rfl, rest⟩, ?_⟩
      simp only [Control.stack, Frame.resume, holdOf_cons, Frame.hold, Pausing.Point.drives,
        restore, pause, point]
      by_cases same : p.manager = m
      · simp [held same, ← manager, same]
      · have other : n ≠ m := manager ▸ same
        simp [same, other]
    · exact absurd patience patient
  | _ =>
    refine .reply straight (by simp [Frame.hold, pause]) fun {p below} same => ?_
    subst same
    have lock : a.lock = .pause p.manager := straight.2.1.2.1
    simp [pause] at lock

theorem Acquisition.tends {a : Acquisition} (straight : Straight m self (.acquisition a :: rest))
    (step : a.advance self w = some effect) : effect.Tends m self w (.acquisition a) rest := by
  have inside {f : OwnedLock → OwnedLock} (v : World)
      (owner : ∀ lock : OwnedLock, (f lock).owner = lock.owner) :
      v.Minds m (v.modifyLock a.lock f) :=
    .modifyLock v a.lock fun _ => owner _
  have away (f : Interrupter Wake → Interrupter Wake) (target : ThreadId) :
      w.Minds m ((w.modifyInterrupter target f).modifyLock a.lock (·.exit)) :=
    .of_agrees ((World.Agrees.modifyInterrupter w target f).trans (.modifyLock _ _ fun _ => rfl))
  have quiet (target : ThreadId) (f : Interrupter Wake → Interrupter Wake) :
      w.Minds m (w.modifyInterrupter target f) := ⟨rfl, rfl, rfl⟩
  cases patience : a.patience with
  | uninterruptible =>
    cases point : a.point with
    | test =>
      simp only [advance, patience, point] at step
      split at step
      · split at step
        · exact a.takes straight point ‹_› step
        · obtain rfl := Option.some.inj step
          exact .waits straight (inside w fun _ => rfl) rfl rfl rfl (by simp [point])
            (by simp [point])
      · simp at step
    | _ => simp [advance, patience, point] at step
  | interruptible interrupter yields =>
    cases point : a.point with
    | install =>
      simp only [advance, patience, point] at step
      obtain rfl := Option.some.inj step
      exact .waits straight (quiet _ _) rfl rfl patience.symm (by simp [point]) (by simp)
    | test =>
      simp only [advance, patience, point] at step
      split at step
      · split at step
        · exact a.takes straight point ‹_› step
        · obtain rfl := Option.some.inj step
          exact .waits straight (inside w fun _ => rfl) rfl rfl patience.symm (by simp [point])
            (by simp)
      · simp at step
    | checkFlag =>
      simp only [advance, patience, point, gaveUp] at step
      split at step <;> obtain rfl := Option.some.inj step
      · exact .waits straight (away _ _) rfl rfl patience.symm (by simp [point]) (by simp)
      · exact .waits straight (.refl w) rfl rfl patience.symm (by simp [point]) (by simp)
    | checkYield =>
      simp only [advance, patience, point, gaveUp] at step
      split at step <;> obtain rfl := Option.some.inj step
      · exact .waits straight (inside w fun _ => rfl) rfl rfl patience.symm (by simp [point])
          (by simp)
      · exact .waits straight (.refl w) rfl rfl patience.symm (by simp [point]) (by simp)
    | await =>
      simp only [advance, patience, point] at step
      obtain rfl := Option.some.inj step
      exact .waits straight (inside w fun _ => rfl) rfl rfl patience.symm (by simp [point]) (by simp)
    | restore acquired =>
      simp only [advance, patience, point] at step
      obtain rfl := Option.some.inj step
      cases acquired with
      | true => exact .calm (quiet _ _) (.reply straight (by simp [Frame.hold, point]) (by simp))
      | false => exact .calm (quiet _ _) (straight.gives_up point (by simp [patience]))

theorem Release.tends {lock : LockRef} {point : Release.Point}
    (straight : Straight m self (.release lock point :: rest))
    (step : Release.advance lock point w = some effect) :
    effect.Tends m self w (.release lock point) rest := by
  cases point with
  | notify =>
    obtain rfl := Option.some.inj step
    exact .calm (.modifyLock w lock fun _ => rfl) (.reply straight (by simp [Frame.hold]) (by simp))
  | clear =>
    simp only [advance] at step
    split at step
    · obtain rfl := Option.some.inj step
      have stands : (Frame.release lock .notify).Stands rest :=
        straight.2.1.alike (fun _ => id) rfl
      refine ⟨⟨straight.1, stands, straight.tail⟩, ?_⟩
      by_cases pause : lock = .pause m
      · subst pause
        have none : holdOf m rest = none := straight.1 rfl
        simp only [Control.stack, holdOf_cons, Frame.hold, none]
        refine .clear ?_ ?_ ?_ <;> rw [World.manager_modifyLock] <;> simp
      · simp only [Control.stack, holdOf_cons, Frame.hold, pause, false_and, if_false]
        have minds : w.Minds m (w.modifyLock lock (·.clear)) := .modifyLock w lock (absurd · pause)
        exact .keep minds.owner minds.epoch minds.action
    · simp at step

theorem OwnedLock.tendsNotify {lock : LockRef} (straight : Straight m self (.notify lock :: rest))
    (step : OwnedLock.advanceNotify lock w = some effect) :
    effect.Tends m self w (.notify lock) rest := by
  simp only [OwnedLock.advanceNotify] at step
  split at step
  · obtain rfl := Option.some.inj step
    exact .calm (.modifyLock w lock fun _ => rfl) (.reply straight rfl (by simp))
  · simp at step

theorem Arrival.tends {a : Arrival} (straight : Straight m self (.arrival a :: rest))
    (step : a.advance w = some effect) : effect.Tends m self w (.arrival a) rest := by
  have reply (value : Nat) :
      Keeps m self (.arrival a :: rest) ((Control.reply (.count value)).stack rest) :=
    .reply straight rfl (by simp)
  simp only [Arrival.advance] at step
  split at step
  · split at step <;> obtain rfl := Option.some.inj step
    · exact .calm (.setPhaser w _ _) (reply _)
    · exact .calm (.setPhaser w _ _) (.goto straight trivial
        (straight.2.1.alike (fun _ => id) rfl) rfl)
  · split at step
    · simp at step
    · obtain rfl := Option.some.inj step
      exact .calm (.refl w) (reply _)

theorem Interruption.tends {i : Interruption} (straight : Straight m self (.interruption i :: rest))
    (step : i.advance w = some effect) : effect.Tends m self w (.interruption i) rest := by
  have stands (i' : Interruption) : (Frame.interruption i').Stands rest :=
    straight.2.1.alike (fun _ => id) rfl
  have quiet (f : Interrupter Wake → Interrupter Wake) :
      w.Minds m (w.modifyInterrupter i.target f) := ⟨rfl, rfl, rfl⟩
  simp only [Interruption.advance] at step
  split at step
  · obtain rfl := Option.some.inj step
    exact .calm (quiet _) (.goto straight trivial (stands _) rfl)
  · split at step <;> obtain rfl := Option.some.inj step
    · exact .calm (.refl w) (.goto straight trivial (stands _) rfl)
    · exact .calm (.refl w) (.call straight trivial rfl trivial (stands _) rfl)
    · exact .calm (.refl w) (.call straight trivial rfl trivial (stands _) rfl)
  · obtain rfl := Option.some.inj step
    exact .calm (quiet _) (.reply straight rfl (by simp))

theorem Sleeping.tends {s : Sleeping} (straight : Straight m self (.sleeping s :: rest))
    (tame : isShaken (effect.control.stack rest) = false) (step : s.advance self w = some effect) :
    effect.Tends m self w (.sleeping s) rest := by
  have goto (s' : Sleeping) :
      Keeps m self (.sleeping s :: rest) ((Control.goto (.sleeping s')).stack rest) :=
    .goto straight trivial (straight.2.1.exchange rfl rfl) rfl
  have done (minds : w.Minds m effect.world) (control : (∃ value, effect.control = .reply value) ∨
      ∃ message, effect.control = .unwind message) : effect.Tends m self w (.sleeping s) rest :=
    .done straight rfl rfl rfl tame minds control
  simp only [Sleeping.advance] at step
  split at step
  · split at step <;> obtain rfl := Option.some.inj step
    · exact .calm (.refl w) (goto _)
    · exact done (.refl w) (.inr ⟨_, rfl⟩)
  · split at step <;> rename_i checks <;> obtain rfl := Option.some.inj step
    · exact .calm (.checkInterrupt checks) (goto _)
    · exact done (.checkInterrupt checks) (.inl ⟨_, rfl⟩)
  · split at step <;> obtain rfl := Option.some.inj step
    · exact done (.refl w) (.inl ⟨_, rfl⟩)
    · exact .calm (.refl w) (goto _)
  · split at step
    · obtain rfl := Option.some.inj step
      exact .calm ⟨rfl, rfl, rfl⟩ (goto _)
    · split at step
      · obtain rfl := Option.some.inj step
        exact .calm (.refl w) (goto _)
      · simp at step

theorem Parking.tends {point : Parking.Point} (straight : Straight m self (.parking point :: rest))
    (tame : isShaken (effect.control.stack rest) = false) (step : Parking.advance point self w = some effect) :
    effect.Tends m self w (.parking point) rest := by
  have goto (point' : Parking.Point) :
      Keeps m self (.parking point :: rest) ((Control.goto (.parking point')).stack rest) :=
    .goto straight trivial (straight.2.1.exchange rfl rfl) rfl
  have done (minds : w.Minds m effect.world) (control : (∃ value, effect.control = .reply value) ∨
      ∃ message, effect.control = .unwind message) : effect.Tends m self w (.parking point) rest :=
    .done straight rfl rfl rfl tame minds control
  cases point with
  | check =>
    simp only [Parking.advance] at step
    split at step <;> rename_i checks <;> obtain rfl := Option.some.inj step
    · exact .calm (.checkInterrupt checks) (goto _)
    · exact done (.checkInterrupt checks) (.inl ⟨_, rfl⟩)
  | parked =>
    simp only [Parking.advance] at step
    split at step
    · obtain rfl := Option.some.inj step
      exact .calm ⟨rfl, rfl, rfl⟩ (goto _)
    · simp at step
  | recheck =>
    obtain rfl := Option.some.inj step
    exact done (.checkInterrupt (Prod.eta _).symm) (.inl ⟨_, rfl⟩)

theorem Enrolment.tends {e : Enrolment} (straight : Straight m self (.enrolment e :: rest))
    (step : e.advance w = some effect) : effect.Tends m self w (.enrolment e) rest := by
  have reply (value : Bool) :
      Keeps m self (.enrolment e :: rest) ((Control.reply (.truth value)).stack rest) :=
    .reply straight rfl (by simp)
  simp only [Enrolment.advance] at step
  split at step
  · split at step
    · simp at step
    · split at step <;> obtain rfl := Option.some.inj step
      · exact .calm (.refl w) (reply _)
      · exact .calm (.modifyRegistry w _ _) (.goto straight trivial
          (straight.2.1.alike (fun _ => id) rfl) rfl)
  · obtain rfl := Option.some.inj step
    exact .calm (.modifyRegistry w _ _) (reply _)

theorem Withdrawal.tends {x : Withdrawal} (straight : Straight m self (.withdrawal x :: rest))
    (tame : isShaken (effect.control.stack rest) = false) (step : x.advance w = some effect) :
    effect.Tends m self w (.withdrawal x) rest := by
  have done (minds : w.Minds m effect.world) (control : (∃ value, effect.control = .reply value) ∨
      ∃ message, effect.control = .unwind message) : effect.Tends m self w (.withdrawal x) rest :=
    .done straight rfl rfl rfl tame minds control
  simp only [Withdrawal.advance] at step
  split at step
  · split at step
    · simp at step
    · split at step <;> obtain rfl := Option.some.inj step
      · exact done (.refl w) (.inl ⟨_, rfl⟩)
      · exact .calm (.modifyRegistry w _ _)
          (.goto straight trivial (straight.2.1.exchange rfl rfl) rfl)
  · split at step <;> obtain rfl := Option.some.inj step
    · exact done (.refl w) (.inr ⟨_, rfl⟩)
    · exact done (.depart ‹_›) (.inl ⟨_, rfl⟩)

theorem Visit.tends {v : Visit} (straight : Straight m self (.visit v :: rest))
    (tame : isShaken (effect.control.stack rest) = false) (step : v.advance w = some effect) :
    effect.Tends m self w (.visit v) rest := by
  have stands (v' : Visit) : (Frame.visit v').Stands rest :=
    straight.2.1.alike (fun _ => id) rfl
  have calm {v' : Visit} (goes : v'.point.isAbandon = false) :
      isShaken (.visit v' :: rest) = false := by
    unfold isShaken
    split <;> simp_all
  have goto (v' : Visit) (goes : v'.point.isAbandon = false) :
      Keeps m self (.visit v :: rest) ((Control.goto (.visit v')).stack rest) :=
    .goto straight (calm goes) (stands _) rfl
  simp only [Visit.advance] at step
  split at step
  · obtain rfl := Option.some.inj step
    exact .calm (.refl w) (goto _ rfl)
  · obtain rfl := Option.some.inj step
    exact .calm (.refl w) (.reply straight rfl (by simp))
  · rename_i point _
    have goes : v.point.isAbandon = false := by simp [point, Visit.Point.isAbandon]
    split at step
    · split at step <;> obtain rfl := Option.some.inj step
      · exact .calm (.modifyRegistry w _ _)
          (.call straight trivial ⟨_, rfl⟩ (calm rfl) (stands _) rfl)
      · exact .calm (.refl w) (goto _ goes)
    · obtain rfl := Option.some.inj step
      exact .calm (.refl w) (goto _ goes)
  · obtain rfl := Option.some.inj step
    exact .calm (.modifyRegistry w _ _) (goto _ rfl)
  · rename_i point
    obtain rfl := Option.some.inj step
    refine .calm (.modifyRegistry w _ _) (.unwound straight rfl rfl ?_ tame)
    rintro _ p below ⟨⟩ rfl
    have whole := straight.1
    simp [Frame.Suits, isShaken, point, Visit.Point.isAbandon] at whole

theorem Script.tends {s : Script} (straight : Straight m self (.script s :: rest))
    (step : s.advance self w = some effect) : effect.Tends m self w (.script s) rest := by
  have stands (s' : Script) : (Frame.script s').Stands rest :=
    straight.2.1.alike (fun _ => id) rfl
  simp only [Script.advance] at step
  split at step
  · obtain rfl := Option.some.inj step
    exact .calm (.refl w) (.goto straight trivial (stands _) rfl)
  · obtain rfl := Option.some.inj step
    exact .calm (.refl w) (.reply straight rfl (by simp))
  · split at step <;> obtain rfl := Option.some.inj step
    · exact .calm (.refl w) (.goto straight trivial (stands _) rfl)
    · exact .calm (.refl w) (.call straight trivial rfl trivial (stands _) rfl)

theorem Sequence.tends {s : Sequence} (straight : Straight m self (.sequence s :: rest))
    (step : s.advance w = some effect) : effect.Tends m self w (.sequence s) rest := by
  simp only [Sequence.advance] at step
  split at step <;> obtain rfl := Option.some.inj step
  · exact .calm (.refl w) (.loose straight rfl rfl _)
  · exact .calm (.refl w)
      (.call straight trivial rfl trivial (straight.2.1.exchange rfl rfl) rfl)

theorem Drain.tends {d : Drain} (straight : Straight m self (.drain d :: rest))
    (step : d.advance w = some effect) : effect.Tends m self w (.drain d) rest := by
  have stands (d' : Drain) : (Frame.drain d').Stands rest := straight.2.1.exchange rfl rfl
  simp only [Drain.advance] at step
  split at step <;> obtain rfl := Option.some.inj step
  · exact .calm ⟨rfl, rfl, rfl⟩ (.goto straight trivial (stands _) rfl)
  · exact .calm (.refl w) (.loose straight rfl rfl _)
  · exact .calm (.refl w) (.call straight trivial rfl trivial (stands _) rfl)

theorem Trial.tends {t : Trial} (straight : Straight m self (.trial t :: rest))
    (tame : isShaken (effect.control.stack rest) = false) (step : t.advance self w = some effect) :
    effect.Tends m self w (.trial t) rest := by
  have stands {frame : Frame} (servant : frame.isServant = false) : frame.Stands rest :=
    straight.2.1.exchange rfl servant
  have done (minds : w.Minds m effect.world) (control : (∃ value, effect.control = .reply value) ∨
      ∃ message, effect.control = .unwind message) : effect.Tends m self w (.trial t) rest :=
    .done straight rfl rfl rfl tame minds control
  have goto (t' : Trial) : Keeps m self (.trial t :: rest) ((Control.goto (.trial t')).stack rest) :=
    .goto straight trivial (stands rfl) rfl
  have word {frame : Frame} (text : String) (suits : frame.Suits m self (.word text :: rest))
      (servant : frame.isServant = false) (hold : frame.hold m (holdOf m rest) = holdOf m rest) :
      Keeps m self (.trial t :: rest) ((Control.call frame (.word text)).stack rest) := by
    refine .call straight suits ?_ trivial (stands rfl) hold
    cases frame <;> exact servant
  simp only [Trial.advance] at step
  split at step
  · obtain rfl := Option.some.inj step
    exact .calm (.refl w) (goto _)
  · split at step
    case h_2 | h_3 | h_4 =>
      obtain rfl := Option.some.inj step
      exact .calm (.refl w) (word _ trivial rfl rfl)
    case h_5 =>
      obtain rfl := Option.some.inj step
      exact .calm (.refl w) (.call straight trivial rfl trivial (stands rfl) rfl)
    case h_1 =>
      obtain rfl := Option.some.inj step
      exact done (.refl w) (.inl ⟨_, rfl⟩)
    case h_6 =>
      obtain rfl := Option.some.inj step
      exact done (.refl w) (.inr ⟨_, rfl⟩)
    all_goals
      split at step <;> obtain rfl := Option.some.inj step
      · exact done (.refl w) (.inl ⟨_, rfl⟩)
      · exact .calm (.refl w) (goto _)
  · split at step <;> rename_i checks <;> obtain rfl := Option.some.inj step <;>
      exact done (.checkInterrupt checks) (.inl ⟨_, rfl⟩)

/-- What the phases of the driver make of its hold: the driver of a pause publishes the fresh epoch. -/
theorem Phases.tends {p : Phases} (straight : Straight m self (.phases p :: rest))
    (step : p.advance w = some effect) : effect.Tends m self w (.phases p) rest := by
  have publishes := straight.1
  have stands := straight.2.1
  have goto {q : Phases} (manager : q.manager = p.manager) (drives : q.drives = p.drives) :
      (Frame.phases q).Stands rest :=
    stands.alike (fun parent => by cases parent <;> simp [Frame.Heads, manager, drives, Frame.isServant]) rfl
  cases point : p.point with
  | first =>
    simp only [advance, point] at step
    obtain rfl := Option.some.inj step
    refine .calm (.refl w) (.call straight trivial ?_ ?_ (goto rfl rfl) ?_)
    · cases drives : p.drives <;> simp [Frame.Heads]
    · cases drives : p.drives <;> simp [Frame.Suits]
    · cases drives : p.drives <;> simp [Frame.hold, point, drives, Phases.Point.isFresh]
  | republish =>
    simp only [advance, point] at step
    obtain rfl := Option.some.inj step
    refine ⟨⟨by simp [Frame.Suits], goto rfl rfl, straight.tail⟩, ?_⟩
    have drives : p.drives = true := publishes point
    by_cases manager : p.manager = m
    · simp only [Control.stack, holdOf_cons, Frame.hold, manager, drives, point]
      refine .work ?_ fun _ => ?_ <;> rw [World.manager_modifyManager] <;>
        simp [Hold.Demands, Phases.Point.isFresh]
    · simp only [Control.stack, holdOf_cons, Frame.hold, manager, false_and, if_false]
      refine .keep ?_ ?_ ?_ <;> rw [World.manager_modifyManager, if_neg (Ne.symm manager)]
  | second =>
    simp only [advance, point] at step
    obtain rfl := Option.some.inj step
    exact .calm (.refl w) (.call straight trivial (by simp [Frame.Heads]) (by simp [Frame.Suits])
      (goto rfl rfl) (by simp [Frame.hold, point, Phases.Point.isFresh]))
  | choose =>
    have act : Keeps m self (.phases p :: rest)
        ((Control.goto (.phases { p with point := .third })).stack rest) :=
      .goto straight (by simp [Frame.Suits]) (goto rfl rfl)
        (by simp [Frame.hold, point, Phases.Point.isFresh])
    simp only [advance, point] at step
    split at step
    · split at step <;> obtain rfl := Option.some.inj step
      · exact .calm (.refl w) act
      · exact .calm (.refl w) (.call straight trivial rfl (by simp [Frame.Suits]) (goto rfl rfl)
          (by simp [Frame.hold, point, Phases.Point.isFresh]))
    · obtain rfl := Option.some.inj step
      exact .calm (.refl w) act
  | third =>
    simp only [advance, point] at step
    obtain rfl := Option.some.inj step
    exact .calm (.refl w) (.call straight trivial (by simp [Frame.Heads]) (by simp [Frame.Suits])
      (goto rfl rfl) (by simp [Frame.hold, point, Phases.Point.isFresh]))
  | finish =>
    simp only [advance, point] at step
    obtain rfl := Option.some.inj step
    refine .calm (.refl w) (.reply straight ?_ fun _ failure => by cases p.outcome <;> simp)
    cases rest with
    | nil => simp [Frame.Stands, Frame.isServant] at stands
    | cons parent below =>
      cases parent with
      | pausing q =>
        obtain ⟨exits, same, drives⟩ := stands
        simp only [holdOf_cons, Frame.hold, point, same, drives, exits, Phases.Point.isFresh,
          Pausing.Point.drives, Pausing.Point.hold]
        split <;> simp_all
      | polling q =>
        have follows : p.drives = false := stands
        simp [Frame.hold, follows]
      | _ => simp [Frame.Stands, Frame.Heads, Frame.isServant] at stands

theorem Resuming.tends {r : Resuming} (straight : Straight m self (.resuming r :: rest))
    (tame : isShaken (effect.control.stack rest) = false) (step : r.advance self w = some effect) :
    effect.Tends m self w (.resuming r) rest := by
  have stands (r' : Resuming) : (Frame.resuming r').Stands rest :=
    straight.2.1.alike (fun _ => id) rfl
  have reply : Keeps m self (.resuming r :: rest) ((Control.reply .nothing).stack rest) :=
    .reply straight rfl (by simp)
  simp only [Resuming.advance] at step
  split at step
  · split at step <;> obtain rfl := Option.some.inj step
    · exact .calm (.refl w) (.call straight (by simp [Frame.Suits, Acquisition.begin]) rfl trivial
        (stands _) (by simp [Frame.hold, Acquisition.begin]))
    · exact .calm (.refl w) (.goto straight trivial (stands _) rfl)
  · split at step <;> obtain rfl := Option.some.inj step
    · exact .calm (.refl w) (.unwound straight rfl rfl (by simp) tame)
    · exact .calm (.refl w) reply
    · exact .calm (.refl w) (.call straight trivial rfl trivial (stands _) rfl)
  · obtain rfl := Option.some.inj step
    exact .calm (.refl w) reply

theorem Polling.tends {p : Polling} (straight : Straight m self (.polling p :: rest))
    (step : p.advance self w = some effect) : effect.Tends m self w (.polling p) rest := by
  have stands (p' : Polling) : (Frame.polling p').Stands rest :=
    straight.2.1.alike (fun _ => id) rfl
  have goto (p' : Polling) :
      Keeps m self (.polling p :: rest) ((Control.goto (.polling p')).stack rest) :=
    .goto straight trivial (stands _) rfl
  have reply : Keeps m self (.polling p :: rest) ((Control.reply .nothing).stack rest) :=
    .reply straight rfl (by simp)
  simp only [Polling.advance] at step
  split at step
  · split at step <;> obtain rfl := Option.some.inj step
    · exact .calm (.refl w) reply
    · exact .calm (.refl w) (goto _)
  · obtain rfl := Option.some.inj step
    exact .calm (.modifyManager w _ rfl rfl rfl) (goto _)
  · split at step <;> obtain rfl := Option.some.inj step
    · exact .calm (.refl w) reply
    · exact .calm (.refl w) (goto _)
  · obtain ⟨⟨v, notes⟩, leaves, goes⟩ := Option.bind_eq_some_iff.mp step
    obtain rfl := Option.some.inj goes
    exact .calm (.of_agrees (World.Agrees.leaveGlobal leaves).1) (goto _)
  · obtain rfl := Option.some.inj step
    exact .calm ⟨rfl, rfl, rfl⟩ (.call straight (by simp [Frame.Suits]) rfl trivial (stands _)
      (by simp [Frame.hold]))
  · obtain rfl := Option.some.inj step
    exact .calm ⟨rfl, rfl, rfl⟩ (.goto straight trivial
      (straight.2.1.alike (fun _ => id) rfl) rfl)

/-- Past the gate of a call that takes the pause lock, a thread has no hold on it yet. -/
theorem no_hold {n : ManagerId} (owned : (holdOf m rest).isSome = true →
      (w.manager m).pauseLock.owner = some self)
    (enters : ¬ w.isReentrant n self = true) (same : n = m) : holdOf m rest = none := by
  subst same
  simp only [World.isReentrant, OwnedLock.isHeldBy, Bool.or_eq_true, decide_eq_true_eq,
    not_or] at enters
  cases hold : holdOf n rest with
  | none => rfl
  | some => exact absurd (owned (by simp [hold])) enters.1

theorem Entering.tends {e : Entering} (straight : Straight m self (.entering e :: rest))
    (owned : (holdOf m (.entering e :: rest)).isSome = true →
      (w.manager m).pauseLock.owner = some self)
    (step : e.advance self w = some effect) : effect.Tends m self w (.entering e) rest := by
  have stands {frame : Frame} (servant : frame.isServant = false) : frame.Stands rest :=
    straight.2.1.exchange rfl servant
  have past (point : e.point ≠ .gate) (same : e.manager = m) : holdOf m rest = none :=
    straight.1 same point
  cases point : e.point with
  | gate =>
    simp only [advance, point] at step
    split at step <;> obtain rfl := Option.some.inj step
    · exact .calm (.refl w)
        (.loose straight rfl (by simp [Frame.hold, point, Entering.Point.owns]) _)
    · rename_i enters
      have owned : (holdOf m rest).isSome = true →
          (w.manager m).pauseLock.owner = some self := by
        simpa [Frame.hold, point, Entering.Point.owns] using owned
      exact .calm (.refl w) (.goto straight (fun same _ => no_hold owned enters same) (stands rfl)
        (by simp [Frame.hold, point, Entering.Point.owns]))
  | lookup =>
    simp only [advance, point] at step
    split at step <;> obtain rfl := Option.some.inj step
    · exact .calm (.refl w)
        (.loose straight rfl (by simp [Frame.hold, point, Entering.Point.owns]) _)
    · exact .calm (.refl w) (.goto straight (fun same _ => past (by simp [point]) same) (stands rfl)
        (by simp [Frame.hold, point, Entering.Point.owns]))
  | lock =>
    simp only [advance, point] at step
    obtain rfl := Option.some.inj step
    refine .calm (.refl w) (.call straight (fun _ => rfl) ⟨rfl, rfl, rfl⟩
      (fun same _ => past (by simp [point]) same) (stands rfl) ?_)
    by_cases same : e.manager = m
    · simp [Frame.hold, Acquisition.begin, same, point, Entering.Point.owns,
        past (by simp [point]) same]
    · simp [Frame.hold, Acquisition.begin, same]
  | enrol =>
    simp only [advance, point] at step
    obtain rfl := Option.some.inj step
    exact .calm (.refl w) (.call straight trivial rfl (fun same _ => past (by simp [point]) same)
      (stands rfl) (by simp [Frame.hold, point, Entering.Point.owns]))
  | announce =>
    simp only [advance, point] at step
    have goto : Keeps m self (.entering e :: rest)
        ((Control.goto (.entering { e with point := .unlock })).stack rest) :=
      .goto straight (fun same _ => past (by simp [point]) same) (stands rfl)
        (by simp [Frame.hold, point, Entering.Point.owns])
    split at step <;> obtain rfl := Option.some.inj step
    · exact .calm (.modifyManager w _ rfl rfl rfl) goto
    · exact .calm (.refl w) goto
  | unlock =>
    simp only [advance, point] at step
    obtain rfl := Option.some.inj step
    refine .calm (.refl w) (.call straight (fun same => past (by simp [point]) (LockRef.pause.inj same))
      rfl trivial (stands rfl) ?_)
    simp [Frame.hold, point, Entering.Point.owns]

theorem Leaving.tends {l : Leaving} (straight : Straight m self (.leaving l :: rest))
    (step : l.advance self w = some effect) : effect.Tends m self w (.leaving l) rest := by
  have goto (l' : Leaving) : Keeps m self (.leaving l :: rest)
      ((Control.goto (.leaving l')).stack rest) :=
    .goto straight trivial (straight.2.1.exchange rfl rfl) rfl
  have reply : Keeps m self (.leaving l :: rest) ((Control.reply .nothing).stack rest) :=
    .loose straight rfl rfl _
  simp only [Leaving.advance] at step
  split at step
  · split at step <;> obtain rfl := Option.some.inj step
    · exact .calm (.refl w) reply
    · exact .calm (.refl w) (goto _)
  · split at step <;> obtain rfl := Option.some.inj step
    · exact .calm (.refl w) (goto _)
    · exact .calm (.refl w) reply
  · obtain rfl := Option.some.inj step
    exact .calm (.refl w)
      (.call straight trivial rfl trivial (straight.2.1.exchange rfl rfl) rfl)
  · obtain rfl := Option.some.inj step
    exact .calm (.refl w)
      (.call straight trivial rfl trivial (straight.2.1.exchange rfl rfl) rfl)
  · split at step <;> obtain rfl := Option.some.inj step
    · exact .calm (.modifyManager w _ rfl rfl rfl) reply
    · exact .calm (.refl w) reply

/-- What a driver makes of its hold. -/
theorem Pausing.tends {p : Pausing} (straight : Straight m self (.pausing p :: rest))
    (owned : (holdOf m (.pausing p :: rest)).isSome = true →
      (w.manager m).pauseLock.owner = some self)
    (step : p.advance self w = some effect) : effect.Tends m self w (.pausing p) rest := by
  have stands {frame : Frame} (servant : frame.isServant = false) : frame.Stands rest :=
    straight.2.1.exchange rfl servant
  have present : p.point ≠ .abandon := straight.1.1
  have past (point : p.point ≠ .gate) (same : p.manager = m) : holdOf m rest = none :=
    straight.1.2 same point
  have goto {q : Pausing} (manager : q.manager = p.manager) (point : p.point ≠ .gate)
      (present : q.point ≠ .abandon) (drives : q.point.drives = p.point.drives)
      (hold : q.point.hold = p.point.hold) :
      Keeps m self (.pausing p :: rest) ((Control.goto (.pausing q)).stack rest) :=
    .goto straight ⟨present, fun same _ => past point (manager ▸ same)⟩ (stands rfl)
      (by simp [Frame.hold, manager, drives, hold])
  have call {frame : Frame} {q : Pausing} (suits : frame.Suits m self (.pausing q :: rest))
      (heads : frame.Heads (.pausing q)) (manager : q.manager = p.manager) (point : p.point ≠ .gate)
      (present : q.point ≠ .abandon)
      (hold : frame.hold m ((Frame.pausing q).hold m (holdOf m rest)) =
        (Frame.pausing p).hold m (holdOf m rest)) :
      Keeps m self (.pausing p :: rest) ((Control.call frame (.pausing q)).stack rest) :=
    .call straight suits heads ⟨present, fun same _ => past point (manager ▸ same)⟩ (stands rfl) hold
  -- A step by which the driver changes what its hold is worth.
  have work {f : Manager → Manager} {next : Pausing.Point} {notes : List Note}
      (drives : p.point.drives = true) (drives' : next.drives = true) (point : p.point ≠ .gate)
      (present : next ≠ .abandon)
      (owner : ∀ manager : Manager, (f manager).pauseLock.owner = manager.pauseLock.owner)
      (demands : ∀ manager : Manager, p.point.hold.Demands manager → next.hold.Demands (f manager)) :
      (Effect.mk (w.modifyManager p.manager f) (.goto (.pausing { p with point := next }))
        notes).Tends m self w (.pausing p) rest := by
    refine ⟨⟨⟨present, fun same _ => past point same⟩, stands rfl, straight.tail⟩, ?_⟩
    by_cases manager : p.manager = m
    · simp only [Control.stack, holdOf_cons, Frame.hold, manager, drives, drives']
      refine .work ?_ ?_ <;> rw [World.manager_modifyManager]
      · simpa using owner _
      · simpa using demands _
    · simp only [Control.stack, holdOf_cons, Frame.hold, manager, false_and, if_false]
      refine .keep ?_ ?_ ?_ <;> rw [World.manager_modifyManager, if_neg (Ne.symm manager)]
  cases point : p.point <;> simp only [advance, point] at step
  case gate =>
    split at step <;> obtain rfl := Option.some.inj step
    · exact .calm (.refl w)
        (.loose straight rfl (by simp [Frame.hold, point, Pausing.Point.drives]) _)
    · rename_i enters
      have owned : (holdOf m rest).isSome = true →
          (w.manager m).pauseLock.owner = some self := by
        simpa [Frame.hold, point, Pausing.Point.drives] using owned
      exact .calm (.refl w) (.goto straight
        ⟨by simp, fun same _ => no_hold owned enters same⟩ (stands rfl)
        (by simp [Frame.hold, point, Pausing.Point.drives]))
  case lookup =>
    split at step <;> obtain rfl := Option.some.inj step
    · exact .calm (.refl w)
        (.loose straight rfl (by simp [Frame.hold, point, Pausing.Point.drives]) _)
    · exact .calm (.refl w) (goto rfl (by simp [point]) (by simp)
        (by simp [point, Pausing.Point.drives]) (by simp [point, Pausing.Point.hold]))
  case lock =>
    obtain rfl := Option.some.inj step
    refine .calm (.refl w) (call (fun _ => rfl) ⟨rfl, rfl, by simp [Acquisition.begin]⟩ rfl
      (by simp [point]) (by simp) ?_)
    by_cases same : p.manager = m
    · simp [Frame.hold, Acquisition.begin, same, point, Pausing.Point.drives,
        past (by simp [point]) same]
    · simp [Frame.hold, Acquisition.begin, same]
  case poll =>
    obtain rfl := Option.some.inj step
    exact .calm (.refl w) (call trivial rfl rfl (by simp [point]) (by simp)
      (by simp [Frame.hold, point, Pausing.Point.drives]))
  case «open» | account =>
    obtain rfl := Option.some.inj step
    refine .calm ?_ (goto rfl (by simp [point]) (by simp) (by simp [point, Pausing.Point.drives])
      (by simp [point, Pausing.Point.hold]))
    first | exact .refl w | exact .modifyManager w _ rfl rfl rfl
  case announceStart | announceEnd =>
    obtain rfl := Option.some.inj step
    exact .calm (.modifyManager w _ rfl rfl rfl) (goto rfl (by simp [point]) (by simp)
      (by simp [point, Pausing.Point.drives]) (by simp [point, Pausing.Point.hold]))
  case store | invalidate =>
    obtain rfl := Option.some.inj step
    exact work (by simp [point, Pausing.Point.drives]) rfl (by simp [point]) (by simp)
      (fun _ => rfl) fun _ _ => trivial
  case clear =>
    obtain rfl := Option.some.inj step
    exact work (by simp [point, Pausing.Point.drives]) rfl (by simp [point]) (by simp)
      (fun _ => rfl) fun manager => by simp [point, Pausing.Point.hold, Hold.Demands]
  case wakeWaiters =>
    obtain rfl := Option.some.inj step
    refine .calm (.refl w) (call trivial ?_ rfl (by simp [point]) ?_ ?_) <;> split <;>
      simp [Frame.Heads, Frame.hold, point, Pausing.Point.drives, Pausing.Point.hold]
  case interrupt =>
    obtain rfl := Option.some.inj step
    exact .calm (.refl w) (call rfl rfl rfl (by simp [point]) (by simp)
      (by simp [Frame.hold, point, Pausing.Point.drives, Pausing.Point.hold]))
  case leaveGlobal =>
    have goes : Keeps m self (.pausing p :: rest)
        ((Control.goto (.pausing { p with point := .enterPhases })).stack rest) :=
      goto rfl (by simp [point]) (by simp) (by simp [point, Pausing.Point.drives])
        (by simp [point, Pausing.Point.hold])
    split at step
    · obtain ⟨⟨v, notes⟩, leaves, same⟩ := Option.bind_eq_some_iff.mp step
      obtain rfl := Option.some.inj same
      exact .calm (.of_agrees (World.Agrees.leaveGlobal leaves).1) goes
    · obtain rfl := Option.some.inj step
      exact .calm (.refl w) goes
  case enterPhases =>
    obtain rfl := Option.some.inj step
    refine .calm ⟨rfl, rfl, rfl⟩ (call (by simp [Frame.Suits]) ⟨rfl, rfl, rfl⟩ rfl
      (by simp [point]) (by simp) ?_)
    simp only [Frame.hold, point, Pausing.Point.drives, Pausing.Point.hold, Phases.Point.isFresh]
    split <;> simp_all
  case exitPhases =>
    obtain rfl := Option.some.inj step
    exact .calm ⟨rfl, rfl, rfl⟩ (goto rfl (by simp [point]) (by simp)
      (by simp [point, Pausing.Point.drives]) (by simp [point, Pausing.Point.hold]))
  case unlock =>
    obtain rfl := Option.some.inj step
    refine .calm (.refl w) (call (fun same => ?_) rfl rfl (by simp [point]) (by simp) ?_)
    · simp [Frame.hold, Pausing.Point.drives, past (by simp [point]) (LockRef.pause.inj same)]
    · simp [Frame.hold, point, Pausing.Point.drives, Pausing.Point.hold]
  case resume =>
    obtain rfl := Option.some.inj step
    exact .calm (.refl w) (.call straight trivial rfl trivial (stands rfl)
      (by simp [Frame.hold, point, Pausing.Point.drives]))
  case abandon => exact absurd point present

theorem Foreign.tends {f : Foreign} (straight : Straight m self (.foreign f :: rest))
    (step : f.advance w = some effect) : effect.Tends m self w (.foreign f) rest := by
  have call {frame back : Frame} (suits : frame.Suits m self (back :: rest))
      (heads : frame.Heads back) (suitsBack : back.Suits m self rest)
      (servant : back.isServant = false)
      (hold : frame.hold m (back.hold m (holdOf m rest)) = holdOf m rest) :
      Keeps m self (.foreign f :: rest) ((Control.call frame back).stack rest) :=
    .call straight suits heads suitsBack (straight.2.1.exchange rfl servant) hold
  simp only [Foreign.advance] at step
  split at step
  · obtain rfl := Option.some.inj step
    exact .calm (.refl w) (call (by simp [Frame.Suits]) rfl trivial rfl
      (by simp [Frame.hold, Entering.Point.owns]))
  · obtain rfl := Option.some.inj step
    exact .calm (.refl w) (call (by simp [Frame.Suits]) rfl trivial rfl
      (by simp [Frame.hold, Pausing.Point.drives]))
  · split at step <;> obtain rfl := Option.some.inj step
    · exact .calm (.refl w) (call trivial rfl trivial rfl rfl)
    · exact .calm (.refl w) (.loose straight rfl rfl _)
  · obtain rfl := Option.some.inj step
    exact .calm (.refl w) (call trivial rfl trivial rfl rfl)

theorem Acquiring.tends {a : Acquiring} (straight : Straight m self (.acquiring a :: rest))
    (step : a.advance self w = some effect) : effect.Tends m self w (.acquiring a) rest := by
  have stands (a' : Acquiring) : (Frame.acquiring a').Stands rest := straight.2.1.exchange rfl rfl
  simp only [Acquiring.advance] at step
  split at step <;> obtain rfl := Option.some.inj step
  · exact .calm (.refl w) (.call straight (by simp [Frame.Suits, Acquisition.begin]) rfl trivial
      (stands _) (by simp [Frame.hold, Acquisition.begin]))
  · exact .calm (.refl w) (.call straight trivial rfl trivial (stands _) rfl)
  · exact .calm (.refl w) (.loose straight rfl rfl _)

theorem Blocking.tends {b : Blocking} (straight : Straight m self (.blocking b :: rest))
    (step : b.advance self w = some effect) : effect.Tends m self w (.blocking b) rest := by
  have stands {frame : Frame} (servant : frame.isServant = false) : frame.Stands rest :=
    straight.2.1.exchange rfl servant
  have goto (b' : Blocking) : Keeps m self (.blocking b :: rest)
      ((Control.goto (.blocking b')).stack rest) :=
    .goto straight trivial (stands rfl) rfl
  simp only [Blocking.advance] at step
  split at step
  · split at step
    · obtain ⟨⟨v, notes⟩, leaves, goes⟩ := Option.bind_eq_some_iff.mp step
      obtain rfl := Option.some.inj goes
      exact .calm (.of_agrees (World.Agrees.leaveGlobal leaves).1) (goto _)
    · obtain rfl := Option.some.inj step
      exact .calm (.refl w) (goto _)
  · obtain rfl := Option.some.inj step
    exact .calm (.refl w) (.call straight trivial rfl trivial (stands rfl) rfl)
  · split at step <;> obtain rfl := Option.some.inj step
    · exact .calm (.refl w) (.call straight trivial rfl trivial (stands rfl) rfl)
    · exact .calm (.refl w) (goto _)
  · split at step <;> obtain rfl := Option.some.inj step
    · exact .calm (.refl w) (.call straight trivial rfl trivial (stands rfl) rfl)
    · exact .calm (.refl w) (.loose straight rfl rfl _)

theorem Frame.tends (straight : Straight m self (frame :: rest))
    (owned : (holdOf m (frame :: rest)).isSome = true →
      (w.manager m).pauseLock.owner = some self)
    (tame : isShaken (effect.control.stack rest) = false) (step : frame.advance self w = some effect) :
    effect.Tends m self w frame rest := by
  cases frame with
  | start op => exact Op.tends straight tame step
  | answer | discard | word =>
    obtain rfl := Option.some.inj step
    exact .calm (.refl w) (.loose straight rfl rfl _)
  | keepGuard =>
    obtain rfl := Option.some.inj step
    exact .calm ⟨rfl, rfl, rfl⟩ (.loose straight rfl rfl _)
  | rethrow message =>
    obtain rfl := Option.some.inj step
    exact .calm (.refl w) (.unwound straight rfl rfl (by simp) tame)
  | acquisition a => exact a.tends straight step
  | release lock point => exact Release.tends straight step
  | notify lock => exact OwnedLock.tendsNotify straight step
  | arrival a => exact a.tends straight step
  | interruption i => exact i.tends straight step
  | sleeping s => exact s.tends straight tame step
  | parking point => exact Parking.tends straight tame step
  | enrolment e => exact e.tends straight step
  | withdrawal x => exact x.tends straight tame step
  | visit v => exact v.tends straight tame step
  | script s => exact s.tends straight step
  | sequence s => exact s.tends straight step
  | drain d => exact d.tends straight step
  | phases p => exact p.tends straight step
  | resuming r => exact r.tends straight tame step
  | polling p => exact p.tends straight step
  | entering e => exact e.tends straight owned step
  | leaving l => exact l.tends straight step
  | pausing p => exact p.tends straight owned step
  | foreign f => exact f.tends straight step
  | acquiring a => exact a.tends straight step
  | blocking b => exact b.tends straight step
  | trial t => exact t.tends straight tame step

end

end StopTheWorld
