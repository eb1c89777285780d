import StopTheWorld.Proofs.Locks

namespace StopTheWorld

/-! What a world keeps for its users, the guards of locks and of callbacks, and which steps have to do with
it. -/

/-- The guards of locks and those of callbacks. -/
def World.kept (w : World) : List LockId × List KeptBlocker := (w.guards, w.blockers)

/-- The step of the frame keeps a guard for user code, or drops one. -/
def Frame.keepsGuards : Frame → Bool
  | keepGuard _ _ | start (.unlock _) | start (.blockOn _ _ _) | start (.access (.unblock _)) => true
  | _ => false

section

variable {self thread : ThreadId} {w v : World} {frame : Frame} {effect : Effect} {notes : List Note}

namespace World

@[simp] theorem kept_modifyLock (lock : LockRef) (f : OwnedLock → OwnedLock) :
    (w.modifyLock lock f).kept = w.kept := by
  cases lock <;> rfl

@[simp] theorem kept_modifyRegistry (registry : RegistryRef) (f : Registry → Registry) :
    (w.modifyRegistry registry f).kept = w.kept := by
  cases registry <;> rfl

@[simp] theorem kept_setPhaser (phaser : PhaserRef) (value : Phaser) :
    (w.setPhaser phaser value).kept = w.kept := by
  cases phaser with
  | loose => rfl
  | registry registry => exact kept_modifyRegistry registry _

@[simp] theorem kept_setStack (stack : List Frame) : (w.setStack thread stack).kept = w.kept := rfl

theorem kept_checkInterrupt (thread : ThreadId) : (w.checkInterrupt thread).1.kept = w.kept := by
  unfold checkInterrupt
  split <;> rfl

theorem kept_leaveGlobal {lock : GlobalId} {owner : ThreadId}
    (leaves : w.leaveGlobal lock owner = some (v, notes)) : v.kept = w.kept := by
  simp only [leaveGlobal] at leaves
  split at leaves
  · obtain ⟨rfl, -⟩ := Prod.mk.inj (Option.some.inj leaves)
    exact kept_modifyLock _ _
  · simp at leaves

theorem kept_depart {phaser : PhaserRef} {phase : Nat}
    (departs : w.depart phaser = .ok (v, phase, notes)) : v.kept = w.kept := by
  unfold depart at departs
  dsimp only at departs
  split at departs
  · simp at departs
  · simp only [Except.ok.injEq, Prod.mk.injEq] at departs
    obtain ⟨rfl, -, -⟩ := departs
    exact kept_setPhaser _ _

theorem kept_unsubscribe (name : String) : (w.unsubscribe name).kept = w.kept := by
  unfold unsubscribe
  split <;> rfl

/-- What is no step of a thread has nothing to do with it. -/
theorem kept_other {move : Move} (moves : w.move move = some (v, notes))
    (other : ∀ thread, move ≠ .run thread) : v.kept = w.kept := by
  cases move with
  | run thread => exact absurd rfl (other thread)
  | submit thread op =>
    obtain ⟨u, submit, same⟩ := Option.map_eq_some_iff.mp moves
    obtain ⟨rfl, rfl⟩ := Prod.mk.inj same
    unfold World.submit at submit
    split at submit
    · obtain rfl := Option.some.inj submit
      rfl
    · simp at submit
  | elapse span =>
    obtain ⟨rfl, rfl⟩ := Prod.mk.inj (Option.some.inj moves)
    rfl
  | rouse thread =>
    obtain ⟨rfl, rfl⟩ := Prod.mk.inj (Option.some.inj moves)
    unfold World.rouse
    split
    · exact World.kept_modifyLock _ _
    · rfl
    · split <;> rfl
    · rfl

end World

theorem Access.keeps_kept {access : Access} (step : access.advance self w = some effect)
    (apart : (Frame.start (.access access)).keepsGuards = false) : effect.world.kept = w.kept := by
  cases access with
  | globalLeave lock owner =>
    obtain ⟨v, notes, leaves, rfl⟩ := World.leaves_of_bind step
    exact World.kept_leaveGlobal leaves
  | phaserDepart phaser =>
    simp only [advance] at step
    split at step <;> obtain rfl := Option.some.inj step
    · rfl
    · exact World.kept_depart ‹_›
  | subscribe n name | unsubscribe name =>
    obtain rfl := Option.some.inj step
    exact World.kept_unsubscribe name
  | check other =>
    obtain rfl := Option.some.inj step
    exact World.kept_checkInterrupt _
  | globalTryEnter =>
    simp only [advance] at step
    repeat' split at step
    all_goals first
      | (obtain rfl := Option.some.inj step
         rfl)
      | simp at step
  | unblock => simp [Frame.keepsGuards] at apart
  | _ =>
    obtain rfl := Option.some.inj step
    rfl

theorem Op.keeps_kept {op : Op} (step : op.advance self w = some effect)
    (apart : (Frame.start op).keepsGuards = false) : effect.world.kept = w.kept := by
  cases op with
  | access a => exact Access.keeps_kept step apart
  | release n =>
    obtain ⟨v, notes, leaves, rfl⟩ := World.leaves_of_bind step
    exact World.kept_leaveGlobal leaves
  | deferLookup =>
    simp only [advance] at step
    split at step <;> obtain rfl := Option.some.inj step <;> rfl
  | unlock | blockOn => simp [Frame.keepsGuards] at apart
  | _ =>
    obtain rfl := Option.some.inj step
    rfl

/-- All other steps leave it as it is. -/
theorem Frame.keeps_kept (step : frame.advance self w = some effect)
    (apart : frame.keepsGuards = false) : effect.world.kept = w.kept := by
  have checking {thread : ThreadId} {reply : Reply} {u : World}
      (checks : w.checkInterrupt thread = (u, reply)) : u.kept = w.kept := by
    have kept : (w.checkInterrupt thread).1.kept = w.kept := World.kept_checkInterrupt thread
    rwa [checks] at kept
  cases frame with
  | start op => exact Op.keeps_kept step apart
  | keepGuard => simp [keepsGuards] at apart
  | _ =>
    simp only [advance, Acquisition.advance, Acquisition.took, Acquisition.gaveUp, Release.advance,
      OwnedLock.advanceNotify, Arrival.advance, Sleeping.advance, Parking.advance,
      Interruption.advance, Enrolment.advance, Withdrawal.advance, Visit.advance, Script.advance,
      Sequence.advance, Drain.advance, Phases.advance, Resuming.advance, Polling.advance,
      Entering.advance, Leaving.advance, Pausing.advance, Foreign.advance, Acquiring.advance,
      Blocking.advance, Trial.advance] at step
    repeat' split at step
    all_goals first
      | (obtain rfl := Option.some.inj step
         first
           | rfl
           | exact World.kept_modifyLock _ _
           | exact World.kept_modifyRegistry _ _
           | exact World.kept_setPhaser _ _
           | exact World.kept_depart ‹_›
           | exact checking ‹_›
           | exact checking (Prod.eta _).symm)
      | (obtain ⟨v, notes, leaves, rfl⟩ := World.leaves_of_bind step
         exact World.kept_leaveGlobal leaves)
      | simp at step

end

end StopTheWorld
