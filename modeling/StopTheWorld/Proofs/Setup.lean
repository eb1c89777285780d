import StopTheWorld.Proofs.Footprint

namespace StopTheWorld

/-! What a manager was made with stays as it is. -/

/-- The global lock of a manager, whether waiting for that can be interrupted, and the settings. -/
def Manager.setup (manager : Manager) : GlobalId × Bool × Settings :=
  (manager.globalLock, manager.globalInterruptible, manager.settings)

section

variable {w v : World} {self : ThreadId} {frame : Frame} {effect : Effect} {m : ManagerId}

namespace World

theorem setup_modifyManager (n : ManagerId) {f : Manager → Manager}
    (keeps : ∀ manager, (f manager).setup = manager.setup) :
    ((w.modifyManager n f).manager m).setup = (w.manager m).setup := by
  rw [manager_modifyManager]
  split
  · rename_i same
    rw [keeps, same]
  · rfl

@[simp] theorem setup_modifyLock (lock : LockRef) (f : OwnedLock → OwnedLock) :
    ((w.modifyLock lock f).manager m).setup = (w.manager m).setup := by
  rw [manager_modifyLock]
  split <;> rfl

@[simp] theorem setup_modifyRegistry (registry : RegistryRef) (f : Registry → Registry) :
    ((w.modifyRegistry registry f).manager m).setup = (w.manager m).setup := by
  rw [manager_modifyRegistry]
  split <;> rfl

@[simp] theorem setup_setPhaser (phaser : PhaserRef) (value : Phaser) :
    ((w.setPhaser phaser value).manager m).setup = (w.manager m).setup := by
  cases phaser with
  | registry registry => exact setup_modifyRegistry registry _
  | loose phaser => rfl

@[simp] theorem setup_publish (n : ManagerId) (event : Event) :
    ((w.publish n event).manager m).setup = (w.manager m).setup :=
  setup_modifyManager n fun _ => rfl

theorem manager_checkInterrupt (thread : ThreadId) :
    (w.checkInterrupt thread).1.manager m = w.manager m := by
  unfold checkInterrupt
  split <;> rfl

theorem manager_leaveGlobal {lock : GlobalId} {owner : ThreadId} {notes : List Note}
    (leaves : w.leaveGlobal lock owner = some (v, notes)) : v.manager m = w.manager m := by
  simp only [leaveGlobal] at leaves
  split at leaves
  · obtain ⟨rfl, -⟩ := Prod.mk.inj (Option.some.inj leaves)
    simp [manager_modifyLock]
  · simp at leaves

theorem manager_unsubscribe (name : String) :
    ∃ bus, (w.unsubscribe name).manager m = { w.manager m with bus := bus } := by
  unfold unsubscribe
  split
  · exact ⟨_, rfl⟩
  · rename_i s _
    show ∃ bus, (w.modifyManager s.manager _).manager m = _
    rw [manager_modifyManager]
    split
    · rename_i same
      rw [same]
      exact ⟨_, rfl⟩
    · exact ⟨_, rfl⟩

theorem manager_subscribe (n : ManagerId) (name : String) :
    ∃ bus, (w.subscribe n name).manager m = { w.manager m with bus := bus } := by
  obtain ⟨bus, gone⟩ := manager_unsubscribe (w := w) (m := m) name
  show ∃ bus, ((w.unsubscribe name).modifyManager n _).manager m = _
  rw [manager_modifyManager]
  split
  · rename_i same
    exact ⟨_, by rw [← same, gone]⟩
  · exact ⟨bus, gone⟩

theorem manager_setPhaser {phaser : PhaserRef} (other : phaser ≠ .registry (.manager m))
    (value : Phaser) : (w.setPhaser phaser value).manager m = w.manager m := by
  cases phaser with
  | loose => rfl
  | registry registry =>
    have other : registry ≠ .manager m := fun same => other (congrArg _ same)
    show (w.modifyRegistry registry _).manager m = _
    rw [manager_modifyRegistry, if_neg other]

theorem manager_depart {phaser : PhaserRef} {phase : Nat} {notes : List Note}
    (other : phaser ≠ .registry (.manager m)) (departs : w.depart phaser = .ok (v, phase, notes)) :
    v.manager m = w.manager m := by
  unfold depart at departs
  dsimp only at departs
  split at departs
  · simp at departs
  · simp only [Except.ok.injEq, Prod.mk.injEq] at departs
    obtain ⟨rfl, -⟩ := departs
    exact manager_setPhaser other _

theorem setup_depart {phaser : PhaserRef} {phase : Nat} {notes : List Note}
    (departs : w.depart phaser = .ok (v, phase, notes)) :
    (v.manager m).setup = (w.manager m).setup := by
  unfold depart at departs
  dsimp only at departs
  split at departs
  · simp at departs
  · simp only [Except.ok.injEq, Prod.mk.injEq] at departs
    obtain ⟨rfl, -⟩ := departs
    exact setup_setPhaser _ _

end World

/-- An operation of a single step changes nothing of a manager but who hears of its events. -/
theorem Access.advance_manager {access : Access} (step : access.advance self w = some effect) :
    ∃ bus, effect.world.manager m = { w.manager m with bus := bus } := by
  cases access with
  | globalLeave lock owner =>
    obtain ⟨⟨v, notes⟩, leaves, replies⟩ := Option.bind_eq_some_iff.mp step
    obtain rfl := Option.some.inj replies
    exact ⟨_, World.manager_leaveGlobal leaves⟩
  | phaserRegister phaser =>
    obtain rfl := Option.some.inj step
    exact ⟨_, rfl⟩
  | phaserDepart phaser =>
    simp only [advance] at step
    have other : PhaserRef.loose phaser ≠ .registry (.manager m) := by simp
    split at step <;> obtain rfl := Option.some.inj step
    · exact ⟨_, rfl⟩
    · exact ⟨_, World.manager_depart other ‹_›⟩
  | unsubscribe name =>
    obtain rfl := Option.some.inj step
    exact World.manager_unsubscribe name
  | subscribe n name =>
    obtain rfl := Option.some.inj step
    exact World.manager_subscribe n name
  | check thread =>
    obtain rfl := Option.some.inj step
    exact ⟨_, World.manager_checkInterrupt _⟩
  | globalTryEnter | unblock =>
    simp only [advance] at step
    repeat' split at step
    all_goals first
      | (obtain rfl := Option.some.inj step
         exact ⟨_, rfl⟩)
      | simp at step
  | _ =>
    obtain rfl := Option.some.inj step
    exact ⟨_, rfl⟩

/-- The first step of an operation changes nothing of a manager but who hears of its events. -/
theorem Op.advance_manager {op : Op} (step : op.advance self w = some effect) :
    ∃ bus, effect.world.manager m = { w.manager m with bus := bus } := by
  cases op with
  | access a => exact Access.advance_manager step
  | release n =>
    obtain ⟨⟨v, notes⟩, leaves, replies⟩ := Option.bind_eq_some_iff.mp step
    obtain rfl := Option.some.inj replies
    exact ⟨_, World.manager_leaveGlobal leaves⟩
  | deferLookup | unlock =>
    simp only [advance] at step
    split at step <;> obtain rfl := Option.some.inj step <;> exact ⟨_, rfl⟩
  | _ =>
    obtain rfl := Option.some.inj step
    exact ⟨_, rfl⟩

theorem Frame.advance_setup (step : frame.advance self w = some effect) :
    (effect.world.manager m).setup = (w.manager m).setup := by
  have checking {thread : ThreadId} {reply : Reply} {u : World}
      (checks : w.checkInterrupt thread = (u, reply)) :
      (u.manager m).setup = (w.manager m).setup := by
    have kept := World.manager_checkInterrupt (w := w) (m := m) thread
    rw [checks] at kept
    rw [kept]
  cases frame with
  | start op =>
    obtain ⟨bus, same⟩ := Op.advance_manager (m := m) step
    rw [same]
    rfl
  | _ =>
    simp only [advance, Acquisition.advance, Acquisition.took, Acquisition.gaveUp, Release.advance,
      OwnedLock.advanceNotify, Arrival.advance, Sleeping.advance, Parking.advance,
      Interruption.advance, Enrolment.advance, Withdrawal.advance, Visit.advance, Script.advance,
      Sequence.advance, Drain.advance, Phases.advance, Resuming.advance, Polling.advance,
      Entering.advance, Leaving.advance, Pausing.advance, Foreign.advance, Acquiring.advance,
      Blocking.advance, Trial.advance] at step
    repeat' split at step
    all_goals first
      | (obtain rfl := Option.some.inj step
         first
           | rfl
           | exact World.setup_modifyLock _ _
           | exact World.setup_modifyRegistry _ _
           | exact World.setup_setPhaser _ _
           | exact World.setup_publish _ _
           | exact World.setup_modifyManager _ fun _ => rfl
           | exact World.setup_depart ‹_›
           | exact checking ‹_›
           | exact checking (Prod.eta _).symm)
      | (obtain ⟨v, notes, leaves, rfl⟩ := World.leaves_of_bind step
         exact congrArg Manager.setup (World.manager_leaveGlobal leaves))
      | simp at step

/-- No move changes what a manager was made with. -/
theorem World.setup_move {move : Move} {notes : List Note} (moves : w.move move = some (v, notes)) :
    (v.manager m).setup = (w.manager m).setup := by
  cases move with
  | run thread =>
    obtain ⟨frame, rest, effect, -, step, rfl, -⟩ := World.step_eq_some moves
    exact Frame.advance_setup step
  | submit thread op =>
    obtain ⟨u, submit, same⟩ := Option.map_eq_some_iff.mp moves
    obtain ⟨rfl, rfl⟩ := Prod.mk.inj same
    unfold World.submit at submit
    split at submit
    · obtain rfl := Option.some.inj submit
      rfl
    · simp at submit
  | elapse span =>
    obtain ⟨rfl, rfl⟩ := Prod.mk.inj (Option.some.inj moves)
    rfl
  | rouse thread =>
    obtain ⟨rfl, rfl⟩ := Prod.mk.inj (Option.some.inj moves)
    unfold World.rouse
    split
    · exact World.setup_modifyLock _ _
    · rfl
    · split <;> rfl
    · rfl

theorem World.globalLock_move {move : Move} {notes : List Note}
    (moves : w.move move = some (v, notes)) :
    (v.manager m).globalLock = (w.manager m).globalLock :=
  congrArg Prod.fst (World.setup_move moves)

theorem Course.setup {custom : World → ThreadId → Prop} {moments : List Moment}
    (course : Course custom w moments v) : (v.manager m).setup = (w.manager m).setup :=
  course.keeps (P := fun u => (u.manager m).setup = (w.manager m).setup)
    (fun kept _ moves => (World.setup_move moves).trans kept) rfl

theorem Course.globalLock_eq {custom : World → ThreadId → Prop} {moments : List Moment}
    (course : Course custom w moments v) : (v.manager m).globalLock = (w.manager m).globalLock :=
  congrArg Prod.fst course.setup

end

end StopTheWorld
