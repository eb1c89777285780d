import StopTheWorld.Proofs.Turns

namespace StopTheWorld

/-! What a step makes of the entries of a registry, and of the number of parties of its phaser. -/

/-- The members, the identities whose registration is half done, and the number of parties. -/
def Registry.roll (registry : Registry) : List Registration × List ThreadId × Nat :=
  (registry.members, registry.claimed, registry.phaser.parties)

namespace Frame

/-- A registration with the registry, or a deregistration from it, is half done. -/
def isHalfway (ref : RegistryRef) : Frame → Bool
  | enrolment e => e.registry = ref && e.point = .insert
  | withdrawal x => x.registry = ref && x.point = .depart
  | _ => false

/-- A registration of this identity is half done. -/
def isClaiming (ref : RegistryRef) (identity : ThreadId) : Frame → Bool
  | enrolment e => e.registry = ref && e.point = .insert && e.entry.identity = identity
  | _ => false

end Frame

/-- What a step makes of the roll of a registry. -/
inductive Effect.Enrols (ref : RegistryRef) (w : World) (frame : Frame) (effect : Effect) : Prop
  | keeps (same : (effect.world.registry ref).roll = (w.registry ref).roll)
      (quiet : ∀ identity, .removed ref identity ∉ effect.notes)
      (off : frame.isHalfway ref = false)
      (on : effect.control.enters (Frame.isHalfway ref) = false)
  | claims {entry : Registration} (top : frame = .enrolment { registry := ref, entry := entry })
      (unlocked : (w.registry ref).isLocked entry.identity = false)
      (absent : (w.registry ref).contains entry.identity = false)
      (world : effect.world = w.modifyRegistry ref (·.claim entry.identity))
      (notes : effect.notes = [.registered (.registry ref)])
      (control : effect.control =
        .goto (.enrolment { registry := ref, entry := entry, point := .insert }))
  | inserts {entry : Registration}
      (top : frame = .enrolment { registry := ref, entry := entry, point := .insert })
      (world : effect.world = w.modifyRegistry ref (·.insert entry))
      (notes : effect.notes = [.inserted ref entry.identity])
      (control : effect.control = .reply (.truth true))
  | removes {identity : ThreadId} {before : Option RegistrationView} {view : RegistrationView}
      (top : frame =
        .withdrawal { registry := ref, identity := identity, removed := before, point := .remove })
      (present : (w.registry ref).contains identity = true)
      (world : effect.world = w.modifyRegistry ref (·.remove identity))
      (notes : effect.notes = [.removed ref identity])
      (control : effect.control = .goto (.withdrawal
        { registry := ref, identity := identity, removed := some view, point := .depart }))
  | departs {x : Withdrawal} (top : frame = .withdrawal x) (registry : x.registry = ref)
      (point : x.point = .depart)
      (roll : (effect.world.registry ref).roll =
        ((w.registry ref).members, (w.registry ref).claimed, (w.registry ref).phaser.parties - 1))
      (quiet : ∀ identity, .removed ref identity ∉ effect.notes)
      (finished : effect.control.top? = none)

section

variable {ref : RegistryRef} {w v : World} {self thread : ThreadId} {frame : Frame}
  {rest : List Frame} {effect : Effect} {notes : List Note}

namespace World

theorem roll_modifyManager (n : ManagerId) {f : Manager → Manager}
    (keeps : ∀ manager, (f manager).registry = manager.registry) :
    ((w.modifyManager n f).registry ref).roll = (w.registry ref).roll := by
  cases ref with
  | loose registry => rfl
  | manager m =>
    simp only [registry, manager_modifyManager]
    split
    · rename_i same
      rw [keeps, same]
    · rfl

@[simp] theorem roll_modifyLock (lock : LockRef) (f : OwnedLock → OwnedLock) :
    ((w.modifyLock lock f).registry ref).roll = (w.registry ref).roll := by
  cases lock with
  | global | loose => cases ref <;> rfl
  | pause n => exact roll_modifyManager n fun _ => rfl

theorem roll_modifyRegistry (other : RegistryRef) {f : Registry → Registry}
    (keeps : ∀ registry, (f registry).roll = registry.roll) :
    ((w.modifyRegistry other f).registry ref).roll = (w.registry ref).roll := by
  rw [registry_modifyRegistry]
  split
  · rename_i same
    rw [keeps, same]
  · rfl

/-- Whatever else becomes of a phaser, the roll shows only its parties. -/
theorem roll_setPhaser (phaser : PhaserRef) {value : Phaser}
    (parties : value.parties = (w.phaser phaser).parties) :
    ((w.setPhaser phaser value).registry ref).roll = (w.registry ref).roll := by
  cases phaser with
  | loose phaser => cases ref <;> rfl
  | registry other =>
    simp only [setPhaser, registry_modifyRegistry]
    split
    · rename_i same
      rw [same]
      exact congrArg (fun parties => (_, _, parties)) parties
    · rfl

@[simp] theorem roll_modifyInterrupter (target : ThreadId)
    (f : Interrupter Wake → Interrupter Wake) :
    ((w.modifyInterrupter target f).registry ref).roll = (w.registry ref).roll := by
  cases ref <;> rfl

@[simp] theorem roll_modifyRecord (record : RecordId) (f : Record Deferred → Record Deferred) :
    ((w.modifyRecord record f).registry ref).roll = (w.registry ref).roll := by
  cases ref <;> rfl

@[simp] theorem roll_setInPause (thread : ThreadId) (inPause : Bool) :
    ((w.setInPause thread inPause).registry ref).roll = (w.registry ref).roll := by
  cases ref <;> rfl

@[simp] theorem registry_setStack (thread : ThreadId) (stack : List Frame) :
    (w.setStack thread stack).registry ref = w.registry ref := by
  cases ref <;> rfl

@[simp] theorem roll_publish (n : ManagerId) (event : Event) :
    ((w.publish n event).registry ref).roll = (w.registry ref).roll :=
  roll_modifyManager n fun _ => rfl

theorem roll_unsubscribe (name : String) :
    ((w.unsubscribe name).registry ref).roll = (w.registry ref).roll := by
  unfold unsubscribe
  split
  · rfl
  · rename_i s _
    have kept : ((w.modifyManager s.manager fun m =>
        { m with bus := m.bus.dropReceiver s.key }).registry ref).roll = (w.registry ref).roll :=
      roll_modifyManager s.manager fun _ => rfl
    refine Eq.trans ?_ kept
    cases ref <;> rfl

theorem roll_subscribe (n : ManagerId) (name : String) :
    ((w.subscribe n name).registry ref).roll = (w.registry ref).roll := by
  have kept : (((w.unsubscribe name).modifyManager n fun manager =>
      { manager with bus := ((w.unsubscribe name).manager n).bus.subscribe.1 }).registry ref).roll =
        ((w.unsubscribe name).registry ref).roll :=
    roll_modifyManager n fun _ => rfl
  refine Eq.trans ?_ (kept.trans (roll_unsubscribe name))
  cases ref <;> rfl

theorem roll_checkInterrupt (thread : ThreadId) :
    ((w.checkInterrupt thread).1.registry ref).roll = (w.registry ref).roll := by
  unfold checkInterrupt
  split
  · exact roll_modifyInterrupter _ _
  · rfl

/-- A departure takes one party from the phaser of its registry, if there is any. -/
theorem roll_depart {other : RegistryRef} {phase : Nat}
    (departs : w.depart (.registry other) = .ok (v, phase, notes)) :
    (v.registry ref).roll =
      if ref = other then
        ((w.registry ref).members, (w.registry ref).claimed, (w.registry ref).phaser.parties - 1)
      else (w.registry ref).roll := by
  unfold depart at departs
  dsimp only at departs
  split at departs
  · simp at departs
  · simp only [Except.ok.injEq, Prod.mk.injEq] at departs
    obtain ⟨rfl, -, -⟩ := departs
    simp only [setPhaser, registry_modifyRegistry]
    split
    · rename_i same
      rw [same]
      simp [Registry.roll, phaser]
    · rfl

theorem quiet_depart {phaser : PhaserRef} {phase : Nat}
    (departs : w.depart phaser = .ok (v, phase, notes)) (identity : ThreadId) :
    .removed ref identity ∉ notes := by
  unfold depart at departs
  dsimp only at departs
  split at departs
  · simp at departs
  · simp only [Except.ok.injEq, Prod.mk.injEq] at departs
    obtain ⟨-, -, rfl⟩ := departs
    split <;> simp

end World

theorem Effect.Enrols.leaveGlobal {lock : GlobalId} {owner : ThreadId} {control : Control}
    (leaves : w.leaveGlobal lock owner = some (v, notes)) (off : frame.isHalfway ref = false)
    (on : control.enters (Frame.isHalfway ref) = false) : Enrols ref w frame ⟨v, control, notes⟩ := by
  simp only [World.leaveGlobal] at leaves
  split at leaves
  · obtain ⟨rfl, rfl⟩ := Prod.mk.inj (Option.some.inj leaves)
    refine .keeps (World.roll_modifyLock _ _) ?_ off on
    dsimp only
    split <;> simp
  · simp at leaves

theorem Access.enrols {access : Access} (step : access.advance self w = some effect) :
    effect.Enrols ref w (.start (.access access)) := by
  cases access with
  | globalLeave lock owner =>
    obtain ⟨v, notes, leaves, rfl⟩ := World.leaves_of_bind step
    exact .leaveGlobal leaves rfl rfl
  | phaserDepart phaser =>
    simp only [advance] at step
    split at step <;> obtain rfl := Option.some.inj step
    · exact .keeps rfl (by simp) rfl rfl
    · rename_i v phase notes departs
      refine .keeps ?_ (World.quiet_depart departs) rfl rfl
      unfold World.depart at departs
      dsimp only at departs
      split at departs
      · simp at departs
      · simp only [Except.ok.injEq, Prod.mk.injEq] at departs
        obtain ⟨rfl, -, -⟩ := departs
        cases ref <;> rfl
  | phaserRegister phaser =>
    obtain rfl := Option.some.inj step
    refine .keeps ?_ (by simp) rfl rfl
    cases ref <;> rfl
  | unsubscribe name =>
    obtain rfl := Option.some.inj step
    exact .keeps (World.roll_unsubscribe name) (by simp) rfl rfl
  | subscribe n name =>
    obtain rfl := Option.some.inj step
    exact .keeps (World.roll_subscribe n name) (by simp) rfl rfl
  | check other =>
    obtain rfl := Option.some.inj step
    exact .keeps (World.roll_checkInterrupt _) (by simp) rfl rfl
  | globalTryEnter | unblock =>
    simp only [advance] at step
    repeat' split at step
    all_goals first
      | (obtain rfl := Option.some.inj step
         exact .keeps (by cases ref <;> rfl) (by simp) rfl rfl)
      | simp at step
  | _ =>
    obtain rfl := Option.some.inj step
    exact .keeps (by cases ref <;> rfl) (by simp) rfl rfl

theorem Op.enrols {op : Op} (step : op.advance self w = some effect) :
    effect.Enrols ref w (.start op) := by
  cases op with
  | access a => exact Access.enrols step
  | release n =>
    obtain ⟨v, notes, leaves, rfl⟩ := World.leaves_of_bind step
    exact .leaveGlobal leaves rfl rfl
  | deferLookup | unlock =>
    simp only [advance] at step
    split at step <;> obtain rfl := Option.some.inj step <;>
      exact .keeps (by cases ref <;> rfl) (by simp) rfl rfl
  | register | deregister =>
    obtain rfl := Option.some.inj step
    exact .keeps rfl (by simp) rfl (by simp [Control.enters, Frame.isHalfway])
  | _ =>
    obtain rfl := Option.some.inj step
    exact .keeps (by cases ref <;> rfl) (by simp) rfl rfl

theorem Enrolment.enrols {e : Enrolment} (step : e.advance w = some effect) :
    effect.Enrols ref w (.enrolment e) := by
  obtain ⟨registry, entry, point⟩ := e
  cases point with
  | claim =>
    simp only [advance] at step
    split at step
    · simp at step
    · rename_i unlocked
      split at step <;> obtain rfl := Option.some.inj step
      · exact .keeps rfl (by simp) (by simp [Frame.isHalfway]) rfl
      · rename_i absent
        by_cases same : registry = ref
        · subst same
          exact .claims rfl (Bool.eq_false_iff.mpr unlocked) (Bool.eq_false_iff.mpr absent) rfl rfl
            rfl
        · refine .keeps ?_ (by simp) (by simp [Frame.isHalfway])
            (by simp [Control.enters, Frame.isHalfway, same])
          rw [World.registry_modifyRegistry, if_neg (Ne.symm same)]
  | insert =>
    simp only [advance] at step
    obtain rfl := Option.some.inj step
    by_cases same : registry = ref
    · subst same
      exact .inserts rfl rfl rfl rfl
    · refine .keeps ?_ (by simp) (by simp [Frame.isHalfway, same]) rfl
      rw [World.registry_modifyRegistry, if_neg (Ne.symm same)]

theorem Withdrawal.enrols {x : Withdrawal} (step : x.advance w = some effect) :
    effect.Enrols ref w (.withdrawal x) := by
  obtain ⟨registry, identity, removed, point⟩ := x
  cases point with
  | remove =>
    simp only [advance] at step
    split at step
    · simp at step
    · split at step <;> obtain rfl := Option.some.inj step
      · exact .keeps rfl (by simp) (by simp [Frame.isHalfway]) rfl
      · rename_i entry found
        by_cases same : registry = ref
        · subst same
          refine .removes rfl ?_ rfl rfl rfl
          rw [Registry.contains_eq_isSome, found]
          rfl
        · refine .keeps ?_ (by simp [Ne.symm same]) (by simp [Frame.isHalfway])
            (by simp [Control.enters, Frame.isHalfway, same])
          rw [World.registry_modifyRegistry, if_neg (Ne.symm same)]
  | depart =>
    simp only [advance] at step
    by_cases same : registry = ref
    · subst same
      split at step <;> obtain rfl := Option.some.inj step
      · -- The phaser has no party that could be taken from it.
        rename_i failed
        refine .departs rfl rfl rfl ?_ (by simp) rfl
        unfold World.depart at failed
        dsimp only at failed
        split at failed
        · rename_i empty
          have none : (w.registry registry).phaser.parties = 0 := empty
          simp [Registry.roll, none]
        · simp at failed
      · rename_i departs
        exact .departs rfl rfl rfl (by rw [World.roll_depart departs, if_pos rfl])
          (World.quiet_depart departs) rfl
    · have off : (Frame.withdrawal ⟨registry, identity, removed, .depart⟩).isHalfway ref = false := by
        simp [Frame.isHalfway, same]
      split at step <;> obtain rfl := Option.some.inj step
      · exact .keeps rfl (by simp) off rfl
      · rename_i departs
        exact .keeps (by rw [World.roll_depart departs, if_neg (Ne.symm same)])
          (World.quiet_depart departs) off rfl

variable (ref) in
/-- Only registrations and deregistrations touch the roll of a registry. -/
theorem Frame.enrols (step : frame.advance self w = some effect) : effect.Enrols ref w frame := by
  have checking {thread : ThreadId} {reply : Reply} {u : World}
      (checks : w.checkInterrupt thread = (u, reply)) :
      (u.registry ref).roll = (w.registry ref).roll := by
    have kept : ((w.checkInterrupt thread).1.registry ref).roll = (w.registry ref).roll :=
      World.roll_checkInterrupt thread
    rwa [checks] at kept
  cases frame with
  | start op => exact Op.enrols step
  | enrolment e => exact Enrolment.enrols step
  | withdrawal x => exact Withdrawal.enrols step
  | keepGuard =>
    obtain rfl := Option.some.inj step
    exact .keeps (by cases ref <;> rfl) (by simp) rfl rfl
  | arrival a =>
    simp only [advance, Arrival.advance] at step
    repeat' split at step
    all_goals first
      | (obtain rfl := Option.some.inj step
         exact .keeps (World.roll_setPhaser _ (Phaser.arrive_parties _)) (by simp) rfl rfl)
      | (obtain rfl := Option.some.inj step
         exact .keeps rfl (by simp) rfl rfl)
      | simp at step
  | _ =>
    simp only [advance, Acquisition.advance, Acquisition.took, Acquisition.gaveUp, Release.advance,
      OwnedLock.advanceNotify, Sleeping.advance, Parking.advance, Interruption.advance,
      Visit.advance, Script.advance, Sequence.advance, Drain.advance, Phases.advance,
      Resuming.advance, Polling.advance, Entering.advance, Leaving.advance, Pausing.advance,
      Foreign.advance, Acquiring.advance, Blocking.advance, Trial.advance] at step
    repeat' split at step
    all_goals first
      | (obtain rfl := Option.some.inj step
         refine .keeps ?_ (by simp) rfl ?_
         · first
             | (simp only [World.roll_modifyLock, World.roll_modifyInterrupter,
                 World.roll_modifyRecord, World.roll_setInPause, World.roll_publish]
                done)
             | exact checking ‹_›
             | exact checking (Prod.eta _).symm
             | exact World.roll_modifyManager _ fun _ => rfl
             | exact World.roll_modifyRegistry _ fun _ => rfl
         · simp [Control.enters, Frame.isHalfway])
      | (obtain ⟨v, notes, leaves, rfl⟩ := World.leaves_of_bind step
         exact .leaveGlobal leaves rfl rfl)
      | simp at step

end

end StopTheWorld
