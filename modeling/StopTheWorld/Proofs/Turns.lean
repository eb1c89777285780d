import StopTheWorld.Proofs.Layout

namespace StopTheWorld

/-! What a step makes of a phaser. -/

/-- Whether the note tells of a party of the phaser that comes, arrives or goes. -/
def Note.concerns (ref : PhaserRef) : Note → Bool
  | registered phaser | departed phaser | arrived phaser _ => phaser = ref
  | _ => false

/-- The frame is that of a call that has arrived at this phase. -/
def Frame.isWaiting (ref : PhaserRef) (phase : Nat) : Frame → Bool
  | arrival a => a.phaser = ref && a.recorded = some phase
  | _ => false

/-- The thread has arrived at this phase and has not returned. -/
def World.isWaiting (w : World) (ref : PhaserRef) (phase : Nat) (thread : ThreadId) : Bool :=
  w.isAt (Frame.isWaiting ref phase) thread

/-- What a step makes of a phaser. -/
inductive Effect.Turns (ref : PhaserRef) (w : World) (frame : Frame) (effect : Effect) : Prop
  | keeps (same : effect.world.phaser ref = w.phaser ref)
      (quiet : ∀ note ∈ effect.notes, note.concerns ref = false)
      (on : ∀ phase, effect.control.enters (Frame.isWaiting ref phase) = false)
  | registers (same : effect.world.phaser ref = (w.phaser ref).register)
      (notes : effect.notes = [.registered ref])
      (on : ∀ phase, effect.control.enters (Frame.isWaiting ref phase) = false)
  | departs {later : List Note} (same : effect.world.phaser ref = (w.phaser ref).depart)
      (notes : effect.notes = .departed ref :: later)
      (quiet : ∀ note ∈ later, note.concerns ref = false)
      (on : ∀ phase, effect.control.enters (Frame.isWaiting ref phase) = false)
      (some : (w.phaser ref).parties ≠ 0)
  | waits (top : frame = .arrival { phaser := ref }) (last : ¬ (w.phaser ref).IsLast)
      (same : effect.world.phaser ref = (w.phaser ref).arrive)
      (notes : effect.notes = [.arrived ref (w.phaser ref).phase])
      (control : effect.control =
        .goto (.arrival { phaser := ref, recorded := some (w.phaser ref).phase }))
  | completes (top : frame = .arrival { phaser := ref }) (last : (w.phaser ref).IsLast)
      (same : effect.world.phaser ref = (w.phaser ref).arrive)
      (notes : effect.notes =
        [.arrived ref (w.phaser ref).phase, .advanced ref ((w.phaser ref).phase + 1)])
      (control : effect.control = .reply (.count ((w.phaser ref).phase + 1)))

section

variable {ref : PhaserRef} {w v : World} {self thread : ThreadId} {frame : Frame}
  {rest : List Frame} {effect : Effect} {notes : List Note}

namespace World

theorem phaser_modifyManager (n : ManagerId) {f : Manager → Manager}
    (keeps : ∀ manager, (f manager).registry.phaser = manager.registry.phaser) :
    (w.modifyManager n f).phaser ref = w.phaser ref := by
  cases ref with
  | loose phaser => rfl
  | registry registry =>
    cases registry with
    | loose registry => rfl
    | manager m =>
      simp only [phaser, registry, manager_modifyManager]
      split
      · rename_i same
        rw [keeps, same]
      · rfl

@[simp] theorem phaser_modifyLock (lock : LockRef) (f : OwnedLock → OwnedLock) :
    (w.modifyLock lock f).phaser ref = w.phaser ref := by
  cases lock with
  | global | loose => rfl
  | pause n => exact phaser_modifyManager n fun _ => rfl

theorem phaser_modifyRegistry (registry : RegistryRef) {f : Registry → Registry}
    (keeps : ∀ registry, (f registry).phaser = registry.phaser) :
    (w.modifyRegistry registry f).phaser ref = w.phaser ref := by
  cases ref with
  | loose phaser => cases registry <;> rfl
  | registry other =>
    simp only [phaser, registry_modifyRegistry]
    split
    · rename_i same
      rw [keeps, same]
    · rfl

@[simp] theorem phaser_modifyInterrupter (target : ThreadId)
    (f : Interrupter Wake → Interrupter Wake) :
    (w.modifyInterrupter target f).phaser ref = w.phaser ref := rfl

@[simp] theorem phaser_modifyRecord (record : RecordId) (f : Record Deferred → Record Deferred) :
    (w.modifyRecord record f).phaser ref = w.phaser ref := rfl

@[simp] theorem phaser_setStack (thread : ThreadId) (stack : List Frame) :
    (w.setStack thread stack).phaser ref = w.phaser ref := rfl

@[simp] theorem phaser_setInPause (thread : ThreadId) (inPause : Bool) :
    (w.setInPause thread inPause).phaser ref = w.phaser ref := rfl

@[simp] theorem phaser_publish (n : ManagerId) (event : Event) :
    (w.publish n event).phaser ref = w.phaser ref :=
  phaser_modifyManager n fun _ => rfl

theorem phaser_unsubscribe (name : String) : (w.unsubscribe name).phaser ref = w.phaser ref := by
  unfold unsubscribe
  split
  · rfl
  · exact phaser_modifyManager _ fun _ => rfl

theorem phaser_subscribe (n : ManagerId) (name : String) :
    (w.subscribe n name).phaser ref = w.phaser ref := by
  refine Eq.trans ?_ (phaser_unsubscribe name)
  exact phaser_modifyManager (w := w.unsubscribe name) n
    (f := fun manager => { manager with bus := ((w.unsubscribe name).manager n).bus.subscribe.1 })
    fun _ => rfl

theorem phaser_checkInterrupt (thread : ThreadId) :
    (w.checkInterrupt thread).1.phaser ref = w.phaser ref := by
  unfold checkInterrupt
  split <;> rfl

/-- A registration is one party more for the phaser of its registry. -/
theorem phaser_claim (registry : RegistryRef) (identity : ThreadId) :
    (w.modifyRegistry registry (·.claim identity)).phaser ref =
      if ref = .registry registry then (w.phaser ref).register else w.phaser ref := by
  cases ref with
  | loose phaser => cases registry <;> rfl
  | registry other =>
    simp only [phaser, registry_modifyRegistry, PhaserRef.registry.injEq]
    split
    · rename_i same
      rw [same]
      rfl
    · rfl

end World

namespace Effect.Turns

theorem leaveGlobal {lock : GlobalId} {owner : ThreadId} {control : Control}
    (leaves : w.leaveGlobal lock owner = some (v, notes))
    (on : ∀ phase, control.enters (Frame.isWaiting ref phase) = false) : Turns ref w frame ⟨v, control, notes⟩ := by
  simp only [World.leaveGlobal] at leaves
  split at leaves
  · obtain ⟨rfl, rfl⟩ := Prod.mk.inj (Option.some.inj leaves)
    refine .keeps (World.phaser_modifyLock _ _) ?_ on
    dsimp only
    split <;> simp [Note.concerns]
  · simp at leaves

theorem depart {other : PhaserRef} {phase : Nat} {control : Control}
    (departs : w.depart other = .ok (v, phase, notes))
    (on : ∀ phase, control.enters (Frame.isWaiting ref phase) = false) : Turns ref w frame ⟨v, control, notes⟩ := by
  unfold World.depart at departs
  dsimp only at departs
  split at departs
  · simp at departs
  · rename_i some
    simp only [Except.ok.injEq, Prod.mk.injEq] at departs
    obtain ⟨rfl, -, rfl⟩ := departs
    by_cases same : ref = other
    · subst same
      refine .departs (by simp [World.phaser_setPhaser]) rfl ?_ on some
      split <;> simp [Note.concerns]
    · refine .keeps (by simp [World.phaser_setPhaser, same]) ?_ on
      split <;> simp [Note.concerns, Ne.symm same]

end Effect.Turns

theorem Access.turns {access : Access} (step : access.advance self w = some effect) :
    effect.Turns ref w frame := by
  cases access with
  | globalLeave lock owner =>
    obtain ⟨v, notes, leaves, rfl⟩ := World.leaves_of_bind step
    exact .leaveGlobal leaves fun _ => rfl
  | phaserDepart phaser =>
    simp only [advance] at step
    split at step <;> obtain rfl := Option.some.inj step
    · exact .keeps rfl (by simp) fun _ => rfl
    · exact .depart ‹_› fun _ => rfl
  | phaserRegister phaser =>
    obtain rfl := Option.some.inj step
    by_cases same : ref = .loose phaser
    · subst same
      exact .registers (by simp [World.phaser_setPhaser]) rfl fun _ => rfl
    · exact .keeps (by simp [World.phaser_setPhaser, same])
        (by simp [Note.concerns, Ne.symm same]) fun _ => rfl
  | unsubscribe name =>
    obtain rfl := Option.some.inj step
    exact .keeps (World.phaser_unsubscribe name) (by simp) fun _ => rfl
  | subscribe n name =>
    obtain rfl := Option.some.inj step
    exact .keeps (World.phaser_subscribe n name) (by simp) fun _ => rfl
  | check other =>
    obtain rfl := Option.some.inj step
    exact .keeps (World.phaser_checkInterrupt _) (by simp) fun _ => rfl
  | globalTryEnter | unblock =>
    simp only [advance] at step
    repeat' split at step
    all_goals first
      | (obtain rfl := Option.some.inj step
         exact .keeps rfl (by simp [Note.concerns]) fun _ => rfl)
      | simp at step
  | _ =>
    obtain rfl := Option.some.inj step
    exact .keeps rfl (by simp) fun _ => rfl

theorem Op.turns {op : Op} (step : op.advance self w = some effect) :
    effect.Turns ref w frame := by
  cases op with
  | access a => exact Access.turns step
  | release n =>
    obtain ⟨v, notes, leaves, rfl⟩ := World.leaves_of_bind step
    exact .leaveGlobal leaves fun _ => rfl
  | deferLookup | unlock =>
    simp only [advance] at step
    split at step <;> obtain rfl := Option.some.inj step <;>
      exact .keeps rfl (by simp [Note.concerns]) fun _ => rfl
  | phaserArrive | registryArrive =>
    obtain rfl := Option.some.inj step
    exact .keeps rfl (by simp) fun _ => by simp [Control.enters, Frame.isWaiting]
  | _ =>
    obtain rfl := Option.some.inj step
    exact .keeps rfl (by simp [Note.concerns]) fun _ => rfl

theorem Arrival.turns {a : Arrival} (step : a.advance w = some effect) :
    effect.Turns ref w (.arrival a) := by
  obtain ⟨phaser, recorded⟩ := a
  cases recorded with
  | none =>
    simp only [advance] at step
    by_cases same : phaser = ref
    · subst same
      split at step <;> obtain rfl := Option.some.inj step
      · exact .completes rfl ‹_› (by simp [World.phaser_setPhaser]) rfl rfl
      · exact .waits rfl ‹_› (by simp [World.phaser_setPhaser]) rfl rfl
    · split at step <;> obtain rfl := Option.some.inj step <;>
        exact .keeps (by simp [World.phaser_setPhaser, Ne.symm same])
          (by simp [Note.concerns, same])
          fun _ => by simp [Control.enters, Frame.isWaiting, same]
  | some phase =>
    simp only [advance] at step
    split at step
    · simp at step
    · obtain rfl := Option.some.inj step
      exact .keeps rfl (by simp) fun _ => rfl

theorem Enrolment.turns {e : Enrolment} (step : e.advance w = some effect) :
    effect.Turns ref w frame := by
  simp only [advance] at step
  split at step
  · split at step
    · simp at step
    · split at step <;> obtain rfl := Option.some.inj step
      · exact .keeps rfl (by simp) fun _ => rfl
      · by_cases same : ref = .registry e.registry
        · exact .registers (by simp only [World.phaser_claim, same, if_true])
            (by rw [same]) fun _ => rfl
        · exact .keeps (by simp only [World.phaser_claim, same, if_false])
            (by simp [Note.concerns, Ne.symm same]) fun _ => rfl
  · obtain rfl := Option.some.inj step
    exact .keeps (World.phaser_modifyRegistry _ fun _ => rfl) (by simp [Note.concerns]) fun _ => rfl

theorem Withdrawal.turns {x : Withdrawal} (step : x.advance w = some effect) :
    effect.Turns ref w frame := by
  simp only [advance] at step
  split at step
  · split at step
    · simp at step
    · split at step <;> obtain rfl := Option.some.inj step
      · exact .keeps rfl (by simp) fun _ => rfl
      · exact .keeps (World.phaser_modifyRegistry _ fun _ => rfl) (by simp [Note.concerns])
          fun _ => rfl
  · split at step <;> obtain rfl := Option.some.inj step
    · exact .keeps rfl (by simp) fun _ => rfl
    · exact .depart ‹_› fun _ => rfl

/-- Only arrivals, registrations and departures touch a phaser. -/
theorem Frame.turns (step : frame.advance self w = some effect) : effect.Turns ref w frame := by
  have checking {thread : ThreadId} {reply : Reply} {u : World}
      (checks : w.checkInterrupt thread = (u, reply)) : u.phaser ref = w.phaser ref := by
    have kept : (w.checkInterrupt thread).1.phaser ref = w.phaser ref :=
      World.phaser_checkInterrupt thread
    rwa [checks] at kept
  cases frame with
  | start op => exact Op.turns step
  | arrival a => exact Arrival.turns step
  | enrolment e => exact Enrolment.turns step
  | withdrawal x => exact Withdrawal.turns step
  | keepGuard =>
    obtain rfl := Option.some.inj step
    exact .keeps rfl (by simp) fun _ => rfl
  | _ =>
    simp only [advance, Acquisition.advance, Acquisition.took, Acquisition.gaveUp, Release.advance,
      OwnedLock.advanceNotify, Sleeping.advance, Parking.advance, Interruption.advance,
      Visit.advance, Script.advance, Sequence.advance, Drain.advance, Phases.advance,
      Resuming.advance, Polling.advance, Entering.advance, Leaving.advance, Pausing.advance,
      Foreign.advance, Acquiring.advance, Blocking.advance, Trial.advance] at step
    repeat' split at step
    all_goals first
      | (obtain rfl := Option.some.inj step
         refine .keeps ?_ (by simp [Note.concerns]) fun _ => ?_
         · first
             | (simp only [World.phaser_modifyLock, World.phaser_modifyInterrupter,
                 World.phaser_modifyRecord, World.phaser_setInPause, World.phaser_publish]
                done)
             | exact checking ‹_›
             | exact checking (Prod.eta _).symm
             | exact World.phaser_modifyManager _ fun _ => rfl
             | exact World.phaser_modifyRegistry _ fun _ => rfl
         · simp [Control.enters, Frame.isWaiting])
      | (obtain ⟨v, notes, leaves, rfl⟩ := World.leaves_of_bind step
         exact .leaveGlobal leaves fun _ => rfl)
      | simp at step

theorem Frame.isLeaf_of_isWaiting {phase : Nat} (waiting : frame.isWaiting ref phase = true) :
    frame.isLeaf = true := by
  cases frame <;> first | rfl | simp [isWaiting] at waiting

theorem World.isWaiting_iff {phase : Nat} : w.isWaiting ref phase thread = true ↔
    ∃ rest, w.stack thread = .arrival { phaser := ref, recorded := some phase } :: rest := by
  unfold World.isWaiting
  rw [World.isAt_iff]
  constructor
  · rintro ⟨frame, rest, stack, waits⟩
    cases frame with
    | arrival a =>
      simp only [Frame.isWaiting, Bool.and_eq_true, decide_eq_true_eq] at waits
      obtain ⟨phaser, recorded⟩ := a
      obtain ⟨rfl, rfl⟩ := waits
      exact ⟨rest, stack⟩
    | _ => simp [Frame.isWaiting] at waits
  · rintro ⟨rest, stack⟩
    exact ⟨_, rest, stack, by simp [Frame.isWaiting]⟩

end

end StopTheWorld
