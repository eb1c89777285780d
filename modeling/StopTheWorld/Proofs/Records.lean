import StopTheWorld.Proofs.Lodging
import StopTheWorld.Proofs.Setup

namespace StopTheWorld

/-! Whose the records are. Nobody but the thread that a record is made for takes part in a pause with
it, and nobody else takes the deferred actions from its queue. -/

/-- What a step makes of a record. -/
inductive Effect.Treats (w : World) (frame : Frame) (effect : Effect) (record : RecordId) : Prop
  | leaves (same : effect.world.record record = w.record record)
  | sets {status : Status} (same : effect.world.record record = (w.record record).setStatus status)
  | queues {action : Deferred} (same : effect.world.record record = (w.record record).defer action)
      (noted : .queued record action.tag ∈ effect.notes)
  | drains {d : Drain} (drain : frame = .drain d) (own : d.record = record)
      (same : effect.world.record record = (w.record record).drained)

/-- What a step makes of the records and of the entries of the registries. -/
structure Effect.Books (w : World) (frame : Frame) (effect : Effect) : Prop where
  made : w.nextRecord ≤ effect.world.nextRecord
  treats : ∀ record < w.nextRecord, effect.Treats w frame record
  members : ∀ m, ∀ entry ∈ (effect.world.manager m).registry.members,
    entry ∈ (w.manager m).registry.members ∨
      ∃ x, frame = .enrolment x ∧ x.registry = .manager m ∧ x.entry = entry

/-- Neither records nor entries differ. -/
structure World.Tallies (w v : World) : Prop where
  made : v.nextRecord = w.nextRecord
  records : v.records = w.records
  members : ∀ m, (v.manager m).registry.members = (w.manager m).registry.members

/-- The record, if there is one, is that of the thread. -/
def World.IsOf (w : World) (record : Option RecordId) (thread : ThreadId) : Prop :=
  ∀ own, record = some own → w.Owns own thread

/-- The manager in whose registry the frame looks its thread up, to take part in a pause. -/
def Frame.seeks? : Frame → Option ManagerId
  | polling p => some p.manager
  | pausing p => some p.manager
  | _ => none

/-- A thread registers, and takes part in pauses, with a record of its own. -/
def Frame.Bears (m : ManagerId) (w : World) (self : ThreadId) : Frame → Prop
  | entering e => w.IsOf e.record self
  | enrolment x => x.registry = .manager m → w.IsOf x.entry.record self
  | polling p => w.IsOf p.record self
  | phases p => w.IsOf p.record self
  | pausing p => w.IsOf p.record self
  | resuming r => w.IsOf r.record self
  | drain d => w.Owns d.record self
  | _ => True

/-- Whether the frame adds the entry of another thread to the registry of the manager. -/
def Frame.enrolsOther (m : ManagerId) (self : ThreadId) : Frame → Bool
  | enrolment x => decide (x.registry = .manager m ∧ x.entry.identity ≠ self)
  | _ => false

def Control.Bears (m : ManagerId) (w : World) (self : ThreadId) : Control → Prop
  | goto frame => frame.Bears m w self
  | call child back => child.Bears m w self ∧ back.Bears m w self
  | _ => True

/-- Every thread is registered with a record of its own, and takes part in pauses with that. -/
structure World.IsOwned (m : ManagerId) (w : World) : Prop where
  members : ∀ entry ∈ (w.manager m).registry.members, w.IsOf entry.record entry.identity
  frames : ∀ thread, ∀ frame ∈ w.stack thread, frame.Bears m w thread

section

variable {m : ManagerId} {w v : World} {self thread : ThreadId} {frame parent : Frame}
  {rest : List Frame} {moments : List Moment}
  {effect : Effect} {record : RecordId} {notes : List Note} {control : Control}

namespace World.Tallies

theorem refl (w : World) : w.Tallies w := ⟨rfl, rfl, fun _ => rfl⟩

theorem trans {u : World} (first : w.Tallies v) (second : v.Tallies u) : w.Tallies u :=
  ⟨second.made.trans first.made, second.records.trans first.records,
    fun m => (second.members m).trans (first.members m)⟩

theorem of_registry (made : v.nextRecord = w.nextRecord) (records : v.records = w.records)
    (same : ∀ m, (v.manager m).registry = (w.manager m).registry) : w.Tallies v :=
  ⟨made, records, fun m => congrArg Registry.members (same m)⟩

theorem modifyManager (w : World) (n : ManagerId) {f : Manager → Manager}
    (keeps : ∀ manager, (f manager).registry = manager.registry) :
    w.Tallies (w.modifyManager n f) := by
  refine .of_registry rfl rfl fun m => ?_
  rw [World.manager_modifyManager]
  split
  · rename_i same
    rw [keeps, same]
  · rfl

theorem modifyLock (w : World) (lock : LockRef) (f : OwnedLock → OwnedLock) :
    w.Tallies (w.modifyLock lock f) := by
  refine .of_registry (by cases lock <;> rfl) (by cases lock <;> rfl) fun m => ?_
  rw [World.manager_modifyLock]
  split <;> rfl

theorem modifyRegistry (w : World) (registry : RegistryRef) {f : Registry → Registry}
    (keeps : ∀ registry, (f registry).members = registry.members) :
    w.Tallies (w.modifyRegistry registry f) := by
  refine ⟨by cases registry <;> rfl, by cases registry <;> rfl, fun m => ?_⟩
  rw [World.manager_modifyRegistry]
  split
  · exact keeps _
  · rfl

theorem setPhaser (w : World) (phaser : PhaserRef) (value : Phaser) :
    w.Tallies (w.setPhaser phaser value) := by
  cases phaser with
  | registry registry =>
    refine modifyRegistry w registry (f := (·.setPhaser value)) fun _ => rfl
  | loose phaser => exact ⟨rfl, rfl, fun _ => rfl⟩

theorem modifyInterrupter (w : World) (target : ThreadId)
    (f : Interrupter Wake → Interrupter Wake) : w.Tallies (w.modifyInterrupter target f) :=
  ⟨rfl, rfl, fun _ => rfl⟩

theorem publish (w : World) (n : ManagerId) (event : Event) : w.Tallies (w.publish n event) :=
  modifyManager w n fun _ => rfl

theorem checkInterrupt {reply : Reply} (checks : w.checkInterrupt thread = (v, reply)) :
    w.Tallies v := by
  unfold World.checkInterrupt at checks
  split at checks <;> obtain ⟨rfl, -⟩ := Prod.mk.inj checks
  · exact modifyInterrupter w _ _
  · exact refl w

theorem leaveGlobal {lock : GlobalId} {owner : ThreadId}
    (leaves : w.leaveGlobal lock owner = some (v, notes)) : w.Tallies v := by
  simp only [World.leaveGlobal] at leaves
  split at leaves
  · obtain ⟨rfl, -⟩ := Prod.mk.inj (Option.some.inj leaves)
    exact modifyLock w _ _
  · simp at leaves

theorem depart {phaser : PhaserRef} {phase : Nat}
    (departs : w.depart phaser = .ok (v, phase, notes)) : w.Tallies v := by
  unfold World.depart at departs
  dsimp only at departs
  split at departs
  · simp at departs
  · simp only [Except.ok.injEq, Prod.mk.injEq] at departs
    obtain ⟨rfl, -⟩ := departs
    exact setPhaser w _ _

theorem books (tallies : w.Tallies v) : (Effect.mk v control notes).Books w frame where
  made := tallies.made.ge
  treats record _ := .leaves (by simp [World.record, tallies.records])
  members m entry mem := .inl (tallies.members m ▸ mem)

end World.Tallies

namespace Effect.Books

theorem modifyRecord (next : RecordId) {f : Record Deferred → Record Deferred}
    (treats : ∀ {effect : Effect}, effect.notes = notes →
      effect.world.record next = f (w.record next) → effect.Treats w frame next) :
    (Effect.mk (w.modifyRecord next f) control notes).Books w frame where
  made := Nat.le_refl _
  treats record _ := by
    by_cases same : record = next
    · subst same
      exact treats rfl (by simp [World.record_modifyRecord])
    · exact .leaves (by simp [World.record_modifyRecord, same])
  members m entry mem := .inl mem

theorem defer (record : RecordId) (tag : Tag) (script : List Op)
    (noted : .queued record tag ∈ notes) :
    (Effect.mk (w.defer record tag script) control notes).Books w frame :=
  modifyRecord record fun same queued => .queues queued (same ▸ noted)

end Effect.Books

theorem Access.books {access : Access} (step : access.advance self w = some effect) :
    effect.Books w frame := by
  have members (m : ManagerId) : (effect.world.manager m).registry.members =
      (w.manager m).registry.members :=
    congrArg Core.members (Access.agrees (m := m) step).1.core
  have plain (made : effect.world.nextRecord = w.nextRecord)
      (records : effect.world.records = w.records) : effect.Books w frame :=
    World.Tallies.books ⟨made, records, members⟩
  cases access with
  | globalLeave lock owner =>
    obtain ⟨⟨v, notes⟩, leaves, replies⟩ := Option.bind_eq_some_iff.mp step
    obtain rfl := Option.some.inj replies
    exact (World.Tallies.leaveGlobal leaves).books
  | phaserDepart phaser =>
    simp only [advance] at step
    split at step <;> obtain rfl := Option.some.inj step
    · exact plain rfl rfl
    · exact (World.Tallies.depart ‹_›).books
  | unsubscribe name =>
    obtain rfl := Option.some.inj step
    refine plain ?_ ?_ <;> simp only [World.unsubscribe] <;> split <;> rfl
  | subscribe n name =>
    obtain rfl := Option.some.inj step
    refine plain ?_ ?_ <;> simp only [World.subscribe, World.unsubscribe] <;> split <;> rfl
  | check thread =>
    obtain rfl := Option.some.inj step
    exact (World.Tallies.checkInterrupt (Prod.eta _).symm).books
  | globalTryEnter | unblock =>
    simp only [advance] at step
    repeat' split at step
    all_goals first
      | (obtain rfl := Option.some.inj step
         exact plain rfl rfl)
      | simp at step
  | setStatus thread status =>
    obtain rfl := Option.some.inj step
    exact .modifyRecord _ fun _ same => .sets same
  | freshRecord =>
    obtain rfl := Option.some.inj step
    refine ⟨Nat.le_succ _, fun record made => .leaves ?_, fun m entry mem => .inl (members m ▸ mem)⟩
    show (w.records.set w.nextRecord _).get record = w.records.get record
    rw [Table.get_set, if_neg (Nat.ne_of_lt made)]
  | _ =>
    obtain rfl := Option.some.inj step
    exact plain rfl rfl

theorem Op.books {op : Op} (step : op.advance self w = some effect) : effect.Books w frame := by
  cases op with
  | access a => exact Access.books step
  | release n =>
    obtain ⟨⟨v, notes⟩, leaves, replies⟩ := Option.bind_eq_some_iff.mp step
    obtain rfl := Option.some.inj replies
    exact (World.Tallies.leaveGlobal leaves).books
  | defer thread tag script =>
    obtain rfl := Option.some.inj step
    exact .defer _ _ _ List.mem_cons_self
  | deferLookup n thread tag script =>
    simp only [advance] at step
    split at step <;> obtain rfl := Option.some.inj step
    · exact (World.Tallies.refl w).books
    · exact .defer _ _ _ List.mem_cons_self
  | unlock =>
    simp only [advance] at step
    split at step <;> obtain rfl := Option.some.inj step
    · exact World.Tallies.books ⟨rfl, rfl, fun _ => rfl⟩
    · exact (World.Tallies.refl w).books
  | _ =>
    obtain rfl := Option.some.inj step
    exact World.Tallies.books ⟨rfl, rfl, fun _ => rfl⟩

theorem Frame.books (step : frame.advance self w = some effect) : effect.Books w frame := by
  cases frame with
  | start op => exact Op.books step
  | drain d =>
    simp only [advance, Drain.advance] at step
    split at step <;> obtain rfl := Option.some.inj step
    · exact .modifyRecord _ fun _ same => .drains rfl rfl same
    · exact (World.Tallies.refl w).books
    · exact (World.Tallies.refl w).books
  | enrolment x =>
    simp only [advance, Enrolment.advance] at step
    split at step
    · split at step
      · simp at step
      · split at step <;> obtain rfl := Option.some.inj step
        · exact (World.Tallies.refl w).books
        · exact World.Tallies.books (.modifyRegistry w _ fun _ => rfl)
    · obtain rfl := Option.some.inj step
      refine ⟨by cases x.registry <;> exact Nat.le_refl _,
        fun record _ => .leaves (by cases x.registry <;> rfl), fun m entry mem => ?_⟩
      dsimp only at mem
      rw [World.manager_modifyRegistry] at mem
      split at mem
      · rename_i same
        refine (List.mem_append.mp mem).imp_right fun new => ?_
        exact ⟨x, rfl, same, (List.mem_singleton.mp new).symm⟩
      · exact .inl mem
  | withdrawal x =>
    simp only [advance, Withdrawal.advance] at step
    split at step
    · split at step
      · simp at step
      · split at step <;> obtain rfl := Option.some.inj step
        · exact (World.Tallies.refl w).books
        · refine ⟨by cases x.registry <;> exact Nat.le_refl _,
            fun record _ => .leaves (by cases x.registry <;> rfl), fun m entry mem => .inl ?_⟩
          dsimp only at mem
          rw [World.manager_modifyRegistry] at mem
          split at mem
          · exact List.mem_of_mem_filter mem
          · exact mem
    · split at step <;> obtain rfl := Option.some.inj step
      · exact (World.Tallies.refl w).books
      · exact (World.Tallies.depart ‹_›).books
  | _ =>
    simp only [advance, Acquisition.advance, Acquisition.took, Acquisition.gaveUp, Release.advance,
      OwnedLock.advanceNotify, Arrival.advance, Sleeping.advance, Parking.advance,
      Interruption.advance, Visit.advance, Script.advance, Sequence.advance, Phases.advance,
      Resuming.advance, Polling.advance, Entering.advance, Leaving.advance, Pausing.advance,
      Foreign.advance, Acquiring.advance, Blocking.advance, Trial.advance] at step
    repeat' split at step
    all_goals first
      | (obtain rfl := Option.some.inj step
         first
           | exact (World.Tallies.refl w).books
           | exact (World.Tallies.modifyLock w _ _).books
           | exact World.Tallies.books (.modifyRegistry w _ fun _ => rfl)
           | exact (World.Tallies.setPhaser w _ _).books
           | exact (World.Tallies.modifyInterrupter w _ _).books
           | exact (World.Tallies.publish w _ _).books
           | exact World.Tallies.books (.modifyManager w _ fun _ => rfl)
           | exact (World.Tallies.checkInterrupt ‹_›).books
           | exact (World.Tallies.checkInterrupt (Prod.eta _).symm).books
           | exact ((World.Tallies.modifyInterrupter w _ _).trans (.modifyLock _ _ _)).books
           | exact World.Tallies.books ⟨rfl, rfl, fun _ => rfl⟩)
      | (obtain ⟨v, notes, leaves, rfl⟩ := World.leaves_of_bind step
         exact (World.Tallies.leaveGlobal leaves).books)
      | simp at step

namespace World.IsOf

theorem none : w.IsOf none self := by simp [World.IsOf]

theorem of_owns (owns : w.Owns record self) : w.IsOf (some record) self :=
  fun _ same => Option.some.inj same ▸ owns

end World.IsOf

theorem Op.bears {op : Op} (own : w.Owns (w.recordOf self) self)
    (step : op.advance self w = some effect) : effect.control.Bears m w self := by
  cases op with
  | access a =>
    obtain ⟨-, -, ⟨value, control⟩ | ⟨message, control⟩⟩ := Access.agrees (m := 0) step <;>
      exact control ▸ trivial
  | release n =>
    obtain ⟨_, -, replies⟩ := Option.bind_eq_some_iff.mp step
    obtain rfl := Option.some.inj replies
    trivial
  | deferLookup | unlock =>
    simp only [advance] at step
    split at step <;> obtain rfl := Option.some.inj step <;> trivial
  | enter n =>
    obtain rfl := Option.some.inj step
    exact ⟨.of_owns own, trivial⟩
  | enterWith n managed interruptible =>
    obtain rfl := Option.some.inj step
    refine ⟨?_, trivial⟩
    show w.IsOf (if managed then _ else _) self
    split
    · exact .of_owns own
    · exact .none
  | _ =>
    obtain rfl := Option.some.inj step
    first
      | trivial
      | exact ⟨trivial, trivial⟩
      | exact World.IsOf.none
      | simp [Control.Bears, Frame.Bears]

/-- What a frame becomes, or calls, has the record from the frame, or from the entry of the thread. -/
theorem Frame.bears (own : w.Owns (w.recordOf self) self)
    (found : ∀ {n entry}, frame.seeks? = some n → (w.manager n).registry.get? self = some entry →
      w.IsOf entry.record self)
    (bears : frame.Bears m w self) (step : frame.advance self w = some effect) :
    effect.control.Bears m w self := by
  cases frame with
  | start op => exact Op.bears own step
  | entering e =>
    simp only [advance, Entering.advance] at step
    repeat' split at step
    all_goals
      obtain rfl := Option.some.inj step
      first
        | trivial
        | exact bears
        | exact ⟨trivial, bears⟩
        | exact ⟨fun _ => bears, bears⟩
  | drain d =>
    simp only [advance, Drain.advance] at step
    split at step <;> obtain rfl := Option.some.inj step
    · exact bears
    · trivial
    · exact ⟨trivial, bears⟩
  | phases p =>
    simp only [advance, Phases.advance] at step
    repeat' split at step
    all_goals
      obtain rfl := Option.some.inj step
      trivial
  | resuming r =>
    simp only [advance, Resuming.advance] at step
    repeat' split at step
    all_goals obtain rfl := Option.some.inj step
    all_goals first
      | trivial
      | exact bears
      | exact ⟨trivial, bears⟩
      | exact ⟨bears _ ‹_›, bears⟩
  | polling p =>
    simp only [advance, Polling.advance] at step
    repeat' split at step
    all_goals first
      | (obtain rfl := Option.some.inj step
         first
           | trivial
           | exact bears
           | exact ⟨bears, bears⟩
           | exact found rfl ‹_›)
      | (obtain ⟨_, -, goes⟩ := Option.bind_eq_some_iff.mp step
         obtain rfl := Option.some.inj goes
         exact bears)
  | pausing p =>
    simp only [advance, Pausing.advance] at step
    repeat' split at step
    all_goals first
      | (obtain rfl := Option.some.inj step
         first
           | trivial
           | exact bears
           | exact ⟨trivial, bears⟩
           | exact ⟨bears, bears⟩
           | exact ⟨bears, trivial⟩
           | exact ⟨World.IsOf.none, bears⟩
           | exact ⟨trivial, trivial⟩
           | exact found rfl ‹_›)
      | (obtain ⟨_, -, goes⟩ := Option.bind_eq_some_iff.mp step
         obtain rfl := Option.some.inj goes
         exact bears)
  | _ =>
    simp only [advance, Acquisition.advance, Acquisition.took, Acquisition.gaveUp, Release.advance,
      OwnedLock.advanceNotify, Arrival.advance, Sleeping.advance, Parking.advance,
      Interruption.advance, Enrolment.advance, Withdrawal.advance, Visit.advance, Script.advance,
      Sequence.advance, Leaving.advance, Foreign.advance, Acquiring.advance, Blocking.advance,
      Trial.advance] at step
    repeat' split at step
    all_goals first
      | (obtain rfl := Option.some.inj step
         first
           | trivial
           | exact bears
           | exact ⟨trivial, trivial⟩
           | exact ⟨World.IsOf.none, trivial⟩)
      | (obtain ⟨_, -, goes⟩ := Option.bind_eq_some_iff.mp step
         obtain rfl := Option.some.inj goes
         trivial)
      | simp at step

theorem Frame.bears_resume (bears : parent.Bears m w self) (value : Reply) :
    (parent.resume value).Bears m w self := by
  cases parent with
  | foreign f =>
    unfold resume
    dsimp only
    split <;> trivial
  | _ => cases value <;> exact bears

theorem Frame.bears_unwind {message : String} (bears : ∀ frame ∈ rest, frame.Bears m w self) :
    ∀ frame ∈ Frame.unwind message rest, frame.Bears m w self := by
  induction rest with
  | nil => exact bears
  | cons parent below ih =>
    obtain ⟨here, beneath⟩ := List.forall_mem_cons.mp bears
    unfold Frame.unwind
    split
    · rename_i handler caught
      refine List.forall_mem_cons.mpr ⟨?_, beneath⟩
      unfold Frame.catch? at caught
      repeat' split at caught
      all_goals first
        | (obtain rfl := Option.some.inj caught
           exact here)
        | simp at caught
    · exact ih beneath

theorem Control.Bears.stack (bears : control.Bears m w self)
    (rests : ∀ frame ∈ rest, frame.Bears m w self) :
    ∀ frame ∈ control.stack rest, frame.Bears m w self := by
  cases control with
  | goto frame => exact List.forall_mem_cons.mpr ⟨bears, rests⟩
  | call child back =>
    exact List.forall_mem_cons.mpr ⟨bears.1, List.forall_mem_cons.mpr ⟨bears.2, rests⟩⟩
  | reply value =>
    cases rest with
    | nil => exact rests
    | cons parent below =>
      obtain ⟨here, beneath⟩ := List.forall_mem_cons.mp rests
      exact List.forall_mem_cons.mpr ⟨Frame.bears_resume here value, beneath⟩
  | unwind message => exact Frame.bears_unwind rests

/-- A record stays that of its thread. -/
theorem Effect.Books.owns (books : effect.Books w frame) (owns : w.Owns record thread) :
    effect.world.Owns record thread := by
  refine ⟨Nat.lt_of_lt_of_le owns.made books.made, ?_⟩
  cases books.treats record owns.made with
  | leaves same | sets same | queues same | drains _ _ same => exact same ▸ owns.own

theorem World.IsOf.mono {bound : Option RecordId}
    (keeps : ∀ {record thread}, w.Owns record thread → v.Owns record thread)
    (own : w.IsOf bound thread) : v.IsOf bound thread :=
  fun _ same => keeps (own _ same)

theorem Frame.Bears.mono (keeps : ∀ {record thread}, w.Owns record thread → v.Owns record thread)
    (bears : frame.Bears m w self) : frame.Bears m v self := by
  cases frame with
  | entering | polling | phases | pausing | resuming => exact World.IsOf.mono keeps bears
  | enrolment x => exact fun own => World.IsOf.mono keeps (bears own)
  | drain d => exact keeps bears
  | _ => trivial

/-- Only steps touch records and entries. -/
theorem World.Tallies.of_idle {move : Move} (idle : ∀ thread, move ≠ .run thread)
    (moves : w.move move = some (v, notes)) : w.Tallies v := by
  cases move with
  | run thread => exact absurd rfl (idle thread)
  | submit thread op =>
    obtain ⟨u, submit, same⟩ := Option.map_eq_some_iff.mp moves
    obtain ⟨rfl, rfl⟩ := Prod.mk.inj same
    unfold World.submit at submit
    split at submit
    · obtain rfl := Option.some.inj submit
      exact ⟨rfl, rfl, fun _ => rfl⟩
    · simp at submit
  | elapse span =>
    obtain ⟨rfl, rfl⟩ := Prod.mk.inj (Option.some.inj moves)
    exact ⟨rfl, rfl, fun _ => rfl⟩
  | rouse thread =>
    obtain ⟨rfl, rfl⟩ := Prod.mk.inj (Option.some.inj moves)
    unfold World.rouse
    split
    · exact .modifyLock w _ _
    · exact ⟨rfl, rfl, fun _ => rfl⟩
    · split <;> exact ⟨rfl, rfl, fun _ => rfl⟩
    · exact .refl w

theorem World.Tallies.owns (tallies : w.Tallies v) (owns : w.Owns record thread) :
    v.Owns record thread := by
  refine ⟨tallies.made ▸ owns.made, ?_⟩
  have same : v.record record = w.record record := by simp [World.record, tallies.records]
  exact same ▸ owns.own

theorem World.Owns.move {move : Move} (owns : w.Owns record thread)
    (moves : w.move move = some (v, notes)) : v.Owns record thread := by
  by_cases runs : ∃ self, move = .run self
  · obtain ⟨self, rfl⟩ := runs
    obtain ⟨frame, rest, effect, -, step, rfl, -⟩ := World.step_eq_some moves
    have kept := (Frame.books step).owns owns
    exact ⟨kept.made, kept.own⟩
  · exact (World.Tallies.of_idle (fun thread same => runs ⟨thread, same⟩) moves).owns owns

theorem Course.owns {custom : World → ThreadId → Prop} {moments : List Moment}
    (course : Course custom w moments v) (owns : w.Owns record thread) : v.Owns record thread :=
  course.keeps (P := fun u => u.Owns record thread) (fun owns _ moves => owns.move moves) owns

/-- A thread that takes a record from its own entry at most, and registers nobody else, leaves everybody
with records of their own. -/
theorem World.IsOwned.step_of_own (owned : w.IsOwned m) (own : w.Owns (w.recordOf self) self)
    (found : ∀ {frame rest n entry}, w.stack self = frame :: rest → frame.seeks? = some n →
      (w.manager n).registry.get? self = some entry → w.IsOf entry.record self)
    (enrols : w.isAt (·.enrolsOther m self) self = false) (moves : w.step self = some (v, notes)) :
    v.IsOwned m := by
  have frames := owned.frames self
  obtain ⟨frame, rest, effect, stack, step, rfl, -⟩ := World.step_eq_some moves
  rw [stack] at frames
  obtain ⟨here, beneath⟩ := List.forall_mem_cons.mp frames
  have keeps {record : RecordId} {thread : ThreadId} (owns : w.Owns record thread) :
      (effect.world.setStack self (effect.control.stack rest)).Owns record thread :=
    owns.move (show w.move (.run self) = _ from moves)
  have bears := Frame.bears own (found stack) here step
  refine ⟨fun entry mem => ?_, fun thread => ?_⟩
  · obtain old | ⟨x, rfl, registry, rfl⟩ := (Frame.books step).members m entry mem
    · exact (owned.members entry old).mono keeps
    · have mine : x.entry.identity = self := by
        simpa [World.isAt, stack, Frame.enrolsOther, registry] using enrols
      rw [mine]
      exact World.IsOf.mono keeps (here registry)
  · rw [World.stack_setStack]
    split
    · rename_i same
      subst same
      exact fun frame mem => (bears.stack beneath frame mem).mono keeps
    · rw [Frame.advance_stack step]
      exact fun frame mem => (owned.frames thread frame mem).mono keeps

/-- Only steps change whose records are taken part with. -/
theorem World.IsOwned.idle {move : Move} (owned : w.IsOwned m)
    (idle : ∀ thread, move ≠ .run thread) (moves : w.move move = some (v, notes)) :
    v.IsOwned m := by
  have keeps {record : RecordId} {thread : ThreadId} (owns : w.Owns record thread) :
      v.Owns record thread := owns.move moves
  refine ⟨fun entry mem => ?_, fun thread => ?_⟩
  · rw [(World.Tallies.of_idle idle moves).members m] at mem
    exact (owned.members entry mem).mono keeps
  · have frames (frame : Frame) (mem : frame ∈ w.stack thread) : frame.Bears m v thread :=
      (owned.frames thread frame mem).mono keeps
    obtain ⟨-, same | ⟨op, -, told⟩ | ⟨frame, frame', rest, before, after, rouses⟩⟩ :=
      World.move_other moves (idle thread)
    · exact same ▸ frames
    · rw [told]
      simp [Frame.Bears]
    · rw [before] at frames
      rw [after]
      refine List.forall_mem_cons.mpr ⟨?_, (List.forall_mem_cons.mp frames).2⟩
      cases rouses <;> trivial

theorem World.IsOwned.step_of_known (owned : w.IsOwned m) (coherent : w.Coherent m)
    (known : Known m w self) (moves : w.step self = some (v, notes)) : v.IsOwned m := by
  have sound := coherent.sound self
  obtain ⟨frame, rest, effect, stack, -⟩ := World.step_eq_some moves
  rw [stack] at sound
  refine owned.step_of_own known.known (fun {top below n entry} stack' seeks lookup => ?_) ?_ moves
  · obtain ⟨rfl, rfl⟩ := List.cons.inj (stack.symm.trans stack')
    have same : n = m := by
      cases frame with
      | polling | pausing => exact (Option.some.inj seeks).symm.trans sound.1.1
      | _ => simp [Frame.seeks?] at seeks
    subst same
    have mine := owned.members entry (List.mem_of_find?_eq_some lookup)
    rwa [Registry.get?_identity lookup] at mine
  · cases frame with
    | enrolment x =>
      have fits := sound.1
      simp only [Frame.Fits] at fits
      have mine (registry : x.registry = .manager m) : x.entry.identity = self := by
        rw [if_pos registry] at fits
        exact fits.1
      simpa [World.isAt, stack, Frame.enrolsOther] using mine
    | _ => simp [World.isAt, stack, Frame.enrolsOther]

theorem World.IsOwned.step (owned : w.IsOwned m) (coherent : w.Coherent m)
    (contained : Contained m w self) (moves : w.step self = some (v, notes)) : v.IsOwned m :=
  owned.step_of_known coherent (coherent.known contained) moves

theorem World.IsOwned.move {move : Move} (owned : w.IsOwned m) (coherent : w.Coherent m)
    (known : ∀ thread, move = .run thread → Known m w thread)
    (moves : w.move move = some (v, notes)) : v.IsOwned m := by
  by_cases runs : ∃ self, move = .run self
  · obtain ⟨self, rfl⟩ := runs
    exact owned.step_of_known coherent (known self rfl) moves
  · exact owned.idle (fun thread same => runs ⟨thread, same⟩) moves

theorem Course.isOwned_of_known (course : Course (Known m) w moments v) (coherent : w.Coherent m)
    (owned : w.IsOwned m) : v.IsOwned m := by
  induction course with
  | nil => exact owned
  | snoc before known moves ih => exact ih.move (before.orderly.coherent coherent) known moves

theorem Course.isOwned (course : Course (Contained m) w moments v) (coherent : w.Coherent m)
    (owned : w.IsOwned m) : v.IsOwned m :=
  (course.known coherent fun reached contained => reached.known contained).isOwned_of_known coherent
    owned

theorem World.IsFresh.isOwned (fresh : w.IsFresh m) : w.IsOwned m :=
  ⟨by simp [fresh.new.registry], fun thread => by simp [fresh.idle]⟩

/-- What others do takes nothing from the queue of a thread's record. -/
theorem World.IsOwned.queue {move : Move} (owned : w.IsOwned m) (owns : w.Owns record thread)
    (other : move ≠ .run thread) (moves : w.move move = some (v, notes)) :
    (v.record record).deferred = (w.record record).deferred ∨
      ∃ self action, (v.record record).deferred = (w.record record).deferred ++ [action] ∧
        (self, .queued record action.tag) ∈ (⟨w, move, notes⟩ : Moment).observed := by
  by_cases runs : ∃ self, move = .run self
  · obtain ⟨self, rfl⟩ := runs
    have frames := owned.frames self
    obtain ⟨frame, rest, effect, stack, step, rfl, rfl⟩ := World.step_eq_some moves
    rw [stack] at frames
    show (effect.world.record record).deferred = _ ∨ ∃ self action,
      (effect.world.record record).deferred = _ ∧ _
    cases (Frame.books step).treats record owns.made with
    | leaves same => exact .inl (congrArg Record.deferred same)
    | sets same => exact .inl (same ▸ rfl)
    | @queues action same noted =>
      exact .inr ⟨self, action, congrArg Record.deferred same, by simp [noted]⟩
    | drains drain own =>
      subst drain own
      have mine : w.Owns _ self := (List.forall_mem_cons.mp frames).1
      exact absurd (mine.own.symm.trans owns.own ▸ rfl) other
  · have idle (thread : ThreadId) : move ≠ .run thread := fun same => runs ⟨thread, same⟩
    have tallies := World.Tallies.of_idle idle moves
    exact .inl (by simp [World.record, tallies.records])

end

end StopTheWorld
