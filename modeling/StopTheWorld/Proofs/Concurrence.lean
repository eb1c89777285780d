import StopTheWorld.Proofs.Participants

namespace StopTheWorld

/-! What a participant does next is settled by what it can see. Two worlds may differ in the clock, in the
counts of the phaser and in how far the other participants are: its next step is the same in both, but for
the turn at the phaser. -/

/-- The frame without what it has from the clock and from the phaser. -/
def Frame.plain : Frame → Frame
  | arrival x => arrival { x with recorded := none }
  | pausing p => pausing { p with started := 0, duration := 0 }
  | frame => frame

def Control.plain : Control → Control
  | goto frame => goto frame.plain
  | call frame back => call frame.plain back.plain
  | reply value => reply value
  | unwind message => unwind message

/-- The note shows neither the clock nor the turn at the phaser. -/
def Note.isOwn : Note → Bool
  | arrived _ _ | advanced _ _ | published _ _ | trace (.slowPause _ _) => false
  | _ => true

def Note.isSlowPoll : Note → Bool
  | slowPoll _ => true
  | _ => false

/-- Only what keeps to the thread itself is deferred. -/
def Touch.IsLocal (m : ManagerId) : Touch → Prop
  | defer _ action => areLocal m action.script = true
  | _ => True

/-- Two worlds in which the assembly is under way and which look the same to one participant. -/
structure World.Twins (a : Assembly) (thread : ThreadId) (w v : World) : Prop where
  first : w.Assembled a
  second : v.Assembled a
  outlook : v.outlook a thread = w.outlook a thread

/-- The same step in two worlds. -/
structure Effect.Concurs (a : Assembly) (thread : ThreadId) (touch : Touch) (w v : World)
    (effect other : Effect) : Prop where
  first : touch.Makes a thread w effect.world
  second : touch.Makes a thread v other.world
  control : other.control.plain = effect.control.plain
  notes : other.notes.filter (·.isOwn) = effect.notes.filter (·.isOwn)
  polls : effect.notes.countP (·.isSlowPoll) = touch.polls
  isLocal : touch.IsLocal a.manager

def Effect.Matches (a : Assembly) (thread : ThreadId) (w v : World) (effect other : Effect) : Prop :=
  ∃ touch, effect.Concurs a thread touch w v other

/-- The step of the frame neither reads nor writes anything that threads share. -/
def Frame.IsBlind (self : ThreadId) (frame : Frame) : Prop :=
  ∃ control notes, (∀ w, frame.advance self w = some ⟨w, control, notes⟩) ∧
    notes.countP (·.isSlowPoll) = 0

section

variable {a : Assembly} {self : ThreadId} {w v : World} {frame : Frame} {rest rest' : List Frame}
  {effect other : Effect}

namespace World.Twins

variable (twins : World.Twins a self w v)
include twins

theorem recordOf_eq : v.recordOf self = w.recordOf self := congrArg Outlook.record twins.outlook

theorem members_eq :
    (v.manager a.manager).registry.members = (w.manager a.manager).registry.members :=
  congrArg Outlook.members twins.outlook

theorem get?_eq (thread : ThreadId) :
    (v.manager a.manager).registry.get? thread = (w.manager a.manager).registry.get? thread := by
  unfold Registry.get?
  rw [twins.members_eq]

theorem interruptible_eq :
    (v.manager a.manager).registry.interruptible = (w.manager a.manager).registry.interruptible := by
  unfold Registry.interruptible
  rw [twins.members_eq]

theorem record_eq {record : RecordId} (own : (w.record record).thread = self) :
    v.record record = w.record record := by
  have seen : (v.outlook a self).records record = some (w.record record) := by
    rw [twins.outlook]
    simp [World.outlook, own]
  simp only [World.outlook] at seen
  split at seen
  · exact Option.some.inj seen
  · simp at seen

theorem command_eq (driver : self = a.driver) : v.command a.manager = w.command a.manager := by
  have same := congrArg Outlook.command twins.outlook
  simpa [World.outlook, driver] using same

end World.Twins

theorem Effect.Concurs.blind {control : Control} {notes : List Note}
    (quiet : notes.countP (·.isSlowPoll) = 0) :
    Effect.Concurs a self .nothing w v ⟨w, control, notes⟩ ⟨v, control, notes⟩ :=
  ⟨.refl w, .refl v, rfl, rfl, quiet, trivial⟩

theorem Effect.Matches.of_steps {touch : Touch} {reached reached' : Effect}
    (step : some reached = some effect) (step' : some reached' = some other)
    (concurs : reached.Concurs a self touch w v reached') :
    effect.Matches a self w v other := by
  obtain rfl := Option.some.inj step
  obtain rfl := Option.some.inj step'
  exact ⟨touch, concurs⟩

theorem Frame.IsBlind.concurs (blind : frame.IsBlind self)
    (step : frame.advance self w = some effect) (step' : frame.advance self v = some other) :
    effect.Matches a self w v other := by
  obtain ⟨control, notes, advances, quiet⟩ := blind
  obtain rfl := Option.some.inj ((advances w).symm.trans step)
  obtain rfl := Option.some.inj ((advances v).symm.trans step')
  exact ⟨_, .blind quiet⟩

theorem Script.isBlind (s : Script) : (Frame.script s).IsBlind self := by
  obtain ⟨last, rest⟩ := s
  cases last with
  | some entry =>
    refine ⟨_, _, fun w => rfl, ?_⟩
    split <;> rfl
  | none =>
    cases rest with
    | nil => exact ⟨_, _, fun w => rfl, rfl⟩
    | cons op rest =>
      cases skipped : op.skippedBy self
      · exact ⟨.call (.start op.unguarded) (.script { last := some (op, .nothing), rest := rest }), [],
          fun w => by simp [Frame.advance, Script.advance, skipped, Effect.call], rfl⟩
      · exact ⟨.goto (.script { rest := rest }), [],
          fun w => by simp [Frame.advance, Script.advance, skipped, Effect.goto], rfl⟩

theorem Sequence.isBlind (s : Sequence) : (Frame.sequence s).IsBlind self := by
  obtain ⟨replies, rest⟩ := s
  cases rest <;> exact ⟨_, _, fun w => rfl, rfl⟩

theorem Resuming.isBlind {r : Resuming} (free : r.holdsGlobal = false) :
    (Frame.resuming r).IsBlind self := by
  obtain ⟨manager, record, holdsGlobal, outcome, ran, point⟩ := r
  obtain rfl : holdsGlobal = false := free
  cases point with
  | reacquire => exact ⟨_, _, fun w => rfl, rfl⟩
  | settle => cases outcome <;> cases record <;> exact ⟨_, _, fun w => rfl, rfl⟩
  | drained =>
    refine ⟨_, _, fun w => rfl, ?_⟩
    dsimp only
    split <;> rfl

theorem Effect.Concurs.defer (twins : World.Twins a self w v) {record : RecordId}
    (own : (w.record record).thread = self) {script : List Op}
    (isLocal : areLocal a.manager script = true) (tag : Tag) (value : Reply) :
    Effect.Concurs a self (.defer record { tag := tag, script := script }) w v
      ⟨w.defer record tag script, .reply value, [.queued record tag]⟩
      ⟨v.defer record tag script, .reply value, [.queued record tag]⟩ :=
  ⟨.defer own tag script, .defer ((congrArg Record.thread (twins.record_eq own)).trans own) tag script,
    rfl, rfl, rfl, isLocal⟩

/-- The first step of an operation that keeps to its thread, or of the call of a participant. -/
theorem Op.concurs {op : Op} (twins : World.Twins a self w v)
    (stack : w.stack self = .start op :: rest) (step : op.advance self w = some effect)
    (step' : op.advance self v = some other) : effect.Matches a self w v other := by
  have partakes := twins.first.partakes self
  have here := twins.first.guests self (by simp [stack])
  rw [stack] at partakes
  have inner := partakes.1
  have blind (blind : (Frame.start op).IsBlind self) :
      effect.Matches a self w v other := blind.concurs step step'
  cases op with
  | log | unwind | seq | replicate | only | pollFree | pauseWith =>
    exact blind ⟨_, _, fun w => rfl, rfl⟩
  | defer thread tag script =>
    have isLocal := inner.resolve_right (by simp)
    simp only [Op.isLocal, Bool.and_eq_true, Option.isNone_iff_eq_none] at isLocal
    obtain ⟨rfl, isLocal⟩ := isLocal
    simp only [Op.advance, Option.getD_none] at step step'
    rw [twins.recordOf_eq] at step'
    exact .of_steps step step' (.defer twins (twins.first.known self here).own isLocal tag .nothing)
  | deferLookup n thread tag script =>
    have isLocal := inner.resolve_right (by simp)
    simp only [Op.isLocal, Bool.and_eq_true, decide_eq_true_eq, Option.isNone_iff_eq_none] at isLocal
    obtain ⟨⟨rfl, rfl⟩, isLocal⟩ := isLocal
    have found : v.boundRecord? a.manager self = w.boundRecord? a.manager self := by
      unfold World.boundRecord?
      rw [twins.get?_eq]
    simp only [Op.advance, Option.getD_none] at step step'
    rw [found] at step'
    cases bound : w.boundRecord? a.manager self with
    | none =>
      simp only [bound] at step step'
      exact .of_steps step step' (.blind rfl)
    | some record =>
      simp only [bound] at step step'
      exact .of_steps step step' (.defer twins (twins.first.bound_own bound) isLocal tag (.truth true))
  | _ => simp [Frame.Partakes, Op.isLocal] at inner

/-- The queue of a record of the thread's own is the same in both worlds. -/
theorem Drain.concurs {d : Drain} (twins : World.Twins a self w v)
    (stack : w.stack self = .drain d :: rest) (step : d.advance w = some effect)
    (step' : d.advance v = some other) : effect.Matches a self w v other := by
  have bears : w.Owns d.record self := twins.first.owned.frames self (.drain d) (by simp [stack])
  have globalOwner : v.globalOwner = w.globalOwner := congrArg Outlook.globalOwner twins.outlook
  obtain ⟨record, queue, ran, point⟩ := d
  have value := twins.record_eq bears.own
  cases point with
  | take =>
    exact .of_steps step step' ⟨.drain bears.own, .drain (value ▸ bears.own), by simp [value, Control.plain],
      by simp [value], rfl, trivial⟩
  | run =>
    cases queue with
    | nil =>
      exact .of_steps step step' (.blind rfl)
    | cons action rest =>
      simp only [Drain.advance, globalOwner] at step step'
      exact .of_steps step step' (.blind rfl)

theorem Phases.concurs {p : Phases} (twins : World.Twins a self w v)
    (stack : w.stack self = .phases p :: rest) (stack' : v.stack self = .phases p :: rest')
    (step : p.advance w = some effect) (step' : p.advance v = some other) :
    effect.Matches a self w v other := by
  have sound := twins.first.coherent.sound self
  have partakes := twins.first.partakes self
  rw [stack] at sound partakes
  have manager : p.manager = a.manager := sound.1.1
  cases point : p.point with
  | first | second | third | finish =>
    simp only [Phases.advance, point] at step step'
    exact .of_steps step step' (.blind rfl)
  | republish =>
    obtain rfl : self = a.driver := partakes.1 (sound.1.2 point)
    have pauses : (v.manager a.manager).statistics.pauses = (w.manager a.manager).statistics.pauses :=
      congrArg Command.pauses (twins.command_eq rfl)
    have generation := twins.first.generation_at_republish stack point
    have generation' := twins.second.generation_at_republish stack' point
    simp only [Phases.advance, point, manager] at step step'
    obtain rfl := Option.some.inj step
    obtain rfl := Option.some.inj step'
    refine ⟨.nothing, .unseen ⟨rfl, rfl, rfl, rfl⟩ rfl rfl id, .unseen ⟨rfl, rfl, rfl, rfl⟩ rfl rfl id,
      rfl, ?_, rfl, trivial⟩
    rw [Epoch.successor_generation, Epoch.successor_generation, generation, generation', pauses]
  | choose =>
    have action := twins.first.action_found stack point
    have action' := twins.second.action_found stack' point
    have bears : w.IsOf p.record self := twins.first.owned.frames self (.phases p) (by simp [stack])
    simp only [Phases.advance, point, manager, action, action'] at step step'
    cases bound : p.record with
    | none =>
      simp only [bound] at step step'
      exact .of_steps step step' (.blind rfl)
    | some record =>
      have value := twins.record_eq (bears record bound).own
      simp only [bound, value] at step step'
      split at step
      · rename_i aborting
        rw [if_pos aborting] at step'
        exact .of_steps step step' (.blind rfl)
      · rename_i runs
        rw [if_neg runs] at step'
        exact .of_steps step step' (.blind rfl)

/-- A poll is slow in both worlds or in neither if it finds the same of the epoch. -/
theorem Polling.concurs {p : Polling} (twins : World.Twins a self w v)
    (stack : w.stack self = .polling p :: rest)
    (valid : p.point = .check →
      (v.manager a.manager).epoch.valid = (w.manager a.manager).epoch.valid)
    (step : p.advance self w = some effect) (step' : p.advance self v = some other) :
    effect.Matches a self w v other := by
  have sound := twins.first.coherent.sound self
  have partakes := twins.first.partakes self
  rw [stack] at sound partakes
  have manager : p.manager = a.manager := sound.1.1
  obtain ⟨-, free, away⟩ := partakes.1
  cases point : p.point with
  | check =>
    simp only [Polling.advance, point, manager, valid point] at step step'
    split at step
    · rename_i valid
      rw [if_pos valid] at step'
      exact .of_steps step step' (.blind rfl)
    · rename_i stale
      rw [if_neg stale] at step'
      exact .of_steps step step' (.blind rfl)
  | count =>
    simp only [Polling.advance, point, manager] at step step'
    exact .of_steps step step' ⟨.poll w, .poll v, rfl, rfl, rfl, trivial⟩
  | lookup =>
    simp only [Polling.advance, point, manager, twins.get?_eq] at step step'
    cases found : (w.manager a.manager).registry.get? self with
    | none | some entry =>
      simp only [found] at step step'
      exact .of_steps step step' (.blind rfl)
  | leaveGlobal => exact absurd point away
  | enterPhases =>
    simp only [Polling.advance, point] at step step'
    exact .of_steps step step' ⟨.mark w true, .mark v true, rfl, rfl, rfl, trivial⟩
  | exitPhases =>
    simp only [Polling.advance, point] at step step'
    exact .of_steps step step' ⟨.mark w false, .mark v false, rfl, rfl, rfl, trivial⟩

section Driver

/-! What only the driver does. -/

theorem Acquisition.concurs {x : Acquisition} (twins : World.Twins a self w v)
    (stack : w.stack self = .acquisition x :: rest)
    (stack' : v.stack self = .acquisition x :: rest')
    (step : x.advance self w = some effect) (step' : x.advance self v = some other) :
    effect.Matches a self w v other := by
  have partakes := twins.first.partakes self
  rw [stack] at partakes
  obtain ⟨rfl, lock, owner, patience, point⟩ := partakes.1
  have command := twins.command_eq rfl
  have callback : (v.interrupter a.driver).callback = (w.interrupter a.driver).callback :=
    congrArg (fun command : Command => (command.interrupters a.driver).callback) command
  obtain point | point | point := point
  · simp only [Acquisition.advance, point, patience, callback] at step step'
    exact .of_steps step step' ⟨.install w _, .install v _, rfl, rfl, rfl, trivial⟩
  · rw [twins.first.takes stack point, lock] at step
    rw [twins.second.takes stack' point, lock] at step'
    exact .of_steps step step' ⟨.modifyLock w fun _ vacant => vacant.take _,
      .modifyLock v fun _ vacant => vacant.take _, rfl, rfl, rfl, trivial⟩
  · simp only [Acquisition.advance, point, patience] at step step'
    exact .of_steps step step' ⟨.install w _, .install v _, rfl, rfl, rfl, trivial⟩

theorem Release.concurs {lock : LockRef} {point : Release.Point} (twins : World.Twins a self w v)
    (stack : w.stack self = .release lock point :: rest)
    (step : Release.advance lock point w = some effect)
    (step' : Release.advance lock point v = some other) :
    effect.Matches a self w v other := by
  have partakes := twins.first.partakes self
  rw [stack] at partakes
  obtain ⟨rfl, rfl⟩ := partakes.1
  cases point with
  | clear =>
    rw [Release.advance, if_pos twins.first.isOpen] at step
    rw [Release.advance, if_pos twins.second.isOpen] at step'
    exact .of_steps step step' ⟨.modifyLock w fun _ vacant => vacant.clear,
      .modifyLock v fun _ vacant => vacant.clear, rfl, rfl, rfl, trivial⟩
  | notify =>
    exact .of_steps step step' ⟨.modifyLock w fun _ vacant => vacant.notify,
      .modifyLock v fun _ vacant => vacant.notify, rfl, rfl, rfl, trivial⟩

theorem OwnedLock.concursNotify {lock : LockRef} (twins : World.Twins a self w v)
    (stack : w.stack self = .notify lock :: rest)
    (step : OwnedLock.advanceNotify lock w = some effect)
    (step' : OwnedLock.advanceNotify lock v = some other) :
    effect.Matches a self w v other := by
  have partakes := twins.first.partakes self
  rw [stack] at partakes
  obtain ⟨rfl, rfl⟩ := partakes.1
  rw [OwnedLock.advanceNotify, if_pos twins.first.isOpen] at step
  rw [OwnedLock.advanceNotify, if_pos twins.second.isOpen] at step'
  exact .of_steps step step' ⟨.modifyLock w fun _ vacant => vacant.notify,
    .modifyLock v fun _ vacant => vacant.notify, rfl, rfl, rfl, trivial⟩

theorem Visit.concurs {x : Visit} (twins : World.Twins a self w v)
    (stack : w.stack self = .visit x :: rest) (step : x.advance w = some effect)
    (step' : x.advance v = some other) : effect.Matches a self w v other := by
  have sound := twins.first.coherent.sound self
  have partakes := twins.first.partakes self
  rw [stack] at sound partakes
  obtain ⟨rfl, registry, -⟩ := partakes.1
  have inside : (v.registry (.manager a.manager)).interruptible =
      (w.registry (.manager a.manager)).interruptible := twins.interruptible_eq
  cases point : x.point with
  | begin =>
    simp only [Visit.advance, point, registry, inside] at step step'
    exact .of_steps step step' (.blind rfl)
  | next =>
    cases todo : x.todo with
    | nil =>
      simp only [Visit.advance, point, todo] at step step'
      exact .of_steps step step' (.blind rfl)
    | cons identity later =>
      simp only [Visit.advance, point, todo, registry, inside] at step step'
      split at step
      · rename_i here
        rw [if_pos here] at step'
        split at step
        · rename_i interrupts
          rw [if_pos interrupts] at step'
          exact .of_steps step step' ⟨.hold w identity, .hold v identity, rfl, rfl, rfl, trivial⟩
        · rename_i passes
          rw [if_neg passes] at step'
          exact .of_steps step step' (.blind rfl)
      · rename_i gone
        rw [if_neg gone] at step'
        exact .of_steps step step' (.blind rfl)
  | release identity =>
    simp only [Visit.advance, point, registry] at step step'
    exact .of_steps step step' ⟨.release w identity, .release v identity, rfl, rfl, rfl, trivial⟩
  | abandon identity message => exact absurd point (sound.1.1 identity message)

theorem Interruption.concurs {i : Interruption} (twins : World.Twins a self w v)
    (stack : w.stack self = .interruption i :: rest) (step : i.advance w = some effect)
    (step' : i.advance v = some other) : effect.Matches a self w v other := by
  have partakes := twins.first.partakes self
  rw [stack] at partakes
  obtain ⟨rfl, away⟩ := partakes.1
  cases point : i.point with
  | raise =>
    simp only [Interruption.advance, point] at step step'
    exact .of_steps step step' ⟨.raise w i.target, .raise v i.target, rfl, rfl, rfl, trivial⟩
  | look =>
    simp only [Interruption.advance, point, twins.first.callbacks _ away,
      twins.second.callbacks _ away] at step step'
    exact .of_steps step step' (.blind rfl)
  | unpark =>
    simp only [Interruption.advance, point] at step step'
    exact .of_steps step step' ⟨.unpark w i.target, .unpark v i.target, rfl, rfl, rfl, trivial⟩

theorem Pausing.concurs {p : Pausing} {started duration : Nat} (twins : World.Twins a self w v)
    (stack : w.stack self = .pausing p :: rest)
    (stack' : v.stack self = .pausing { p with started := started, duration := duration } :: rest')
    (step : p.advance self w = some effect)
    (step' : ({ p with started := started, duration := duration } : Pausing).advance self v =
      some other) : effect.Matches a self w v other := by
  have sound := twins.first.coherent.sound self
  have partakes := twins.first.partakes self
  have partakes' := twins.second.partakes self
  rw [stack] at sound partakes
  rw [stack'] at partakes'
  have manager : p.manager = a.manager := sound.1.1
  obtain ⟨rfl, rfl, free, action, away⟩ := partakes.1
  obtain rfl := partakes'.1.2.1
  cases point : p.point with
  | gate =>
    have gate : ¬ (w.isReentrant a.manager a.driver = true) := by
      simp [twins.first.not_reentrant stack point]
    have gate' : ¬ (v.isReentrant a.manager a.driver = true) := by
      simp [twins.second.not_reentrant stack' point]
    simp only [Pausing.advance, point, manager, gate, gate'] at step step'
    exact .of_steps step step' ⟨.refl w, .refl v, rfl, rfl, rfl, trivial⟩
  | lookup =>
    simp only [Pausing.advance, point, manager, twins.get?_eq] at step step'
    cases found : (w.manager a.manager).registry.get? a.driver with
    | none | some entry =>
      simp only [found] at step step'
      exact .of_steps step step' ⟨.refl w, .refl v, rfl, rfl, rfl, trivial⟩
  | poll => exact absurd point away
  | abandon => exact absurd point sound.1.2.1
  | «open» =>
    have size : (v.manager a.manager).registry.size = (w.manager a.manager).registry.size :=
      congrArg List.length twins.members_eq
    simp only [Pausing.advance, point, manager, size] at step step'
    exact .of_steps step step' ⟨.refl w, .refl v, rfl, rfl, rfl, trivial⟩
  | lock | interrupt | resume | unlock =>
    simp only [Pausing.advance, point, manager] at step step'
    exact .of_steps step step' ⟨.refl w, .refl v, rfl, rfl, rfl, trivial⟩
  | leaveGlobal =>
    simp only [Pausing.advance, point, manager, free] at step step'
    exact .of_steps step step' ⟨.refl w, .refl v, rfl, rfl, rfl, trivial⟩
  | wakeWaiters =>
    have settings : (v.manager a.manager).settings = (w.manager a.manager).settings :=
      congrArg Outlook.settings twins.outlook
    simp only [Pausing.advance, point, manager, settings] at step step'
    exact .of_steps step step' ⟨.refl w, .refl v, rfl, rfl, rfl, trivial⟩
  | announceStart | announceEnd =>
    simp only [Pausing.advance, point, manager] at step step'
    exact .of_steps step step' ⟨.publish w _, .publish v _, rfl, rfl, rfl, trivial⟩
  | store | clear =>
    simp only [Pausing.advance, point, manager] at step step'
    exact .of_steps step step' ⟨.unseen ⟨rfl, rfl, rfl, rfl⟩ rfl rfl id, .unseen ⟨rfl, rfl, rfl, rfl⟩ rfl rfl id,
      rfl, rfl, rfl, trivial⟩
  | invalidate =>
    have pauses : (v.manager a.manager).statistics.pauses = (w.manager a.manager).statistics.pauses :=
      congrArg Command.pauses (twins.command_eq rfl)
    have generation := twins.first.generation_eq stack point
    have generation' := twins.second.generation_eq stack' point
    simp only [Pausing.advance, point, manager, generation, generation', pauses] at step step'
    exact .of_steps step step' ⟨.unseen ⟨rfl, rfl, rfl, rfl⟩ rfl rfl id, .unseen ⟨rfl, rfl, rfl, rfl⟩ rfl rfl id,
      rfl, rfl, rfl, trivial⟩
  | enterPhases =>
    simp only [Pausing.advance, point, manager] at step step'
    exact .of_steps step step' ⟨.mark w true, .mark v true, rfl, rfl, rfl, trivial⟩
  | exitPhases =>
    simp only [Pausing.advance, point, manager] at step step'
    exact .of_steps step step' ⟨.mark w false, .mark v false, rfl, rfl, rfl, trivial⟩
  | account =>
    simp only [Pausing.advance, point, manager] at step step'
    obtain rfl := Option.some.inj step
    obtain rfl := Option.some.inj step'
    refine ⟨.account, .account w _, .account v _, rfl, ?_, ?_, trivial⟩
    · split <;> split <;> rfl
    · dsimp only
      split <;> rfl

end Driver

theorem Frame.eq_of_plain {frame' : Frame} (plain : frame'.plain = frame)
    (away : ∀ x, frame ≠ .arrival x) (idle : ∀ p, frame ≠ .pausing p) : frame' = frame := by
  cases frame' with
  | arrival x => exact absurd plain.symm (away _)
  | pausing p => exact absurd plain.symm (idle _)
  | _ => exact plain

theorem Frame.eq_pausing_of_plain {p : Pausing} {frame' : Frame}
    (plain : frame'.plain = (Frame.pausing p).plain) :
    ∃ started duration, frame' = .pausing { p with started := started, duration := duration } := by
  cases frame' with
  | pausing q =>
    obtain ⟨manager, holdsGlobal, action, record, started, participants, duration, outcome, point⟩ := q
    simp only [Frame.plain, Frame.pausing.injEq, Pausing.mk.injEq] at plain
    obtain ⟨rfl, rfl, rfl, rfl, -, rfl, -, rfl, rfl⟩ := plain
    exact ⟨started, duration, rfl⟩
  | _ => simp [Frame.plain] at plain

/-- A participant does the same in two worlds that look the same to it, unless it is at the phaser. -/
theorem Frame.concurs {frame' : Frame} (twins : World.Twins a self w v)
    (stack : w.stack self = frame :: rest) (stack' : v.stack self = frame' :: rest')
    (plain : frame'.plain = frame.plain) (away : ∀ x, frame ≠ .arrival x)
    (valid : ∀ p, frame = .polling p → p.point = .check →
      (v.manager a.manager).epoch.valid = (w.manager a.manager).epoch.valid)
    (step : frame.advance self w = some effect) (step' : frame'.advance self v = some other) :
    effect.Matches a self w v other := by
  have partakes := twins.first.partakes self
  rw [stack] at partakes
  have inner := partakes.1
  by_cases pausing : ∃ p, frame = .pausing p
  · obtain ⟨p, rfl⟩ := pausing
    obtain ⟨started, duration, rfl⟩ := Frame.eq_pausing_of_plain plain
    exact Pausing.concurs twins stack stack' step step'
  · have idle (p : Pausing) : frame ≠ .pausing p := fun same => pausing ⟨p, same⟩
    have constant : frame.plain = frame := by
      cases frame with
      | arrival x => exact absurd rfl (away x)
      | pausing p => exact absurd rfl (idle p)
      | _ => rfl
    obtain rfl := Frame.eq_of_plain (plain.trans constant) away idle
    clear plain constant pausing
    cases frame' with
    | arrival x => exact absurd rfl (away x)
    | pausing p => exact absurd rfl (idle p)
    | start op => exact Op.concurs twins stack step step'
    | answer reply => exact Frame.IsBlind.concurs ⟨_, _, fun w => rfl, rfl⟩ step step'
    | script s => exact s.isBlind.concurs step step'
    | sequence s => exact s.isBlind.concurs step step'
    | resuming r => exact (Resuming.isBlind inner).concurs step step'
    | drain d => exact d.concurs twins stack step step'
    | phases p => exact p.concurs twins stack stack' step step'
    | polling p => exact p.concurs twins stack (valid p rfl) step step'
    | acquisition x => exact x.concurs twins stack stack' step step'
    | release lock point => exact Release.concurs twins stack step step'
    | notify lock => exact OwnedLock.concursNotify twins stack step step'
    | visit x => exact x.concurs twins stack step step'
    | interruption i => exact i.concurs twins stack step step'
    | _ => exact inner.elim

end

end StopTheWorld
