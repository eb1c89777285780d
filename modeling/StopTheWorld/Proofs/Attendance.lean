import StopTheWorld.Proofs.Lodging
import StopTheWorld.Proofs.PauseCall
import StopTheWorld.Proofs.Setup

namespace StopTheWorld

/-! A participant of a pause, from the step by which it goes into the phases until the call that took
it there is over, whether its run of the action unwinds or not. -/

/-- A call by which a thread attends a pause: a poll, or one that drives the pause. The frames of the
base are those of the calls that it is part of. -/
structure Attendance where
  manager : ManagerId
  thread : ThreadId
  drives : Bool
  holdsGlobal : Bool
  record : Option RecordId
  globalLock : GlobalId
  base : List Frame

/-- Whether the note tells that deferred actions are taken from their queue, or that one runs. -/
def Note.isDeferring : Note → Bool
  | drained _ _ | deferred _ _ _ => true
  | _ => false

/-- What the step leaves alone: all records with their queues, and the entries of the registry. -/
structure Effect.Abstains (m : ManagerId) (w : World) (effect : Effect) : Prop where
  records : ∀ record, effect.world.record record = w.record record
  members : (effect.world.manager m).registry.members = (w.manager m).registry.members
  notes : ∀ note ∈ effect.notes, note.isDeferring = false

/-- If the moment is a step of the thread, it leaves all records with their queues and the entries of
the registry alone, and runs no deferred action. -/
def Moment.Abstains (m : ManagerId) (thread : ThreadId) (moment : Moment) : Prop :=
  moment.move = .run thread → (∀ note ∈ moment.notes, note.isDeferring = false) ∧
    ∀ next, moment.world.move moment.move = some (next, moment.notes) →
      (∀ record, next.record record = moment.world.record record) ∧
        (next.manager m).registry.members = (moment.world.manager m).registry.members

/-- The thread's run of the action unwinds with this message: it comes to the phases that a call on
this base is in. -/
structure Moment.Breaks (thread : ThreadId) (base : List Frame) (message : String)
    (moment : Moment) : Prop where
  runs : moment.move = .run thread
  unwinds : ∃ frame rest effect q joiner, moment.world.stack thread = frame :: rest ∧
    frame.advance thread moment.world = some effect ∧ effect.control = .unwind message ∧
    effect.control.stack rest = .phases q :: joiner :: base ∧ q.outcome = some message

/-- Among the procedures that a participant goes through outside of user code. -/
def Frame.isConduct : Frame → Bool
  | phases _ | arrival _ | polling _ | pausing _ | release _ _ | resuming _ | acquisition _
  | answer _ => true
  | _ => false

/-- What the thread is about to do in a deferred action does not unwind. -/
def World.DefersSteadily (w : World) (thread : ThreadId) : Prop :=
  ∀ frame rest effect, w.stack thread = frame :: rest → rest.any (·.isDrain) = true →
    frame.advance thread w = some effect → ∀ message, effect.control ≠ .unwind message

/-- A driver that has been through the phases. -/
def Pausing.Point.returns : Pausing.Point → Bool
  | exitPhases | clear | account | unlock | announceEnd | resume => true
  | _ => false

/-- A driver that has given the pause lock back. -/
def Pausing.Point.isFree : Pausing.Point → Bool
  | announceEnd | resume => true
  | _ => false

namespace Attendance

/-- What the run of the action has come to, by what happened: it has not unwound, or it has, and the
thread, which has a record, has kept away from records and registrations since. -/
def Broke (a : Attendance) (history : List Moment) : Option String → Prop
  | none => ∀ moment ∈ history, ∀ message, ¬ moment.Breaks a.thread a.base message
  | some message => a.record ≠ none ∧ ∃ early moment late, history = early ++ moment :: late ∧
      moment.Breaks a.thread a.base message ∧
      ∀ later ∈ late, later.Abstains a.manager a.thread

/-- The thread's run of the action has unwound. -/
def HasBroken (a : Attendance) (history : List Moment) : Prop :=
  ∃ moment ∈ history, ∃ message, moment.Breaks a.thread a.base message

/-- The thread has arrived at the third phase, and that is over. Since it arrived, it has given the
pause lock back and taken the global lock, as far as it is to. -/
def Passed (a : Attendance) (history : List Moment) (now : Nat) (freed regained : Prop) : Prop :=
  ∃ before after phase, history = before ++ after ∧ phase % 3 = 2 ∧
    (a.thread, .arrived (.registry (.manager a.manager)) phase) ∈ observations before ∧ phase < now ∧
    (freed → (a.thread, .cleared (.pause a.manager)) ∈ observations after) ∧
    (regained → (a.thread, .took (.global a.globalLock) a.thread) ∈ observations after)

/-- The thread has taken the deferred actions from the queue of its record. -/
def Drained (a : Attendance) (history : List Moment) : Prop :=
  ∀ record, a.record = some record → ∃ taken, (a.thread, .drained record taken) ∈
    observations history

/-- What the call stands on after the phases: a driver's call replies that it succeeded. -/
def tail (a : Attendance) : List Frame :=
  if a.drives then .answer (.succeeded .nothing) :: a.base else a.base

/-- What the call replies if the action has not unwound. -/
def value (a : Attendance) : Reply := if a.drives then .succeeded .nothing else .nothing

/-- The frame is that of the call, with this outcome of the phases. -/
inductive Joins (a : Attendance) (outcome : Option String) : Frame → Prop
  | polls {p : Polling} (manager : p.manager = a.manager) (drives : a.drives = false)
      (holdsGlobal : p.holdsGlobal = a.holdsGlobal) (record : p.record = a.record)
      (point : p.point = .exitPhases) (same : p.outcome = outcome) : Joins a outcome (.polling p)
  | pauses {p : Pausing} (manager : p.manager = a.manager) (drives : a.drives = true)
      (holdsGlobal : p.holdsGlobal = a.holdsGlobal) (record : p.record = a.record)
      (point : p.point.returns = true) (same : p.outcome = outcome) : Joins a outcome (.pausing p)

/-- The call is in the phases of its pause. -/
structure Within (a : Attendance) (q : Phases) (joiner : Frame) : Prop where
  manager : q.manager = a.manager
  record : q.record = a.record
  joins : a.Joins none joiner
  late : q.outcome ≠ none → q.point = .third ∨ q.point = .finish

/-- The stack of a thread that attends a pause, stage by stage, and what has been told of it. -/
inductive Attends (a : Attendance) (history : List Moment) (now : Nat) : List Frame → Prop
  | meets {q : Phases} {joiner : Frame} (within : a.Within q joiner)
      (broke : a.Broke history q.outcome)
      (passed : q.point = .finish → a.Passed history now False False) :
      Attends a history now (.phases q :: joiner :: a.base)
  | arrives {x : Arrival} {q : Phases} {joiner : Frame} (within : a.Within q joiner)
      (broke : a.Broke history q.outcome)
      (arrived : q.point = .finish → ∀ phase, x.recorded = some phase → phase % 3 = 2 ∧
        (a.thread, .arrived (.registry (.manager a.manager)) phase) ∈ observations history) :
      Attends a history now (.arrival x :: .phases q :: joiner :: a.base)
  | acts {above : List Frame} {q : Phases} {joiner : Frame} (within : a.Within q joiner)
      (on : q.outcome = none) (broke : a.Broke history none) (third : q.point = .third)
      (bound : a.record ≠ none) : Attends a history now (above ++ .phases q :: joiner :: a.base)
  | returns {outcome : Option String} {joiner : Frame} (joins : a.Joins outcome joiner)
      (broke : a.Broke history outcome)
      (passed : a.Passed history now (∃ p, joiner = .pausing p ∧ p.point.isFree = true) False) :
      Attends a history now (joiner :: a.base)
  | releases {lock : LockRef} {point : Release.Point} {p : Pausing}
      (pause : lock = .pause a.manager) (joins : a.Joins p.outcome (.pausing p))
      (free : p.point = .announceEnd) (broke : a.Broke history p.outcome)
      (passed : a.Passed history now (point = .notify) False) :
      Attends a history now (.release lock point :: .pausing p :: a.base)
  | resumes {r : Resuming} (manager : r.manager = a.manager) (record : r.record = a.record)
      (holdsGlobal : r.holdsGlobal = a.holdsGlobal) (broke : a.Broke history r.outcome)
      (passed : a.Passed history now (a.drives = true)
        (r.point ≠ .reacquire ∧ a.holdsGlobal = true))
      (drained : r.point = .drained → r.outcome = none ∧ a.Drained history) :
      Attends a history now (.resuming r :: a.tail)
  | reacquires {x : Acquisition} {r : Resuming} (manager : r.manager = a.manager)
      (record : r.record = a.record) (holdsGlobal : r.holdsGlobal = a.holdsGlobal)
      (settle : r.point = .settle) (lock : x.lock = .global a.globalLock)
      (owner : x.owner = a.thread) (patience : x.patience = .uninterruptible)
      (broke : a.Broke history r.outcome)
      (passed : a.Passed history now (a.drives = true) False) :
      Attends a history now (.acquisition x :: .resuming r :: a.tail)
  | drains {above : List Frame} {d : Drain} {r : Resuming} (manager : r.manager = a.manager)
      (record : r.record = a.record) (holdsGlobal : r.holdsGlobal = a.holdsGlobal)
      (point : r.point = .drained) (bound : a.record = some d.record) (on : r.outcome = none)
      (broke : a.Broke history none)
      (passed : a.Passed history now (a.drives = true) (a.holdsGlobal = true))
      (took : above ≠ [] ∨ d.point = .run → a.Drained history) :
      Attends a history now (above ++ .drain d :: .resuming r :: a.tail)
  | answers (drives : a.drives = true) (broke : a.Broke history none)
      (passed : a.Passed history now (a.drives = true) (a.holdsGlobal = true))
      (drained : a.Drained history) :
      Attends a history now (.answer (.succeeded .nothing) :: a.base)

/-- How the call comes to its end by a step of the thread. -/
inductive Ends (a : Attendance) (history : List Moment) (now : Nat) (last : Moment) (next : World) :
    Prop
  | unwinds {message : String} (broke : a.Broke history (some message))
      (passed : a.Passed history now (a.drives = true) (a.holdsGlobal = true))
      (abstains : last.Abstains a.manager a.thread)
      (out : next = last.world.setStack a.thread [])
      (told : .completed (.unwound message) ∈ last.notes)
  | replies (broke : a.Broke history none)
      (passed : a.Passed history now (a.drives = true) (a.holdsGlobal = true))
      (drained : a.Drained history)
      (stack : next.stack a.thread = (Control.reply a.value).stack a.base)

end Attendance

section

variable {a : Attendance} {m : ManagerId} {w v : World} {thread : ThreadId} {frame joiner : Frame}
  {rest base : List Frame} {effect : Effect} {history : List Moment} {moment : Moment}
  {now now' : Nat} {outcome : Option String} {message : String}

section Worlds

/-! What the shared state that the procedures of a pause change leaves of records and entries. -/

@[simp] theorem World.record_modifyLock (lock : LockRef) (f : OwnedLock → OwnedLock)
    (record : RecordId) : (w.modifyLock lock f).record record = w.record record := by
  cases lock <;> rfl

@[simp] theorem World.record_modifyInterrupter (target : ThreadId)
    (f : Interrupter Wake → Interrupter Wake) (record : RecordId) :
    (w.modifyInterrupter target f).record record = w.record record := rfl

@[simp] theorem World.record_setPhaser (phaser : PhaserRef) (value : Phaser) (record : RecordId) :
    (w.setPhaser phaser value).record record = w.record record := by
  rcases phaser with registry | phaser
  · cases registry <;> rfl
  · rfl

theorem World.members_modifyManager (n : ManagerId) {f : Manager → Manager}
    (keeps : ∀ manager, (f manager).registry.members = manager.registry.members) :
    ((w.modifyManager n f).manager m).registry.members = (w.manager m).registry.members := by
  rw [manager_modifyManager]
  split
  · rename_i same
    rw [keeps, same]
  · rfl

@[simp] theorem World.members_modifyLock (lock : LockRef) (f : OwnedLock → OwnedLock) :
    ((w.modifyLock lock f).manager m).registry.members = (w.manager m).registry.members := by
  rw [manager_modifyLock]
  split <;> rfl

@[simp] theorem World.members_setPhaser (phaser : PhaserRef) (value : Phaser) :
    ((w.setPhaser phaser value).manager m).registry.members = (w.manager m).registry.members := by
  rcases phaser with registry | phaser
  · simp only [setPhaser, manager_modifyRegistry]
    split <;> rfl
  · rfl

end Worlds

/-- The procedures of a pause touch neither records nor entries. -/
theorem Frame.abstains (conduct : frame.isConduct = true)
    (step : frame.advance thread w = some effect) : effect.Abstains m w := by
  cases frame with
  | phases | arrival | polling | pausing | release | resuming | acquisition | answer =>
    simp only [advance, Acquisition.advance, Acquisition.took, Acquisition.gaveUp, Release.advance,
      Arrival.advance, Phases.advance, Resuming.advance, Polling.advance, Pausing.advance] at step
    repeat' split at step
    all_goals first
      | (obtain rfl := Option.some.inj step
         first
           | exact ⟨fun _ => rfl, rfl, by simp [Note.isDeferring]⟩
           | exact ⟨fun _ => rfl, World.members_modifyManager _ fun _ => rfl,
               by simp [Note.isDeferring]⟩
           | exact ⟨by simp, by simp, by simp [Note.isDeferring]⟩)
      | (obtain ⟨v, notes, leaves, rfl⟩ := World.leaves_of_bind step
         simp only [World.leaveGlobal] at leaves
         split at leaves
         · obtain ⟨rfl, rfl⟩ := Prod.mk.inj (Option.some.inj leaves)
           exact ⟨by simp, by simp, by split <;> simp [Note.isDeferring]⟩
         · simp at leaves)
      | simp at step
  | _ => simp [isConduct] at conduct

namespace Moment

theorem Breaks.unwinding {notes : List Note}
    (breaks : (⟨w, .run thread, notes⟩ : Moment).Breaks thread base message)
    (stack : w.stack thread = frame :: rest) (step : frame.advance thread w = some effect) :
    effect.control = .unwind message ∧ ∃ q joiner,
      effect.control.stack rest = .phases q :: joiner :: base ∧ q.outcome = some message := by
  obtain ⟨-, frame', rest', effect', q, joiner, stack', step', unwinds, caught, outcome⟩ := breaks
  obtain ⟨rfl, rfl⟩ := List.cons.inj (stack.symm.trans stack')
  obtain rfl := Option.some.inj (step.symm.trans step')
  exact ⟨unwinds, q, joiner, caught, outcome⟩

theorem abstains_of_step (stack : w.stack thread = frame :: rest)
    (step : frame.advance thread w = some effect) (abstains : effect.Abstains m w) :
    (⟨w, .run thread, effect.notes ++ effect.control.completion rest⟩ : Moment).Abstains m
      thread := by
  refine fun _ => ⟨fun note mem => ?_, fun next moved => ?_⟩
  · obtain noted | completed := List.mem_append.mp mem
    · exact abstains.notes note noted
    · obtain ⟨value, rfl⟩ := Control.completed_of_mem completed
      rfl
  · obtain ⟨frame', rest', effect', stack', step', rfl, -⟩ := World.step_eq_some moved
    obtain ⟨rfl, rfl⟩ := List.cons.inj (stack.symm.trans stack')
    obtain rfl := Option.some.inj (step.symm.trans step')
    exact ⟨abstains.records, abstains.members⟩

end Moment

theorem Contained.defersSteadily (contained : Contained m w thread) : w.DefersSteadily thread :=
  fun _ _ _ stack defers step => contained.steady stack (by simp [isAside, defers]) step

/-- The phases of a manager only ever go up. -/
theorem World.Coherent.phase_le {move : Move} {notes : List Note} (coherent : w.Coherent m)
    (orderly : ∀ thread, move = .run thread → Orderly m w thread)
    (moves : w.move move = some (v, notes)) :
    (w.core m).phaser.phase ≤ (v.core m).phaser.phase := by
  have turns := (coherent.move orderly moves).2
  show _ ≤ (v.scene m).core.phaser.phase
  generalize v.scene m = after at turns
  cases turns with
  | run turn =>
    obtain same | ⟨next, -⟩ := coherent.lawful.phase_cases turn
    · exact same.ge
    · exact next ▸ Nat.le_succ _
  | idle => exact Nat.le_refl _

namespace Attendance

theorem Broke.on (broke : a.Broke history outcome)
    (whole : ∀ message, ¬ moment.Breaks a.thread a.base message)
    (abstains : outcome ≠ none → moment.Abstains a.manager a.thread) :
    a.Broke (history ++ [moment]) outcome := by
  cases outcome with
  | none =>
    intro other mem
    obtain mem | mem := List.mem_append.mp mem
    · exact broke other mem
    · obtain rfl := List.mem_singleton.mp mem
      exact whole
  | some message =>
    obtain ⟨bound, early, broken, late, rfl, breaks, abstained⟩ := broke
    refine ⟨bound, early, broken, late ++ [moment], by simp, breaks, fun later mem => ?_⟩
    obtain mem | mem := List.mem_append.mp mem
    · exact abstained later mem
    · obtain rfl := List.mem_singleton.mp mem
      exact abstains (by simp)

theorem Broke.hasBroken (broke : a.Broke history outcome) (unwound : outcome ≠ none) :
    a.HasBroken history := by
  cases outcome with
  | none => exact absurd rfl unwound
  | some message =>
    obtain ⟨-, early, moment, late, rfl, breaks, -⟩ := broke
    exact ⟨moment, by simp, message, breaks⟩

theorem Broke.unwinds (bound : a.record ≠ none) (breaks : moment.Breaks a.thread a.base message) :
    a.Broke (history ++ [moment]) (some message) :=
  ⟨bound, history, moment, [], rfl, breaks, by simp⟩

theorem Passed.on {freed regained freed' regained' : Prop}
    (passed : a.Passed history now freed regained) (le : now ≤ now')
    (frees : freed' → freed ∨ (a.thread, .cleared (.pause a.manager)) ∈ moment.observed)
    (regains : regained' → regained ∨
      (a.thread, .took (.global a.globalLock) a.thread) ∈ moment.observed) :
    a.Passed (history ++ [moment]) now' freed' regained' := by
  obtain ⟨before, after, phase, rfl, third, arrived, ended, freed, regained⟩ := passed
  refine ⟨before, after ++ [moment], phase, by simp, third, arrived, by omega, fun free => ?_,
    fun regain => ?_⟩
  · rw [observations_append]
    obtain old | new := frees free
    · exact List.mem_append_left _ (freed old)
    · exact List.mem_append_right _ (by simpa using new)
  · rw [observations_append]
    obtain old | new := regains regain
    · exact List.mem_append_left _ (regained old)
    · exact List.mem_append_right _ (by simpa using new)

theorem Drained.on (drained : a.Drained history) : a.Drained (history ++ [moment]) := by
  intro record bound
  obtain ⟨taken, mem⟩ := drained record bound
  exact ⟨taken, by simp [mem]⟩

theorem Broke.calm (broke : a.Broke history outcome) (conduct : frame.isConduct = true)
    (stack : w.stack a.thread = frame :: rest) (step : frame.advance a.thread w = some effect)
    (steady : ∀ message, effect.control ≠ .unwind message) :
    a.Broke (history ++
      [⟨w, .run a.thread, effect.notes ++ effect.control.completion rest⟩]) outcome := by
  refine broke.on (fun message breaks => ?_) fun _ =>
    Moment.abstains_of_step stack step (Frame.abstains conduct step)
  exact steady message (breaks.unwinding stack step).1

theorem length_base_le (a : Attendance) : a.base.length ≤ a.tail.length := by
  unfold tail
  split <;> simp

theorem base_lt_length {stack : List Frame} (attends : a.Attends history now stack) :
    a.base.length < stack.length := by
  have le := a.length_base_le
  cases attends <;> simp <;> omega

/-- What others do is nothing to a participant, except that the phaser moves on. -/
theorem Attends.on {stack : List Frame} (attends : a.Attends history now stack) (le : now ≤ now')
    (other : moment.move ≠ .run a.thread) : a.Attends (history ++ [moment]) now' stack := by
  have on {outcome : Option String} (broke : a.Broke history outcome) :
      a.Broke (history ++ [moment]) outcome :=
    broke.on (fun _ breaks => other breaks.runs) fun _ runs => absurd runs other
  cases attends with
  | meets within broke passed =>
    exact .meets within (on broke) fun finish => (passed finish).on le .inl .inl
  | arrives within broke arrived =>
    refine .arrives within (on broke) fun finish phase recorded => ?_
    obtain ⟨third, noted⟩ := arrived finish phase recorded
    exact ⟨third, by simp [noted]⟩
  | acts within calm broke third bound => exact .acts within calm (on broke) third bound
  | returns joins broke passed => exact .returns joins (on broke) (passed.on le .inl .inl)
  | releases pause joins free broke passed =>
    exact .releases pause joins free (on broke) (passed.on le .inl .inl)
  | resumes manager record holdsGlobal broke passed drained =>
    exact .resumes manager record holdsGlobal (on broke) (passed.on le .inl .inl)
      fun point => (drained point).imp_right (·.on)
  | reacquires manager record holdsGlobal settle lock owner patience broke passed =>
    exact .reacquires manager record holdsGlobal settle lock owner patience (on broke)
      (passed.on le .inl .inl)
  | drains manager record holdsGlobal point bound calm broke passed took =>
    exact .drains manager record holdsGlobal point bound calm (on broke) (passed.on le .inl .inl)
      fun taken => (took taken).on
  | answers drives broke passed drained =>
    exact .answers drives (on broke) (passed.on le .inl .inl) drained.on

/-- A participant can be woken without a reason within user code only. -/
theorem Attends.rouse {frame' : Frame} {stack : List Frame}
    (attends : a.Attends history now stack) (same : stack = frame :: rest)
    (rouses : frame.Rouses frame') : a.Attends history now (frame' :: rest) := by
  cases attends with
  | @acts above q joiner within calm broke third bound =>
    cases above with
    | nil =>
      obtain ⟨rfl, -⟩ := List.cons.inj same
      cases rouses
    | cons top above =>
      obtain ⟨-, rfl⟩ := List.cons.inj same
      show a.Attends history now ((frame' :: above) ++ .phases q :: joiner :: a.base)
      exact .acts within calm broke third bound
  | @drains above d r manager record holdsGlobal point bound calm broke passed took =>
    cases above with
    | nil =>
      obtain ⟨rfl, -⟩ := List.cons.inj same
      cases rouses
    | cons top above =>
      obtain ⟨-, rfl⟩ := List.cons.inj same
      show a.Attends history now ((frame' :: above) ++ .drain d :: .resuming r :: a.tail)
      exact .drains manager record holdsGlobal point bound calm broke passed fun _ =>
        took (.inl (by simp))
  | returns joins =>
    obtain ⟨rfl, -⟩ := List.cons.inj same
    cases joins <;> cases rouses
  | _ =>
    obtain ⟨rfl, -⟩ := List.cons.inj same
    cases rouses

theorem Joins.resume (joins : a.Joins none joiner) :
    a.Joins outcome (joiner.resume ((outcome.map Reply.unwound).getD .nothing)) := by
  cases joins with
  | polls manager drives holdsGlobal record point same =>
    cases outcome with
    | none => exact .polls manager drives holdsGlobal record point same
    | some message => exact .polls manager drives holdsGlobal record point rfl
  | pauses manager drives holdsGlobal record point same =>
    cases outcome with
    | none => exact .pauses manager drives holdsGlobal record point same
    | some message => exact .pauses manager drives holdsGlobal record point rfl

theorem Within.goto {q : Phases} (within : a.Within q joiner) (point : Phases.Point)
    (late : q.outcome ≠ none → point = .third ∨ point = .finish) :
    a.Within { q with point } joiner :=
  ⟨within.manager, within.record, within.joins, late⟩

section Steps

/-! The steps of the participant. -/

variable (a history) in
/-- What is known of the call after a step of the participant. -/
abbrev After (w : World) (rest : List Frame) (now : Nat) (effect : Effect) : Prop :=
  a.Attends
    (history ++ [⟨w, .run a.thread, effect.notes ++ effect.control.completion rest⟩]) now
    (effect.control.stack rest)

theorem meets_step {q : Phases} (within : a.Within q joiner) (broke : a.Broke history q.outcome)
    (passed : q.point = .finish → a.Passed history now False False)
    (sound : Sound m a.thread (.phases q :: joiner :: a.base))
    (stack : w.stack a.thread = .phases q :: joiner :: a.base)
    (step : q.advance w = some effect) (le : now ≤ now') :
    a.After history w (joiner :: a.base) now' effect := by
  have on (steady : ∀ message, effect.control ≠ .unwind message) :=
    broke.calm rfl stack step steady
  have early (point : q.point ≠ .third ∧ q.point ≠ .finish) (unwound : q.outcome ≠ none) : False :=
    (within.late unwound).elim point.1 point.2
  cases point : q.point with
  | first =>
    simp only [Phases.advance, point] at step
    obtain rfl := Option.some.inj step
    refine .arrives (within.goto _ fun unwound => (early (by simp [point]) unwound).elim) (on (by simp)) ?_
    intro finish
    dsimp only at finish
    split at finish <;> simp at finish
  | republish =>
    simp only [Phases.advance, point] at step
    obtain rfl := Option.some.inj step
    exact .meets (within.goto _ fun unwound => (early (by simp [point]) unwound).elim) (on (by simp))
      (by simp)
  | second =>
    simp only [Phases.advance, point] at step
    obtain rfl := Option.some.inj step
    exact .arrives (within.goto _ fun unwound => (early (by simp [point]) unwound).elim) (on (by simp))
      (by simp)
  | choose =>
    have none : q.outcome = none := Classical.byContradiction (early (by simp [point]))
    have third := within.goto .third fun _ => .inl rfl
    simp only [Phases.advance, point] at step
    split at step
    · rename_i record action bound _
      split at step <;> obtain rfl := Option.some.inj step
      · exact .meets third (on (by simp)) (by simp)
      · have runs : a.record ≠ .none := by
          rw [← within.record, bound]
          simp
        show a.Attends _ now' ([_] ++ _ :: joiner :: a.base)
        exact .acts third none (none ▸ on (by simp)) rfl runs
    · obtain rfl := Option.some.inj step
      exact .meets third (on (by simp)) (by simp)
  | third =>
    simp only [Phases.advance, point] at step
    obtain rfl := Option.some.inj step
    exact .arrives (within.goto _ fun _ => .inr rfl) (on (by simp)) (by simp)
  | finish =>
    simp only [Phases.advance, point] at step
    obtain rfl := Option.some.inj step
    refine .returns within.joins.resume (on (by simp)) ((passed point).on le ?_ .inl)
    rintro ⟨p, same, free⟩
    obtain ⟨r, below, standing, -⟩ | ⟨r, below, standing, exit, -⟩ := sound.below_phases <;>
      obtain ⟨rfl, -⟩ := List.cons.inj standing
    · cases outcome : q.outcome <;> simp [outcome, Frame.resume] at same
    · have kept : p.point = r.point := by
        cases outcome : q.outcome <;> simp [outcome, Frame.resume] at same <;> simp [← same]
      simp [kept, exit, Pausing.Point.isFree] at free

theorem arrives_step {x : Arrival} {q : Phases} (within : a.Within q joiner)
    (broke : a.Broke history q.outcome)
    (arrived : q.point = .finish → ∀ phase, x.recorded = some phase → phase % 3 = 2 ∧
      (a.thread, .arrived (.registry (.manager a.manager)) phase) ∈ observations history)
    (coherent : w.Coherent a.manager)
    (stack : w.stack a.thread = .arrival x :: .phases q :: joiner :: a.base)
    (step : x.advance w = some effect) :
    a.After history w (.phases q :: joiner :: a.base)
      (effect.world.core a.manager).phaser.phase effect := by
  have on (steady : ∀ message, effect.control ≠ .unwind message) :=
    broke.calm rfl stack step steady
  have sound := coherent.sound a.thread
  rw [stack] at sound
  have phaser : x.phaser = .registry (.manager a.manager) := sound.2.1.1
  obtain ⟨leads, meeting⟩ : ∃ leads,
      w.posture a.manager a.thread = .meeting leads q.point (some x.recorded) := by
    obtain ⟨leads, same⟩ : ∃ leads, StopTheWorld.posture a.manager (.phases q :: joiner :: a.base) =
        .meeting leads q.point none := by
      rw [posture_cons]
      generalize StopTheWorld.posture a.manager (joiner :: a.base) = under
      cases under <;> exact ⟨_, rfl⟩
    refine ⟨leads, ?_⟩
    unfold World.posture
    rw [stack, posture_cons, same]
    simp [Frame.posture, phaser]
  have meets : (w.core a.manager).Meets q.point (some x.recorded) :=
    (coherent.lawful.admits a.thread).meets meeting
  have ended {phase now' : Nat} {moment : Moment} (third : phase % 3 = 2)
      (noted : (a.thread, .arrived (.registry (.manager a.manager)) phase) ∈
        observations (history ++ [moment]))
      (past : phase < now') : a.Passed (history ++ [moment]) now' False False :=
    ⟨history ++ [moment], [], phase, by simp, third, noted, past, False.elim, False.elim⟩
  simp only [Arrival.advance, phaser] at step
  split at step
  · rename_i yet
    have third (finish : q.point = .finish) :
        (w.phaser (.registry (.manager a.manager))).phase % 3 = 2 := by
      have pace := meets.pace
      have passed : q.point.passed (w.core a.manager).phaser.phase (some none) = 2 := by
        simp [finish, Phases.Point.passed, Phases.Point.rounds]
      rw [yet, passed] at pace
      have phase : (w.phaser (.registry (.manager a.manager))).phase =
          3 * (w.core a.manager).pauses + 2 := pace.resolve_right fun three => by simp at three
      omega
    split at step <;> rename_i last <;> obtain rfl := Option.some.inj step
    · refine .meets within (on (by simp)) fun finish => ended (third finish) (by simp) ?_
      simp only [World.core_setPhaser, Phaser.arrive_phase, if_pos last]
      exact Nat.lt_succ_self _
    · refine .arrives within (on (by simp)) fun finish phase recorded => ?_
      obtain rfl := Option.some.inj recorded
      exact ⟨third finish, by simp⟩
  · rename_i phase recorded
    split at step <;> rename_i gone
    · simp at step
    · obtain rfl := Option.some.inj step
      refine .meets within (on (by simp)) fun finish => ?_
      obtain ⟨third, noted⟩ := arrived finish phase recorded
      refine ended third (by simp [noted]) ?_
      have near := meets.recorded phase (congrArg some recorded)
      have other : (w.core a.manager).phaser.phase ≠ phase := gone
      show phase < (w.core a.manager).phaser.phase
      omega

theorem acts_step {above : List Frame} {q : Phases} (within : a.Within q joiner)
    (calm : q.outcome = none) (broke : a.Broke history none) (third : q.point = .third)
    (bound : a.record ≠ none)
    (sound : Sound m a.thread (frame :: (above ++ .phases q :: joiner :: a.base)))
    (stack : w.stack a.thread = frame :: (above ++ .phases q :: joiner :: a.base))
    (step : frame.advance a.thread w = some effect) :
    a.After history w (above ++ .phases q :: joiner :: a.base) now' effect := by
  have whole {q' : Phases} (above' : List Frame) (calm : q'.outcome = none)
      (same : effect.control.stack (above ++ .phases q :: joiner :: a.base) =
        above' ++ .phases q' :: joiner :: a.base) :
      a.Broke (history ++ [⟨w, .run a.thread,
        effect.notes ++ effect.control.completion (above ++ .phases q :: joiner :: a.base)⟩])
        none := by
    refine broke.on (fun message breaks => ?_) fun unwound => absurd rfl unwound
    obtain ⟨-, r, joiner', unwound, outcome⟩ := breaks.unwinding stack step
    have shape := same.symm.trans unwound
    obtain rfl : above' = [] := by
      have lengths := congrArg List.length shape
      simpa using lengths
    obtain rfl := Frame.phases.inj (List.cons.inj shape).1
    simp [calm] at outcome
  obtain ⟨above', same⟩ | ⟨rfl, value, replies, same⟩ | ⟨message, unwinds, same⟩ :=
    effect.control.stack_append above (.phases q) (joiner :: a.base)
  · have kept := whole above' calm same
    unfold After
    rw [same]
    exact .acts within calm kept third bound
  · have script : ∃ s, frame = .script s := by
      have stands : (Frame.phases q).Awaits m frame (joiner :: a.base) := sound.2.1
      cases frame with
      | script s => exact ⟨s, rfl⟩
      | arrival x => exact absurd third stands.2.2
      | _ => exact stands.elim
    obtain ⟨s, rfl⟩ := script
    obtain rfl : value = .nothing := by
      simp only [Frame.advance, Script.advance] at step
      repeat' split at step
      all_goals
        obtain rfl := Option.some.inj step
        simp at replies
      exact replies.symm
    have kept := whole [] calm same
    unfold After
    rw [same]
    exact .meets within (calm ▸ kept) (by simp [third])
  · have caught : Frame.unwind message (.phases q :: joiner :: a.base) =
        .phases { q with outcome := some message } :: joiner :: a.base := by
      simp [Frame.unwind, Frame.catch?, third]
    rw [caught] at same
    unfold After
    rw [same]
    refine .meets ⟨within.manager, within.record, within.joins, fun _ => .inl third⟩
      (Broke.unwinds bound ?_) (by simp [third])
    exact ⟨rfl, frame, _, effect, _, joiner, stack, step, unwinds, same, rfl⟩

theorem returns_step (joins : a.Joins outcome joiner) (broke : a.Broke history outcome)
    (passed : a.Passed history now (∃ p, joiner = .pausing p ∧ p.point.isFree = true) False)
    (stack : w.stack a.thread = joiner :: a.base) (step : joiner.advance a.thread w = some effect)
    (le : now ≤ now') : a.After history w a.base now' effect := by
  cases joins with
  | @polls p manager drives holdsGlobal record point same =>
    subst same
    have on (steady : ∀ message, effect.control ≠ .unwind message) :=
      broke.calm rfl stack step steady
    have tail : a.tail = a.base := by simp [tail, drives]
    simp only [Frame.advance, Polling.advance, point] at step
    obtain rfl := Option.some.inj step
    unfold After
    show a.Attends _ now' (_ :: a.base)
    rw [← tail]
    exact .resumes manager record holdsGlobal (on (by simp))
      (passed.on le (by simp [drives]) (by simp)) (by simp)
  | @pauses p manager drives holdsGlobal record returns same =>
    subst same
    have on (steady : ∀ message, effect.control ≠ .unwind message) :=
      broke.calm rfl stack step steady
    have goes (point : Pausing.Point) (returns : point.returns = true) :
        a.Joins p.outcome (.pausing { p with point }) :=
      .pauses manager drives holdsGlobal record returns rfl
    cases point : p.point with
    | exitPhases | clear =>
      simp only [Frame.advance, Pausing.advance, point] at step
      obtain rfl := Option.some.inj step
      exact .returns (goes _ rfl) (on (by simp)) (passed.on le (by simp [Pausing.Point.isFree]) .inl)
    | account =>
      simp only [Frame.advance, Pausing.advance, point] at step
      obtain rfl := Option.some.inj step
      exact .returns (.pauses manager drives holdsGlobal record rfl rfl) (on (by simp))
        (passed.on le (by simp [Pausing.Point.isFree]) .inl)
    | unlock =>
      simp only [Frame.advance, Pausing.advance, point] at step
      obtain rfl := Option.some.inj step
      exact .releases (congrArg _ manager) (goes _ rfl) rfl (on (by simp)) (passed.on le (by simp) .inl)
    | announceEnd =>
      simp only [Frame.advance, Pausing.advance, point] at step
      obtain rfl := Option.some.inj step
      exact .returns (goes _ rfl) (on (by simp))
        (passed.on le (fun _ => .inl ⟨p, rfl, by simp [point, Pausing.Point.isFree]⟩) .inl)
    | resume =>
      have tail : a.tail = .answer (.succeeded .nothing) :: a.base := by simp [tail, drives]
      simp only [Frame.advance, Pausing.advance, point] at step
      obtain rfl := Option.some.inj step
      unfold After
      show a.Attends _ now' (_ :: .answer (.succeeded .nothing) :: a.base)
      rw [← tail]
      exact .resumes manager record holdsGlobal (on (by simp))
        (passed.on le (fun _ => .inl ⟨p, rfl, by simp [point, Pausing.Point.isFree]⟩) (by simp))
        (by simp)
    | _ => simp [point, Pausing.Point.returns] at returns

theorem releases_step {lock : LockRef} {point : Release.Point} {p : Pausing}
    (pause : lock = .pause a.manager) (joins : a.Joins p.outcome (.pausing p))
    (free : p.point = .announceEnd) (broke : a.Broke history p.outcome)
    (passed : a.Passed history now (point = .notify) False)
    (stack : w.stack a.thread = .release lock point :: .pausing p :: a.base)
    (step : Release.advance lock point w = some effect) (le : now ≤ now') :
    a.After history w (.pausing p :: a.base) now' effect := by
  have on (steady : ∀ message, effect.control ≠ .unwind message) :=
    broke.calm rfl stack step steady
  cases point with
  | clear =>
    simp only [Release.advance] at step
    split at step
    · obtain rfl := Option.some.inj step
      exact .releases pause joins free (on (by simp))
        (passed.on le (fun _ => .inr (by simp [pause])) .inl)
    · simp at step
  | notify =>
    obtain rfl := Option.some.inj step
    exact .returns joins (on (by simp)) (passed.on le (fun _ => .inl rfl) .inl)

theorem reacquires_step {x : Acquisition} {r : Resuming} (manager : r.manager = a.manager)
    (record : r.record = a.record) (holdsGlobal : r.holdsGlobal = a.holdsGlobal)
    (settle : r.point = .settle) (lock : x.lock = .global a.globalLock)
    (owner : x.owner = a.thread) (patience : x.patience = .uninterruptible)
    (broke : a.Broke history r.outcome) (passed : a.Passed history now (a.drives = true) False)
    (stack : w.stack a.thread = .acquisition x :: .resuming r :: a.tail)
    (step : x.advance a.thread w = some effect) (le : now ≤ now') :
    a.After history w (.resuming r :: a.tail) now' effect := by
  have on (steady : ∀ message, effect.control ≠ .unwind message) :=
    broke.calm rfl stack step steady
  simp only [Acquisition.advance, Acquisition.took, patience] at step
  split at step
  · split at step
    · split at step <;> obtain rfl := Option.some.inj step
      · refine .resumes manager record holdsGlobal (on (by simp))
          (passed.on le .inl fun _ => .inr (by simp [lock, owner])) (by simp [settle])
      · exact .reacquires manager record holdsGlobal settle lock owner patience (on (by simp))
          (passed.on le .inl .inl)
    · simp at step
  all_goals contradiction

variable (a history) in
/-- The call ends by a step of the participant. -/
abbrev Over (w : World) (rest : List Frame) (now : Nat) (effect : Effect) : Prop :=
  a.Ends history now ⟨w, .run a.thread, effect.notes ++ effect.control.completion rest⟩
    (effect.world.setStack a.thread (effect.control.stack rest))

theorem replied_step {v : World} (broke : a.Broke history none)
    (passed : a.Passed history now (a.drives = true) (a.holdsGlobal = true))
    (drained : a.Drained history) {notes : List Note}
    (on : a.Broke (history ++
      [⟨w, .run a.thread, notes ++ (Control.reply .nothing).completion a.tail⟩]) none)
    (le : now ≤ now') :
    a.After history w a.tail now' ⟨v, .reply .nothing, notes⟩ ∨
      a.Over history w a.tail now ⟨v, .reply .nothing, notes⟩ := by
  cases drives : a.drives with
  | false =>
    have tail : a.tail = a.base := by simp [tail, drives]
    have value : a.value = .nothing := by simp [value, drives]
    refine .inr (.replies broke passed drained ?_)
    simp [tail, value]
  | true =>
    have tail : a.tail = .answer (.succeeded .nothing) :: a.base := by simp [tail, drives]
    left
    unfold After
    rw [tail] at on ⊢
    exact .answers drives on (passed.on le .inl .inl) drained.on

theorem resumes_step {r : Resuming} (manager : r.manager = a.manager) (record : r.record = a.record)
    (holdsGlobal : r.holdsGlobal = a.holdsGlobal) (broke : a.Broke history r.outcome)
    (passed : a.Passed history now (a.drives = true) (r.point ≠ .reacquire ∧ a.holdsGlobal = true))
    (drained : r.point = .drained → r.outcome = none ∧ a.Drained history)
    (lock : (w.manager a.manager).globalLock = a.globalLock)
    (stays : r.outcome ≠ none → a.record ≠ none → ∀ f, .foreign f ∈ a.base → f.added = false)
    (sound : Sound a.manager a.thread (.resuming r :: a.tail))
    (stack : w.stack a.thread = .resuming r :: a.tail)
    (step : r.advance a.thread w = some effect) (le : now ≤ now') :
    a.After history w a.tail now' effect ∨ a.Over history w a.tail now effect := by
  have on (steady : ∀ message, effect.control ≠ .unwind message) :=
    broke.calm rfl stack step steady
  have abstains : Moment.Abstains a.manager a.thread
      ⟨w, .run a.thread, effect.notes ++ effect.control.completion a.tail⟩ :=
    have step : (Frame.resuming r).advance a.thread w = some effect := step
    Moment.abstains_of_step stack step (Frame.abstains rfl step)
  have regained (point : r.point ≠ .reacquire) :
      a.Passed history now (a.drives = true) (a.holdsGlobal = true) := by
    obtain ⟨before, after, phase, parts, third, arrived, past, freed, regained⟩ := passed
    exact ⟨before, after, phase, parts, third, arrived, past, freed, fun holds => regained ⟨point, holds⟩⟩
  cases point : r.point with
  | reacquire =>
    simp only [Resuming.advance, point] at step
    split at step <;> rename_i holds <;> obtain rfl := Option.some.inj step
    · refine .inl (.reacquires manager record holdsGlobal rfl ?_ rfl rfl (on (by simp))
        (passed.on le .inl (by simp)))
      rw [manager, lock]
      rfl
    · refine .inl (.resumes manager record holdsGlobal (on (by simp)) (passed.on le .inl ?_) (by simp))
      intro regain
      exact absurd (holdsGlobal.trans regain.2) holds
  | settle =>
    have passed := regained (by simp [point])
    simp only [Resuming.advance, point] at step
    split at step
    · rename_i message outcome
      obtain rfl := Option.some.inj step
      rw [outcome] at broke
      have out : Frame.unwind message a.tail = [] := by
        refine sound.tail.unwind_out sound.1.2 sound.2.1 rfl fun f mem => stays (by simp [outcome]) broke.1 f ?_
        unfold tail at mem
        split at mem
        · simpa using mem
        · exact mem
      refine .inr (.unwinds broke passed abstains ?_ ?_)
      · simp [Control.stack, out]
      · simp [Control.completion, out]
    · rename_i outcome unbound
      obtain rfl := Option.some.inj step
      rw [outcome] at broke on
      exact replied_step broke passed (by simp [Drained, ← record, unbound]) (on (by simp)) le
    · rename_i bound outcome found
      obtain rfl := Option.some.inj step
      rw [outcome] at broke on
      left
      unfold After
      show a.Attends _ now' ([] ++ .drain { record := bound } :: _ :: a.tail)
      exact .drains manager record holdsGlobal rfl (record.symm.trans found) outcome (on (by simp))
        (passed.on le .inl .inl) (by simp)
  | drained =>
    obtain ⟨outcome, drained⟩ := drained point
    simp only [Resuming.advance, point] at step
    obtain rfl := Option.some.inj step
    rw [outcome] at broke on
    exact replied_step broke (regained (by simp [point])) drained (on (by simp)) le

theorem drains_step {above : List Frame} {d : Drain} {r : Resuming}
    (manager : r.manager = a.manager) (record : r.record = a.record)
    (holdsGlobal : r.holdsGlobal = a.holdsGlobal) (drains : r.point = .drained)
    (bound : a.record = some d.record) (calm : r.outcome = none) (broke : a.Broke history none)
    (passed : a.Passed history now (a.drives = true) (a.holdsGlobal = true))
    (took : above ≠ [] ∨ d.point = .run → a.Drained history)
    (parts : above ++ .drain d :: .resuming r :: a.tail = frame :: rest)
    (steady : a.Drained history → rest.any (·.isDrain) = true → ∀ message,
      effect.control ≠ .unwind message)
    (stack : w.stack a.thread = frame :: rest)
    (step : frame.advance a.thread w = some effect) (le : now ≤ now') :
    a.After history w rest now' effect := by
  have on (steady : ∀ message, effect.control ≠ .unwind message) :
      a.Broke (history ++
        [⟨w, .run a.thread, effect.notes ++ effect.control.completion rest⟩]) none :=
    broke.on (fun message breaks => steady message (breaks.unwinding stack step).1)
      fun unwound => absurd rfl unwound
  cases above with
  | nil =>
    obtain ⟨rfl, rfl⟩ := List.cons.inj parts
    simp only [Frame.advance, Drain.advance] at step
    unfold After
    split at step
    · obtain rfl := Option.some.inj step
      show a.Attends _ now' ([] ++ .drain _ :: .resuming r :: a.tail)
      refine .drains manager record holdsGlobal drains bound calm (on (by simp))
        (passed.on le .inl .inl) fun _ other same => ?_
      obtain rfl := Option.some.inj (bound.symm.trans same)
      exact ⟨(w.record d.record).deferred.length, by simp⟩
    · rename_i run queue
      obtain rfl := Option.some.inj step
      exact .resumes manager record holdsGlobal (calm ▸ on (by simp))
        (passed.on le .inl fun regain => .inl regain.2) fun _ => ⟨calm, (took (.inr run)).on⟩
    · rename_i action later run queue
      obtain rfl := Option.some.inj step
      show a.Attends _ now' ([_] ++ .drain _ :: .resuming r :: a.tail)
      exact .drains manager record holdsGlobal drains bound calm (on (by simp))
        (passed.on le .inl .inl) fun _ => (took (.inr run)).on
  | cons top above =>
    simp only [List.cons_append, List.cons.injEq] at parts
    obtain ⟨rfl, rfl⟩ := parts
    have drained := took (.inl (by simp))
    have steady := steady drained (by simp [Frame.isDrain])
    have kept := on steady
    have again (above' : List Frame) : a.Attends (history ++ [⟨w, .run a.thread, effect.notes ++
        effect.control.completion (above ++ .drain d :: .resuming r :: a.tail)⟩]) now'
        (above' ++ .drain d :: .resuming r :: a.tail) :=
      .drains manager record holdsGlobal drains bound calm kept (passed.on le .inl .inl)
        fun _ => drained.on
    unfold After
    obtain ⟨above', same⟩ | ⟨rfl, value, -, same⟩ | ⟨message, unwinds, -⟩ :=
      effect.control.stack_append above (.drain d) (.resuming r :: a.tail)
    · rw [same]
      exact again above'
    · rw [same]
      exact again []
    · exact absurd unwinds (steady message)

theorem answers_step (drives : a.drives = true) (broke : a.Broke history none)
    (passed : a.Passed history now (a.drives = true) (a.holdsGlobal = true))
    (drained : a.Drained history)
    (step : (Frame.answer (.succeeded .nothing)).advance a.thread w = some effect) :
    a.Over history w a.base now effect := by
  obtain rfl := Option.some.inj step
  refine .replies broke passed drained ?_
  simp [value, drives]

end Steps

/-- A step of the participant takes the call on or ends it. -/
theorem Attends.own {notes : List Note}
    (attends : a.Attends history (w.core a.manager).phaser.phase (w.stack a.thread))
    (coherent : w.Coherent a.manager) (orderly : Orderly a.manager w a.thread)
    (steady : a.Drained history → w.DefersSteadily a.thread)
    (lock : (w.manager a.manager).globalLock = a.globalLock)
    (stays : a.HasBroken history → a.record ≠ none → ∀ f, .foreign f ∈ a.base → f.added = false)
    (moves : w.step a.thread = some (v, notes)) :
    a.Attends (history ++ [⟨w, .run a.thread, notes⟩]) (v.core a.manager).phaser.phase
        (v.stack a.thread) ∨
      a.Ends history (w.core a.manager).phaser.phase ⟨w, .run a.thread, notes⟩ v := by
  have le := coherent.phase_le (fun thread same => Move.run.inj same ▸ orderly)
    (show w.move (.run a.thread) = _ from moves)
  obtain ⟨frame, rest, effect, stack, step, rfl, rfl⟩ := World.step_eq_some moves
  have le : (w.core a.manager).phaser.phase ≤ (effect.world.core a.manager).phaser.phase := le
  have sound := coherent.sound a.thread
  have steady (drained : a.Drained history) (defers : rest.any (·.isDrain) = true) :
      ∀ message, effect.control ≠ .unwind message :=
    steady drained frame rest effect stack defers step
  suffices a.After history w rest (effect.world.core a.manager).phaser.phase effect ∨
      a.Over history w rest (w.core a.manager).phaser.phase effect by
    rw [World.stack_setStack, if_pos rfl]
    exact this
  generalize shape : w.stack a.thread = whole at attends
  have parts : whole = frame :: rest := shape.symm.trans stack
  rw [stack] at sound
  cases attends with
  | meets within broke passed =>
    obtain ⟨rfl, rfl⟩ := List.cons.inj parts
    exact .inl (meets_step within broke passed sound stack step le)
  | arrives within broke arrived =>
    obtain ⟨rfl, rfl⟩ := List.cons.inj parts
    exact .inl (arrives_step within broke arrived coherent stack step)
  | @acts above q joiner within calm broke third bound =>
    left
    cases above with
    | nil =>
      obtain ⟨rfl, rfl⟩ := List.cons.inj parts
      exact meets_step within (calm ▸ broke) (by simp [third]) sound stack step le
    | cons top above =>
      obtain ⟨rfl, rfl⟩ := List.cons.inj parts
      exact acts_step within calm broke third bound sound stack step
  | returns joins broke passed =>
    obtain ⟨rfl, rfl⟩ := List.cons.inj parts
    exact .inl (returns_step joins broke passed stack step le)
  | releases pause joins free broke passed =>
    obtain ⟨rfl, rfl⟩ := List.cons.inj parts
    exact .inl (releases_step pause joins free broke passed stack step le)
  | resumes manager record holdsGlobal broke passed drained =>
    obtain ⟨rfl, rfl⟩ := List.cons.inj parts
    exact resumes_step manager record holdsGlobal broke passed drained lock
      (fun unwound => stays (broke.hasBroken unwound)) sound stack step le
  | reacquires manager record holdsGlobal settle taken owner patience broke passed =>
    obtain ⟨rfl, rfl⟩ := List.cons.inj parts
    exact .inl (reacquires_step manager record holdsGlobal settle taken owner patience broke passed
      stack step le)
  | drains manager record holdsGlobal point bound calm broke passed took =>
    exact .inl (drains_step manager record holdsGlobal point bound calm broke passed took parts steady
      stack step le)
  | answers drives broke passed drained =>
    obtain ⟨rfl, rfl⟩ := List.cons.inj parts
    exact .inr (answers_step drives broke passed drained step)

/-- Any move takes the call on or ends it. -/
theorem Attends.move {move : Move} {notes : List Note}
    (attends : a.Attends history (w.core a.manager).phaser.phase (w.stack a.thread))
    (coherent : w.Coherent a.manager)
    (orderly : ∀ thread, move = .run thread → Orderly a.manager w thread)
    (steady : move = .run a.thread → a.Drained history → w.DefersSteadily a.thread)
    (lock : (w.manager a.manager).globalLock = a.globalLock)
    (stays : a.HasBroken history → a.record ≠ none → ∀ f, .foreign f ∈ a.base → f.added = false)
    (moves : w.move move = some (v, notes)) :
    a.Attends (history ++ [⟨w, move, notes⟩]) (v.core a.manager).phaser.phase (v.stack a.thread) ∨
      move = .run a.thread ∧
        a.Ends history (w.core a.manager).phaser.phase ⟨w, move, notes⟩ v := by
  by_cases runs : move = .run a.thread
  · subst runs
    exact (attends.own coherent (orderly _ rfl) (steady rfl) lock stays moves).imp_right
      fun ends => ⟨rfl, ends⟩
  · left
    have le := coherent.phase_le orderly moves
    have kept : a.Attends (history ++ [⟨w, move, notes⟩]) _ _ := attends.on le runs
    obtain ⟨-, same | ⟨op, idle, -⟩ | ⟨frame, frame', rest, before, after, rouses⟩⟩ :=
      World.move_other moves runs
    · exact same ▸ kept
    · have lt := base_lt_length attends
      simp [idle] at lt
    · rw [after]
      exact kept.rouse before rouses

/-- A call that has come to its end is off the stack. -/
theorem Ends.length_le (ends : a.Ends history now moment v) :
    (v.stack a.thread).length ≤ a.base.length := by
  cases ends with
  | unwinds broke passed abstains out told => simp [out]
  | replies broke passed drained stack =>
    rw [stack]
    exact Control.length_stack_le_reply _ _

end Attendance

/-- A call is attended as long as it is on the stack. -/
theorem Course.attendance {moments : List Moment}
    (course : Course (Contained a.manager) w moments v) (coherent : w.Coherent a.manager)
    (attends : a.Attends history (w.core a.manager).phaser.phase (w.stack a.thread))
    (lock : (w.manager a.manager).globalLock = a.globalLock)
    (stays : a.record ≠ none → ∀ f, .foreign f ∈ a.base → f.added = false)
    (within : ∀ moment ∈ moments, a.base.length < (moment.world.stack a.thread).length)
    (on : a.base.length < (v.stack a.thread).length) :
    a.Attends (history ++ moments) (v.core a.manager).phaser.phase (v.stack a.thread) := by
  induction course with
  | nil => simpa using attends
  | @snoc moments v u move notes before contained moves ih =>
    have attends := ih (fun moment mem => within moment (List.mem_append_left _ mem))
      (within ⟨v, move, notes⟩ (List.mem_append_right _ List.mem_cons_self))
    have reached := (before.orderly_of_contained coherent).coherent coherent
    have same : (v.manager a.manager).globalLock = a.globalLock :=
      before.globalLock_eq.trans lock
    rw [← List.append_assoc]
    obtain attends | ⟨-, ends⟩ := attends.move reached
      (fun thread runs => reached.orderly_of_contained (contained thread runs))
      (fun runs _ => (contained _ runs).defersSteadily) same (fun _ => stays) moves
    · exact attends
    · exact absurd on (Nat.not_lt.mpr ends.length_le)

end

end StopTheWorld
