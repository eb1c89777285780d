import StopTheWorld.Proofs.Assembly
import StopTheWorld.Proofs.Interrupts

namespace StopTheWorld

/-! What a participant of a pause can see of the world beside its own stack, and what the steps of the
participants make of it. -/

/-- What the driver of a pause alone changes and alone looks at. -/
@[ext]
structure Command where
  pauses : Nat
  held : List ThreadId
  interrupters : ThreadId → Interrupter Wake

@[ext]
structure Outlook where
  inPause : Bool
  record : RecordId
  /-- The records of the thread. -/
  records : RecordId → Option (Record Deferred)
  members : List Registration
  claimed : List ThreadId
  parties : Nat
  settings : Settings
  globalOwner : Option ThreadId
  command : Option Command

def World.command (m : ManagerId) (w : World) : Command where
  pauses := (w.manager m).statistics.pauses
  held := (w.manager m).registry.held
  interrupters := w.interrupter

def World.outlook (a : Assembly) (w : World) (self : ThreadId) : Outlook where
  inPause := (w.thread self).inPause
  record := w.recordOf self
  records record := if (w.record record).thread = self then some (w.record record) else none
  members := (w.manager a.manager).registry.members
  claimed := (w.manager a.manager).registry.claimed
  parties := (w.manager a.manager).registry.phaser.parties
  settings := (w.manager a.manager).settings
  globalOwner := w.globalOwner
  command := if self = a.driver then some (w.command a.manager) else none

/-- What a step of a participant changes of what participants can see. -/
inductive Touch
  | nothing
  /-- One slow poll more, which nobody looks at. -/
  | poll
  | mark (inPause : Bool)
  | defer (record : RecordId) (action : Deferred)
  | drain (record : RecordId)
  -- What only the driver does.
  | hold (identity : ThreadId)
  | release (identity : ThreadId)
  | raise (target : ThreadId)
  | unpark (target : ThreadId)
  | install (callback : Option Wake)
  | account

namespace Touch

def marks (inPause : Bool) : Touch → Bool
  | mark inPause => inPause
  | _ => inPause

def books (record : RecordId) (value : Record Deferred) : Touch → Record Deferred
  | defer own action => if record = own then value.defer action else value
  | drain own => if record = own then value.drained else value
  | _ => value

def orders (self : ThreadId) (command : Command) : Touch → Command
  | hold identity => { command with held := identity :: command.held }
  | release identity => { command with held := command.held.erase identity }
  | raise target =>
    { command with
      interrupters := fun thread =>
        if thread = target then (command.interrupters target).raise
        else command.interrupters thread }
  | unpark target =>
    { command with
      interrupters := fun thread =>
        if thread = target then (command.interrupters target).unpark
        else command.interrupters thread }
  | install callback =>
    { command with
      interrupters := fun thread =>
        if thread = self then (command.interrupters self).install callback
        else command.interrupters thread }
  | account => { command with pauses := command.pauses + 1 }
  | _ => command

def polls : Touch → Nat
  | poll => 1
  | _ => 0

/-- What the thread that takes the step sees afterwards. -/
def on (self : ThreadId) (outlook : Outlook) (touch : Touch) : Outlook :=
  { outlook with
    inPause := touch.marks outlook.inPause
    records := fun record => (outlook.records record).map (touch.books record)
    command := outlook.command.map (touch.orders self) }

end Touch

/-- Nobody is inside the critical section of the lock, nor waits for it. -/
structure OwnedLock.IsVacant (lock : OwnedLock) : Prop where
  inside : lock.inside = none
  waiting : lock.waiting = []

namespace OwnedLock.IsVacant

variable {lock : OwnedLock}

theorem take (vacant : lock.IsVacant) (owner : ThreadId) : (lock.take owner).IsVacant :=
  ⟨vacant.inside, vacant.waiting⟩

theorem clear (vacant : lock.IsVacant) : lock.clear.IsVacant := ⟨vacant.inside, vacant.waiting⟩

theorem notify (vacant : lock.IsVacant) : lock.notify.IsVacant := ⟨vacant.inside, rfl⟩

theorem rouse (vacant : lock.IsVacant) (thread : ThreadId) : (lock.rouse thread).IsVacant :=
  ⟨vacant.inside, by simp [OwnedLock.rouse, vacant.waiting]⟩

end OwnedLock.IsVacant

/-- The step of a participant from one world to the other changes this, and what the participant alone
can see. -/
structure Touch.Makes (a : Assembly) (thread : ThreadId) (touch : Touch) (w v : World) : Prop where
  own : v.outlook a thread = touch.on thread (w.outlook a thread)
  others : ∀ other, other ≠ thread → v.outlook a other = w.outlook a other
  polls : (v.manager a.manager).statistics.slowPolls =
    (w.manager a.manager).statistics.slowPolls + touch.polls
  vacant : (w.manager a.manager).pauseLock.IsVacant → (v.manager a.manager).pauseLock.IsVacant

section

variable {a : Assembly} {self : ThreadId} {w v u : World}

/-- A manager whose participants notice no difference. -/
structure Manager.Resembles (after before : Manager) : Prop where
  members : after.registry.members = before.registry.members
  claimed : after.registry.claimed = before.registry.claimed
  parties : after.registry.phaser.parties = before.registry.phaser.parties
  settings : after.settings = before.settings

theorem World.outlook_modifyManager {f : Manager → Manager}
    (resembles : (f (w.manager a.manager)).Resembles (w.manager a.manager)) (thread : ThreadId) :
    (w.modifyManager a.manager f).outlook a thread =
      { w.outlook a thread with
        command := if thread = a.driver then
          some
            { w.command a.manager with
              pauses := (f (w.manager a.manager)).statistics.pauses
              held := (f (w.manager a.manager)).registry.held }
          else none } := by
  have same : (w.modifyManager a.manager f).manager a.manager = f (w.manager a.manager) := by
    simp [World.manager_modifyManager]
  unfold World.outlook World.command
  rw [same, resembles.members, resembles.claimed, resembles.parties, resembles.settings]
  rfl

theorem World.outlook_setInPause (w : World) (target : ThreadId) (inPause : Bool)
    (thread : ThreadId) :
    (w.setInPause target inPause).outlook a thread =
      { w.outlook a thread with
        inPause := if thread = target then inPause else (w.thread thread).inPause } := by
  have interrupters : (w.setInPause target inPause).interrupter = w.interrupter := by
    funext other
    simp
  ext1
  case inPause =>
    simp only [World.outlook, World.thread_setInPause]
    split <;> rfl
  case record =>
    simp only [World.outlook, World.recordOf, World.thread_setInPause]
    split
    · rename_i same
      rw [same]
    · rfl
  case command =>
    simp only [World.outlook, World.command, interrupters]
    rfl
  all_goals rfl

theorem World.outlook_modifyInterrupter (w : World) (target : ThreadId)
    (f : Interrupter Wake → Interrupter Wake) (thread : ThreadId) :
    (w.modifyInterrupter target f).outlook a thread =
      { w.outlook a thread with
        command := if thread = a.driver then
          some
            { w.command a.manager with
              interrupters := fun other =>
                if other = target then f (w.interrupter target) else w.interrupter other }
          else none } := by
  have interrupters : (w.modifyInterrupter target f).interrupter = fun other =>
      if other = target then f (w.interrupter target) else w.interrupter other := by
    funext other
    exact World.interrupter_modifyInterrupter ..
  ext1
  case inPause | record =>
    simp only [World.outlook, World.recordOf, World.modifyInterrupter, World.thread_modifyThread]
    split
    · rename_i same
      rw [same]
    · rfl
  case command =>
    simp only [World.outlook, World.command, interrupters]
    rfl
  all_goals rfl

theorem World.outlook_modifyRecord {record : RecordId} {f : Record Deferred → Record Deferred}
    (keeps : (f (w.record record)).thread = (w.record record).thread) (thread : ThreadId) :
    (w.modifyRecord record f).outlook a thread =
      { w.outlook a thread with
        records := fun other => ((w.outlook a thread).records other).map fun value =>
          if other = record then f value else value } := by
  ext1
  case records =>
    funext other
    simp only [World.outlook, World.record_modifyRecord]
    by_cases same : other = record
    · subst same
      by_cases own : (w.record other).thread = thread <;> simp [keeps, own]
    · simp [same]
  all_goals rfl

namespace Touch

@[simp] theorem on_nothing (outlook : Outlook) : nothing.on self outlook = outlook := by
  ext1 <;> simp [on, marks, books, orders]

@[simp] theorem on_poll (outlook : Outlook) : poll.on self outlook = outlook := by
  ext1 <;> simp [on, marks, books, orders]

end Touch

namespace Touch.Makes

variable {touch : Touch}

theorem refl (w : World) : Touch.nothing.Makes a self w w :=
  ⟨by simp, fun _ _ => rfl, rfl, id⟩

theorem modifyManager {f : Manager → Manager}
    (resembles : (f (w.manager a.manager)).Resembles (w.manager a.manager))
    (own : touch.on self (w.outlook a self) =
      { w.outlook a self with command := (w.outlook a self).command.map (touch.orders self) })
    (orders : touch.orders self (w.command a.manager) =
      { w.command a.manager with
        pauses := (f (w.manager a.manager)).statistics.pauses
        held := (f (w.manager a.manager)).registry.held })
    (idle : self ≠ a.driver → touch.orders self (w.command a.manager) = w.command a.manager)
    (polls : (f (w.manager a.manager)).statistics.slowPolls =
      (w.manager a.manager).statistics.slowPolls + touch.polls)
    (vacant : (w.manager a.manager).pauseLock.IsVacant →
      (f (w.manager a.manager)).pauseLock.IsVacant) :
    touch.Makes a self w (w.modifyManager a.manager f) where
  own := by
    rw [World.outlook_modifyManager resembles, own, ← orders]
    unfold World.outlook
    split <;> rfl
  others other ne := by
    rw [World.outlook_modifyManager resembles, ← orders]
    unfold World.outlook
    split
    · rename_i driver
      rw [idle (driver ▸ ne.symm)]
    · rfl
  polls := by rw [World.manager_modifyManager, if_pos rfl, polls]
  vacant := by rwa [World.manager_modifyManager, if_pos rfl]

/-- The epoch, the action, the pause lock, the counts of the phaser and the events of a manager are
none of its participants' business. -/
theorem unseen {f : Manager → Manager}
    (resembles : (f (w.manager a.manager)).Resembles (w.manager a.manager))
    (held : (f (w.manager a.manager)).registry.held = (w.manager a.manager).registry.held)
    (statistics : (f (w.manager a.manager)).statistics = (w.manager a.manager).statistics)
    (vacant : (w.manager a.manager).pauseLock.IsVacant →
      (f (w.manager a.manager)).pauseLock.IsVacant) :
    nothing.Makes a self w (w.modifyManager a.manager f) := by
  refine modifyManager resembles (by simp [orders]) ?_ (fun _ => rfl) (by rw [statistics]; rfl)
    vacant
  rw [held, statistics]
  rfl

theorem modifyLock (w : World) {f : OwnedLock → OwnedLock}
    (vacant : ∀ lock : OwnedLock, lock.IsVacant → (f lock).IsVacant) :
    nothing.Makes a self w (w.modifyLock (.pause a.manager) f) :=
  unseen ⟨rfl, rfl, rfl, rfl⟩ rfl rfl (vacant _)

theorem publish (w : World) (event : Event) :
    nothing.Makes a self w (w.publish a.manager event) :=
  unseen ⟨rfl, rfl, rfl, rfl⟩ rfl rfl id

theorem poll (w : World) : poll.Makes a self w (w.modifyManager a.manager fun manager =>
    { manager with statistics := manager.statistics.recordSlowPoll }) :=
  modifyManager ⟨rfl, rfl, rfl, rfl⟩ (by simp [orders]) rfl (fun _ => rfl) rfl id

theorem hold (w : World) (identity : ThreadId) : (hold identity).Makes a a.driver w
    (w.modifyRegistry (.manager a.manager) (·.hold identity)) :=
  modifyManager ⟨rfl, rfl, rfl, rfl⟩ (by ext1 <;> simp [on, marks, books]) rfl
    (absurd rfl) rfl id

theorem release (w : World) (identity : ThreadId) : (release identity).Makes a a.driver w
    (w.modifyRegistry (.manager a.manager) (·.release identity)) :=
  modifyManager ⟨rfl, rfl, rfl, rfl⟩ (by ext1 <;> simp [on, marks, books]) rfl
    (absurd rfl) rfl id

theorem account (w : World) (duration : Nat) : account.Makes a a.driver w
    (w.modifyManager a.manager fun manager =>
      { manager with statistics := manager.statistics.recordPause duration }) :=
  modifyManager ⟨rfl, rfl, rfl, rfl⟩ (by ext1 <;> simp [on, marks, books]) rfl
    (absurd rfl) rfl id

theorem mark (w : World) (inPause : Bool) :
    (mark inPause).Makes a self w (w.setInPause self inPause) where
  own := by
    rw [World.outlook_setInPause, if_pos rfl]
    ext1 <;> simp [on, marks, books, orders]
  others other ne := by rw [World.outlook_setInPause, if_neg ne]; rfl
  polls := rfl
  vacant := id

theorem modifyInterrupter {target : ThreadId} {f : Interrupter Wake → Interrupter Wake}
    (own : touch.on a.driver (w.outlook a a.driver) =
      { w.outlook a a.driver with
        command := (w.outlook a a.driver).command.map (touch.orders a.driver) })
    (orders : touch.orders a.driver (w.command a.manager) =
      { w.command a.manager with
        interrupters := fun thread =>
          if thread = target then f (w.interrupter target) else w.interrupter thread })
    (polls : touch.polls = 0) :
    touch.Makes a a.driver w (w.modifyInterrupter target f) where
  own := by
    rw [World.outlook_modifyInterrupter, own, ← orders]
    simp [World.outlook]
  others other ne := by
    rw [World.outlook_modifyInterrupter, if_neg ne]
    simp [World.outlook, ne]
  polls := by rw [polls]; rfl
  vacant := id

theorem raise (w : World) (target : ThreadId) :
    (raise target).Makes a a.driver w (w.modifyInterrupter target (·.raise)) :=
  modifyInterrupter (by ext1 <;> simp [on, marks, books]) rfl rfl

theorem unpark (w : World) (target : ThreadId) :
    (unpark target).Makes a a.driver w (w.modifyInterrupter target (·.unpark)) :=
  modifyInterrupter (by ext1 <;> simp [on, marks, books]) rfl rfl

theorem install (w : World) (callback : Option Wake) :
    (install callback).Makes a a.driver w (w.modifyInterrupter a.driver (·.install callback)) :=
  modifyInterrupter (by ext1 <;> simp [on, marks, books]) rfl rfl

theorem modifyRecord {record : RecordId} {f : Record Deferred → Record Deferred}
    (thread : (f (w.record record)).thread = (w.record record).thread)
    (owner : (w.record record).thread = self)
    (own : touch.on self (w.outlook a self) =
      { w.outlook a self with
        records := fun other => ((w.outlook a self).records other).map (touch.books other) })
    (books : ∀ other value, touch.books other value = if other = record then f value else value)
    (polls : touch.polls = 0) : touch.Makes a self w (w.modifyRecord record f) where
  own := by
    rw [World.outlook_modifyRecord thread, own]
    simp only [books]
  others other ne := by
    rw [World.outlook_modifyRecord thread]
    ext1
    case records =>
      funext own
      by_cases same : own = record
      · subst same
        simp [World.outlook, owner, ne.symm]
      · simp [same]
    all_goals rfl
  polls := by rw [polls]; rfl
  vacant := id

theorem defer {record : RecordId} (owner : (w.record record).thread = self) (tag : Tag)
    (script : List Op) : (defer record { tag := tag, script := script }).Makes a self w
      (w.defer record tag script) :=
  modifyRecord rfl owner (by ext1 <;> simp [on, marks, orders]) (fun _ _ => rfl) rfl

theorem drain {record : RecordId} (owner : (w.record record).thread = self) :
    (drain record).Makes a self w (w.modifyRecord record (·.drained)) :=
  modifyRecord rfl owner (by ext1 <;> simp [on, marks, orders]) (fun _ _ => rfl) rfl

section Reading

variable (makes : touch.Makes a self w v)
include makes

theorem members : (v.manager a.manager).registry.members = (w.manager a.manager).registry.members :=
  congrArg Outlook.members makes.own

theorem recordOf (thread : ThreadId) : v.recordOf thread = w.recordOf thread := by
  by_cases own : thread = self
  · subst own
    exact congrArg Outlook.record makes.own
  · exact congrArg Outlook.record (makes.others thread own)

theorem record (record : RecordId) :
    v.record record =
      if (w.record record).thread = self then touch.books record (w.record record)
      else w.record record := by
  have seen (thread : ThreadId) {value : Record Deferred}
      (there : (v.outlook a thread).records record = some value) : v.record record = value := by
    simp only [World.outlook] at there
    split at there
    · exact Option.some.inj there
    · simp at there
  split
  · rename_i own
    refine seen self ?_
    rw [makes.own]
    simp [on, World.outlook, own]
  · rename_i other
    refine seen (w.record record).thread ?_
    rw [makes.others _ other]
    simp [World.outlook]

theorem command : v.command a.manager =
    if self = a.driver then touch.orders self (w.command a.manager) else w.command a.manager := by
  have seen (outlook : Outlook) (same : v.outlook a a.driver = outlook) :
      some (v.command a.manager) = outlook.command := by
    rw [← same]
    simp [World.outlook]
  split
  · rename_i driver
    subst driver
    refine Option.some.inj ((seen _ makes.own).trans ?_)
    simp [on, World.outlook]
  · rename_i other
    refine Option.some.inj ((seen _ (makes.others _ (Ne.symm other))).trans ?_)
    simp [World.outlook]

end Reading

end Touch.Makes

end

end StopTheWorld
