import Mathlib.Algebra.Order.BigOperators.Group.List
import Mathlib.Algebra.Order.Ring.Nat
import StopTheWorld.Proofs.Setup

namespace StopTheWorld

/-! What the statistics of a manager come to, whatever is recorded and in whatever order. -/

namespace Statistics

/-- What is recorded at one time. -/
inductive Entry
  | pause (duration : Nat)
  | slowPoll
  deriving DecidableEq

/-- What an entry counts for if it is a pause. -/
def Entry.span? : Entry → Option Nat
  | pause duration => some (capped duration)
  | slowPoll => none

def record (statistics : Statistics) : Entry → Statistics
  | .pause duration => statistics.recordPause duration
  | .slowPoll => statistics.recordSlowPoll

/-- The statistics after these entries, of which the first one is recorded first. -/
def recordAll (statistics : Statistics) (entries : List Entry) : Statistics :=
  entries.foldl record statistics

/-- What the pauses among the entries count for. -/
def spans (entries : List Entry) : List Nat := entries.filterMap Entry.span?

/-- What can be read off statistics in which these entries have been recorded, and no others. -/
structure Agrees (entries : List Entry) (statistics : Statistics) : Prop where
  pauses : statistics.pauses = (spans entries).length
  slowPolls : statistics.slowPolls = entries.count .slowPoll
  /-- The longest pause, and nothing without any. -/
  longest : statistics.longest = (spans entries).max?.getD 0
  /-- The total is kept modulo the size of a word. -/
  total : statistics.total = (spans entries).sum % Duration.wordLimit
  /-- The average is rounded down, and is never cut. -/
  average : 0 < statistics.pauses →
    statistics.average * statistics.pauses ≤ statistics.total ∧
      statistics.total < (statistics.average + 1) * statistics.pauses
  uncut : statistics.average = statistics.total / statistics.pauses
  /-- So it is when the total has wrapped around. -/
  average_le : statistics.average ≤ statistics.longest
  longest_le : (spans entries).sum < Duration.wordLimit → statistics.longest ≤ statistics.total

section

variable {statistics : Statistics} {entry : Entry} {entries : List Entry}

theorem wordLimit_pos : 0 < Duration.wordLimit := by decide

@[simp] theorem recordAll_nil : statistics.recordAll [] = statistics := rfl

@[simp] theorem recordAll_cons :
    statistics.recordAll (entry :: entries) = (statistics.record entry).recordAll entries := rfl

theorem recordAll_append (first second : List Entry) :
    statistics.recordAll (first ++ second) = (statistics.recordAll first).recordAll second :=
  List.foldl_append ..

@[simp] theorem spans_nil : spans [] = [] := rfl

@[simp] theorem spans_pause (duration : Nat) :
    spans (.pause duration :: entries) = capped duration :: spans entries := rfl

@[simp] theorem spans_slowPoll : spans (.slowPoll :: entries) = spans entries := rfl

theorem recordAll_pauses :
    (statistics.recordAll entries).pauses = statistics.pauses + (spans entries).length := by
  induction entries generalizing statistics with
  | nil => rfl
  | cons entry entries ih =>
    rw [recordAll_cons, ih]
    cases entry with
    | pause duration =>
      simp only [record, recordPause_pauses, spans_pause, List.length_cons]
      omega
    | slowPoll => rfl

theorem recordAll_slowPolls :
    (statistics.recordAll entries).slowPolls =
      statistics.slowPolls + entries.count .slowPoll := by
  induction entries generalizing statistics with
  | nil => rfl
  | cons entry entries ih =>
    rw [recordAll_cons, ih]
    cases entry with
    | pause duration => simp [record]
    | slowPoll =>
      simp only [record, recordSlowPoll_slowPolls, List.count_cons_self]
      omega

theorem recordAll_longest :
    (statistics.recordAll entries).longest = (spans entries).foldl max statistics.longest := by
  induction entries generalizing statistics with
  | nil => rfl
  | cons entry entries ih =>
    rw [recordAll_cons, ih]
    cases entry <;> rfl

theorem recordAll_total (fits : statistics.total < Duration.wordLimit) :
    (statistics.recordAll entries).total =
      (statistics.total + (spans entries).sum) % Duration.wordLimit := by
  induction entries generalizing statistics with
  | nil => exact (Nat.mod_eq_of_lt fits).symm
  | cons entry entries ih =>
    rw [recordAll_cons]
    cases entry with
    | pause duration =>
      have wrapped : (statistics.record (.pause duration)).total =
          (statistics.total + capped duration) % Duration.wordLimit := rfl
      rw [ih (wrapped ▸ Nat.mod_lt _ wordLimit_pos), wrapped, Nat.mod_add_mod, spans_pause,
        List.sum_cons, Nat.add_assoc]
    | slowPoll => exact ih fits

/-- A sum is at most as much as its largest part as often as there are parts. -/
theorem sum_le_length_mul {parts : List Nat} {largest : Nat} (le : ∀ part ∈ parts, part ≤ largest) :
    parts.sum ≤ parts.length * largest := by
  simpa using List.sum_le_card_nsmul parts largest le

theorem le_max {parts : List Nat} {part : Nat} (mem : part ∈ parts) :
    part ≤ parts.max?.getD 0 := by
  cases largest : parts.max? with
  | none => simp [List.max?_eq_none_iff.mp largest] at mem
  | some value => exact (List.max?_eq_some_iff.mp largest).2 part mem

/-- The largest part is one of them, if there are any. -/
theorem max_le_sum (parts : List Nat) : parts.max?.getD 0 ≤ parts.sum := by
  cases largest : parts.max? with
  | none => exact Nat.zero_le _
  | some value => exact List.le_sum_of_mem (List.max?_eq_some_iff.mp largest).1

/-- Statistics in which nothing had been recorded before agree with what is recorded in them. -/
theorem recordAll_agrees (entries : List Entry) : Agrees entries (recordAll {} entries) := by
  have pauses : (recordAll {} entries).pauses = (spans entries).length :=
    recordAll_pauses.trans (Nat.zero_add _)
  have longest : (recordAll {} entries).longest = (spans entries).max?.getD 0 := by
    rw [recordAll_longest, List.foldl_max]
    exact Nat.zero_max _
  have total : (recordAll {} entries).total = (spans entries).sum % Duration.wordLimit := by
    rw [recordAll_total wordLimit_pos]
    exact congrArg (· % Duration.wordLimit) (Nat.zero_add _)
  have fits : (recordAll {} entries).total < Duration.wordLimit :=
    total ▸ Nat.mod_lt _ wordLimit_pos
  have uncut : (recordAll {} entries).average =
      (recordAll {} entries).total / (recordAll {} entries).pauses := by
    unfold average averageOf
    split
    · rename_i none
      rw [none, Nat.div_zero]
    · exact Nat.mod_eq_of_lt (Nat.lt_of_le_of_lt (Nat.div_le_self ..) fits)
  refine ⟨pauses, recordAll_slowPolls.trans (Nat.zero_add _), longest, total, fun some => ?_, uncut,
    ?_, fun short => ?_⟩
  · rw [uncut]
    exact ⟨Nat.div_mul_le_self .., Nat.lt_mul_of_div_lt (Nat.lt_succ_self _) some⟩
  · -- Wrapping around only makes the total smaller.
    have wrapped : (recordAll {} entries).total ≤ (spans entries).sum := total ▸ Nat.mod_le ..
    rw [uncut, longest]
    refine Nat.div_le_of_le_mul (wrapped.trans ?_)
    rw [pauses]
    exact sum_le_length_mul fun part mem => le_max mem
  · rw [longest, total, Nat.mod_eq_of_lt short]
    exact max_le_sum (spans entries)

/-- A pause that is too long for a word counts as much as a word can hold, and the next one makes the
total wrap around. -/
example : (recordAll {} [.pause (Nat.pow 2 80), .slowPoll, .pause 3]).total = 2 := by decide

end

end Statistics

/-- What a step from this frame records for the manager. -/
def Frame.records? (m : ManagerId) (now : Nat) : Frame → Option Statistics.Entry
  | polling p => if p.manager = m ∧ p.point = .count then some .slowPoll else none
  | pausing p =>
    if p.manager = m ∧ p.point = .account then some (.pause (now - p.started)) else none
  | _ => none

def Moment.records? (m : ManagerId) (moment : Moment) : Option Statistics.Entry :=
  match moment.move with
  | .run thread => (moment.world.stack thread).head?.bind (·.records? m moment.world.now)
  | _ => none

/-- What has been recorded for the manager. -/
def recorded (m : ManagerId) (moments : List Moment) : List Statistics.Entry :=
  moments.filterMap (·.records? m)

section

variable {w v : World} {self : ThreadId} {frame : Frame} {effect : Effect} {m : ManagerId}

namespace World

theorem statistics_modifyManager (n : ManagerId) {f : Manager → Manager}
    (keeps : ∀ manager, (f manager).statistics = manager.statistics) :
    ((w.modifyManager n f).manager m).statistics = (w.manager m).statistics := by
  rw [manager_modifyManager]
  split
  · rename_i same
    rw [keeps, same]
  · rfl

@[simp] theorem statistics_modifyLock (lock : LockRef) (f : OwnedLock → OwnedLock) :
    ((w.modifyLock lock f).manager m).statistics = (w.manager m).statistics := by
  rw [manager_modifyLock]
  split <;> rfl

@[simp] theorem statistics_modifyRegistry (registry : RegistryRef) (f : Registry → Registry) :
    ((w.modifyRegistry registry f).manager m).statistics = (w.manager m).statistics := by
  rw [manager_modifyRegistry]
  split <;> rfl

@[simp] theorem statistics_setPhaser (phaser : PhaserRef) (value : Phaser) :
    ((w.setPhaser phaser value).manager m).statistics = (w.manager m).statistics := by
  cases phaser with
  | registry registry => exact statistics_modifyRegistry registry _
  | loose phaser => rfl

theorem statistics_depart {phaser : PhaserRef} {phase : Nat} {notes : List Note}
    (departs : w.depart phaser = .ok (v, phase, notes)) :
    (v.manager m).statistics = (w.manager m).statistics := by
  unfold depart at departs
  dsimp only at departs
  split at departs
  · simp at departs
  · simp only [Except.ok.injEq, Prod.mk.injEq] at departs
    obtain ⟨rfl, -⟩ := departs
    exact statistics_setPhaser _ _

end World

theorem Polling.advance_statistics {p : Polling} (step : p.advance self w = some effect) :
    (effect.world.manager m).statistics =
      (w.manager m).statistics.recordAll ((Frame.polling p).records? m w.now).toList := by
  cases point : p.point <;> simp only [advance, point] at step
  case count =>
    obtain rfl := Option.some.inj step
    dsimp only
    by_cases own : p.manager = m
    · subst own
      simp [World.manager_modifyManager, Frame.records?, point, Statistics.record]
    · simp [World.manager_modifyManager, Frame.records?, own, Ne.symm own]
  case leaveGlobal =>
    obtain ⟨u, notes, leaves, rfl⟩ := World.leaves_of_bind step
    simp [World.manager_leaveGlobal leaves, Frame.records?, point]
  all_goals
    repeat' split at step
    all_goals
      obtain rfl := Option.some.inj step
      simp [Frame.records?, point]

theorem Pausing.advance_statistics {p : Pausing} (step : p.advance self w = some effect) :
    (effect.world.manager m).statistics =
      (w.manager m).statistics.recordAll ((Frame.pausing p).records? m w.now).toList := by
  cases point : p.point <;> simp only [advance, point] at step
  case account =>
    obtain rfl := Option.some.inj step
    dsimp only
    by_cases own : p.manager = m
    · subst own
      simp [World.manager_modifyManager, Frame.records?, point, Statistics.record]
    · simp [World.manager_modifyManager, Frame.records?, own, Ne.symm own]
  case leaveGlobal =>
    split at step
    · obtain ⟨u, notes, leaves, rfl⟩ := World.leaves_of_bind step
      simp [World.manager_leaveGlobal leaves, Frame.records?, point]
    · obtain rfl := Option.some.inj step
      simp [Frame.records?, point]
  all_goals
    have none : ((Frame.pausing p).records? m w.now).toList = [] := by simp [Frame.records?, point]
    rw [none, Statistics.recordAll_nil]
    repeat' split at step
    all_goals
      obtain rfl := Option.some.inj step
      first
        | rfl
        | exact World.statistics_modifyManager _ fun _ => rfl

/-- Only a poll that has found the epoch invalidated, and a driver at the end of its pause, record
anything. -/
theorem Frame.advance_statistics (step : frame.advance self w = some effect) :
    (effect.world.manager m).statistics =
      (w.manager m).statistics.recordAll (frame.records? m w.now).toList := by
  have checking {thread : ThreadId} {reply : Reply} {u : World}
      (checks : w.checkInterrupt thread = (u, reply)) :
      (u.manager m).statistics = (w.manager m).statistics := by
    have kept := World.manager_checkInterrupt (w := w) (m := m) thread
    rw [checks] at kept
    rw [kept]
  cases frame with
  | polling p => exact Polling.advance_statistics step
  | pausing p => exact Pausing.advance_statistics step
  | start op =>
    obtain ⟨bus, same⟩ := Op.advance_manager (m := m) step
    rw [same]
    rfl
  | _ =>
    simp only [advance, Acquisition.advance, Acquisition.took, Acquisition.gaveUp, Release.advance,
      OwnedLock.advanceNotify, Arrival.advance, Sleeping.advance, Parking.advance,
      Interruption.advance, Enrolment.advance, Withdrawal.advance, Visit.advance, Script.advance,
      Sequence.advance, Drain.advance, Phases.advance, Resuming.advance, Entering.advance,
      Leaving.advance, Foreign.advance, Acquiring.advance, Blocking.advance, Trial.advance] at step
    repeat' split at step
    all_goals first
      | (obtain rfl := Option.some.inj step
         first
           | rfl
           | exact World.statistics_modifyLock _ _
           | exact World.statistics_modifyRegistry _ _
           | exact World.statistics_setPhaser _ _
           | exact World.statistics_modifyManager _ fun _ => rfl
           | exact World.statistics_depart ‹_›
           | exact checking ‹_›
           | exact checking (Prod.eta _).symm)
      | (obtain ⟨v, notes, leaves, rfl⟩ := World.leaves_of_bind step
         exact congrArg Manager.statistics (World.manager_leaveGlobal leaves))
      | simp at step

theorem World.statistics_move {move : Move} {notes : List Note}
    (moves : w.move move = some (v, notes)) :
    (v.manager m).statistics =
      (w.manager m).statistics.recordAll ((⟨w, move, notes⟩ : Moment).records? m).toList := by
  cases move with
  | run thread =>
    obtain ⟨frame, rest, effect, stack, step, rfl, -⟩ := World.step_eq_some moves
    have records := Frame.advance_statistics (m := m) step
    simpa [Moment.records?, stack] using records
  | submit thread op =>
    obtain ⟨u, submit, same⟩ := Option.map_eq_some_iff.mp moves
    obtain ⟨rfl, rfl⟩ := Prod.mk.inj same
    unfold World.submit at submit
    split at submit
    · obtain rfl := Option.some.inj submit
      rfl
    · simp at submit
  | elapse span =>
    obtain ⟨rfl, rfl⟩ := Prod.mk.inj (Option.some.inj moves)
    rfl
  | rouse thread =>
    obtain ⟨rfl, rfl⟩ := Prod.mk.inj (Option.some.inj moves)
    unfold World.rouse
    split
    · exact World.statistics_modifyLock _ _
    · rfl
    · split <;> rfl
    · rfl

/-- The statistics of a manager come from what has been recorded, in the order of the moments. -/
theorem Course.statistics {custom : World → ThreadId → Prop} {moments : List Moment}
    (course : Course custom w moments v) :
    (v.manager m).statistics = (w.manager m).statistics.recordAll (recorded m moments) := by
  induction course with
  | nil => rfl
  | snoc before _ moves ih =>
    rw [World.statistics_move moves, ih, ← Statistics.recordAll_append, recorded, recorded,
      List.filterMap_append]
    congr 2

end

end StopTheWorld
