import StopTheWorld.Proofs.Adjourned
import StopTheWorld.Proofs.Conservation
import StopTheWorld.Proofs.PauseState

namespace StopTheWorld

/-! The order in which the participants of a pause come to it, and that in which they go on after each
of its phases, does not matter. -/

attribute [ext] Epoch Phaser Registry

/-- What the thread is told to do. -/
def Assembly.call (a : Assembly) (thread : ThreadId) : Op :=
  if thread = a.driver then .pauseWith a.manager false a.action else .pollFree a.manager

/-- All that are registered have been told what to do, and nobody has begun. -/
structure World.Gathered (a : Assembly) (w : World) : Prop where
  driver : a.driver ∈ (w.manager a.manager).registry.identities
  called : ∀ thread ∈ (w.manager a.manager).registry.identities,
    w.stack thread = [.start (a.call thread)]
  idle : ∀ thread, thread ∉ (w.manager a.manager).registry.identities → w.stack thread = []
  known : ∀ thread ∈ (w.manager a.manager).registry.identities, w.Owns (w.recordOf thread) thread
  /-- What is queued on the records of the members keeps to their threads, as the action does. -/
  queues : ∀ record, (w.record record).thread ∈ (w.manager a.manager).registry.identities →
    ∀ queued ∈ (w.record record).deferred, areLocal a.manager queued.script = true
  /-- Nobody is to be woken by code of its own when it is interrupted. -/
  callbacks : ∀ thread, thread ≠ a.driver → (w.interrupter thread).callback = none

/-- What is left of a pause is the same in both worlds. -/
structure World.SameOutcome (m : ManagerId) (w v : World) : Prop where
  registry : (v.manager m).registry = (w.manager m).registry
  epoch : (v.manager m).epoch = (w.manager m).epoch
  pauses : (v.manager m).statistics.pauses = (w.manager m).statistics.pauses
  slowPolls : (v.manager m).statistics.slowPolls = (w.manager m).statistics.slowPolls
  interrupters : v.interrupter = w.interrupter
  records : v.record = w.record

section

variable {a : Assembly} {w v : World} {moments : List Moment} {base : Nat}

theorem World.IsFresh.attended {m : ManagerId} (fresh : w.IsFresh m) : w.Attended (.pause m) := by
  constructor <;> simp [World.lock, fresh.new.pauseLock]

theorem World.IsFresh.isShort {m : ManagerId} (fresh : w.IsFresh m) :
    (w.core m).phaser.IsShort := by
  left
  simp [World.core, Manager.core, fresh.new.registry]

theorem Course.isShort {m : ManagerId} (course : Course (Orderly m) w moments v)
    (coherent : w.Coherent m) (short : (w.core m).phaser.IsShort) :
    (v.core m).phaser.IsShort :=
  (course.keeps (P := fun u => u.Coherent m ∧ (u.core m).phaser.IsShort)
    (fun kept orderly moves =>
      have ⟨coherent, turns⟩ := kept.1.move orderly moves
      ⟨coherent, turns.isShort kept.2⟩) ⟨coherent, short⟩).2

namespace World.Gathered

theorem partakes (gathered : w.Gathered a) (thread : ThreadId) :
    Partakes a thread (w.stack thread) := by
  by_cases here : thread ∈ (w.manager a.manager).registry.identities
  · rw [gathered.called thread here]
    refine ⟨.inr ⟨rfl, ?_⟩, rfl, trivial⟩
    unfold Assembly.call
    split
    · rename_i driver
      exact .inr ⟨driver, rfl⟩
    · exact .inl rfl
  · rw [gathered.idle thread here]
    trivial

theorem isAt (gathered : w.Gathered a) {check : Acquisition → Bool} (thread : ThreadId) :
    w.isAt (Frame.acquires check) thread = false := by
  unfold World.isAt
  by_cases here : thread ∈ (w.manager a.manager).registry.identities
  · rw [gathered.called thread here]
    rfl
  · rw [gathered.idle thread here]
    rfl

theorem assembled (gathered : w.Gathered a) (coherent : w.Coherent a.manager)
    (owned : w.IsOwned a.manager) (attended : w.Attended (.pause a.manager)) : w.Assembled a where
  coherent := coherent
  owned := owned
  known := gathered.known
  partakes := gathered.partakes
  guests thread busy := by
    by_contra absent
    exact busy (gathered.idle thread absent)
  queues := gathered.queues
  callbacks := gathered.callbacks
  vacant := by
    constructor
    · rw [Option.eq_none_iff_forall_ne_some]
      intro thread inside
      have within := attended.inside inside
      simp [gathered.isAt] at within
    · rw [List.eq_nil_iff_forall_not_mem]
      intro thread waits
      have before := attended.waiting waits
      simp [gathered.isAt] at before

theorem paced (gathered : w.Gathered a) (short : (w.core a.manager).phaser.IsShort) :
    w.Paced a (w.core a.manager).pauses where
  begun := Nat.le_refl _
  uncounted _ := rfl
  late thread here other := by
    left
    rw [gathered.called thread here, Assembly.call, if_neg other]
    exact .start
  short := short

end World.Gathered

theorem Course.paced (course : Course World.FindsPause w moments v)
    (unprompted : IsUnprompted moments) (assembled : w.Assembled a) (paced : w.Paced a base) :
    v.Assembled a ∧ v.Paced a base := by
  induction course with
  | nil => exact ⟨assembled, paced⟩
  | @snoc moments v u move notes before finds moves ih =>
    obtain ⟨assembled, paced⟩ := ih fun moment mem => unprompted moment (by simp [mem])
    by_cases runs : ∃ self, move = .run self
    · obtain ⟨self, rfl⟩ := runs
      exact ⟨(assembled.step moves).1, paced.step assembled (finds self rfl) moves⟩
    · have idle (self : ThreadId) : move ≠ .run self := fun same => runs ⟨self, same⟩
      have alone := unprompted ⟨v, move, notes⟩ (by simp)
      exact ⟨(assembled.idle idle alone moves).1, paced.idle assembled idle alone moves⟩

theorem World.Assembled.sameOutcome (first : w.Assembled a) (second : v.Assembled a)
    (idle : ∀ thread, w.stack thread = []) (idle' : ∀ thread, v.stack thread = [])
    (outlook : ∀ thread, v.outlook a thread = w.outlook a thread)
    (polls : (v.manager a.manager).statistics.slowPolls =
      (w.manager a.manager).statistics.slowPolls) : w.SameOutcome a.manager v := by
  have twins (thread : ThreadId) : World.Twins a thread w v := ⟨first, second, outlook thread⟩
  have command := (twins a.driver).command_eq rfl
  have pauses : (v.manager a.manager).statistics.pauses = (w.manager a.manager).statistics.pauses :=
    congrArg Command.pauses command
  have rests {x : World} (assembled : x.Assembled a) (idle : ∀ thread, x.stack thread = []) :
      (x.manager a.manager).AtRest := by
    refine assembled.coherent.atRest (assembled.free ?_)
    unfold World.posture
    rw [idle]
    rfl
  have before := rests first idle
  have after := rests second idle'
  have generation : (v.manager a.manager).epoch.generation = (w.manager a.manager).epoch.generation := by
    rw [← after.pauses, ← before.pauses, pauses]
  refine ⟨?_, ?_, pauses, polls, congrArg Command.interrupters command, ?_⟩
  · have phaser : (v.manager a.manager).registry.phaser = (w.manager a.manager).registry.phaser := by
      ext
      case parties => exact congrArg Outlook.parties (outlook a.driver)
      case arrived => rw [after.arrived, before.arrived]
      case phase => rw [after.phase, before.phase, generation]
    exact Registry.ext (twins a.driver).members_eq (congrArg Outlook.claimed (outlook a.driver))
      (congrArg Command.held command) phaser
  · exact Epoch.ext generation (after.valid.trans before.valid.symm)
  · funext record
    exact (twins _).record_eq rfl

/-- The participants of a pause may come to it in any order, and go on in any order after each of its
phases: all that is left of the pause when nobody can go on is the same, and so is what was observed of
each participant for itself, to the reply of its call. By then everybody's call has returned. -/
theorem pause_confluent {u v' : World} {past moments' : List Moment} (fresh : u.IsFresh a.manager)
    (reached : Course (Known a.manager) u past w) (gathered : w.Gathered a)
    (course : Course World.FindsPause w moments v) (unprompted : IsUnprompted moments)
    (ended : ∀ thread, v.step thread = none)
    (course' : Course World.FindsPause w moments' v') (unprompted' : IsUnprompted moments')
    (ended' : ∀ thread, v'.step thread = none) :
    (∀ thread, v.stack thread = [] ∧ v'.stack thread = []) ∧ v.SameOutcome a.manager v' ∧
      ∀ thread, ownLog thread (observations moments') = ownLog thread (observations moments) := by
  have coherent := reached.orderly.coherent fresh.coherent
  have assembled := gathered.assembled coherent
    (reached.isOwned_of_known fresh.coherent fresh.isOwned)
    (reached.attended fresh.isLaid fresh.attended)
  have paced := gathered.paced (reached.orderly.isShort fresh.coherent fresh.isShort)
  obtain ⟨first, paced₁⟩ := course.paced unprompted assembled paced
  obtain ⟨second, paced₂⟩ := course'.paced unprompted' assembled paced
  have idle := paced₁.returned first ended
  have idle' := paced₂.returned second ended'
  obtain ⟨-, polls, leads⟩ := course.leads unprompted assembled
  obtain ⟨-, polls', leads'⟩ := course'.leads unprompted' assembled
  have same (thread : ThreadId) := Stage.eq_of_idle (leads thread) (leads' thread)
    (by simp [World.stage, idle]) (by simp [World.stage, idle'])
  have logs (thread : ThreadId) :
      ownLog thread (observations moments') = ownLog thread (observations moments) :=
    (congrArg Stage.log (same thread)).symm
  refine ⟨fun thread => ⟨idle thread, idle' thread⟩, ?_, logs⟩
  refine first.sameOutcome second idle idle'
    (fun thread => (congrArg Stage.outlook (same thread)).symm) ?_
  rw [polls, polls', countP_eq_of_ownLog (fun note slow => ?_) logs]
  cases note <;> first | rfl | simp [Note.isSlowPoll] at slow

/-- The first of three threads pauses the others. Each logs, defers an action, and one panics. -/
def Assembly.ofThree : Assembly where
  manager := 0
  driver := 0
  action := [.log "a", .defer none "d" [.log "d"], .only [1] (.unwind "p")]
  isLocal := by decide

/-- All three register and are told what to do. -/
def gatheringThree : List Move :=
  Move.repeated [
    (1, .submit 0 (.enter 0)), (14, .run 0), (1, .submit 1 (.enter 0)), (14, .run 1),
    (1, .submit 2 (.enter 0)), (14, .run 2), (1, .submit 0 (Assembly.ofThree.call 0)),
    (1, .submit 1 (Assembly.ofThree.call 1)), (1, .submit 2 (Assembly.ofThree.call 2))]

/-- The others come to the pause in their order. -/
def inOrderOfThree : List Move :=
  Move.repeated [
    (30, .run 0), (7, .run 1), (7, .run 2), (4, .run 0), (3, .run 1), (2, .run 2), (12, .run 0),
    (12, .run 1), (11, .run 2), (21, .run 0), (5, .run 1), (12, .run 2)]

/-- The others come to the pause the other way round, and before its driver has done with
interrupting them. -/
def outOfOrderOfThree : List Move :=
  Move.repeated [
    (1, .run 2), (1, .run 1), (11, .run 0), (6, .run 2), (6, .run 1), (19, .run 0), (3, .run 2),
    (3, .run 1), (3, .run 0), (12, .run 2), (12, .run 1), (11, .run 0), (13, .run 2), (5, .run 1),
    (20, .run 0)]

/-- Decides whether a poll that looks at the epoch finds it invalidated. -/
def World.findsPause (w : World) (thread : ThreadId) : Bool :=
  match w.stack thread with
  | .polling p :: _ => p.point ≠ .check || !(w.manager p.manager).epoch.valid
  | _ => true

theorem World.findsPause_of_findsPause (w : World) (thread : ThreadId)
    (finds : w.findsPause thread = true) : w.FindsPause thread := by
  intro p rest stack check
  simpa [World.findsPause, stack, check] using finds

/-- Decides whether a thread has been told to drive the pause of three, or to poll. -/
def isCallOfThree (drives : Bool) : List Frame → Bool
  | [.start (.pauseWith manager false [.log a, .defer none d [.log e], .only [t] (.unwind p)])] =>
    drives && manager = 0 && a = "a" && d = "d" && e = "d" && t = 1 && p = "p"
  | [.start (.pollFree manager)] => !drives && manager = 0
  | _ => false

theorem isCallOfThree_iff {thread : ThreadId} {stack : List Frame}
    (called : isCallOfThree (thread = 0) stack = true) :
    stack = [.start (Assembly.ofThree.call thread)] := by
  unfold isCallOfThree at called
  split at called <;> simp_all [Assembly.call, Assembly.ofThree]

/-- Decides whether the three are gathered for their pause. -/
def World.isGatheredOfThree (w : World) : Bool :=
  w.threads.entries.map (·.1) = [0, 1, 2] && (w.manager 0).registry.identities = [0, 1, 2] &&
    [0, 1, 2].all (fun thread => isCallOfThree (thread = 0) (w.stack thread) &&
      w.recordOf thread < w.nextRecord && (w.record (w.recordOf thread)).thread = thread) &&
    w.records.entries.all (·.2.deferred.isEmpty) &&
    w.threads.entries.all (·.2.interrupter.callback.isNone)

theorem World.gathered_of_isGatheredOfThree (gathered : w.isGatheredOfThree = true) :
    w.Gathered .ofThree := by
  simp only [World.isGatheredOfThree, Bool.and_eq_true, decide_eq_true_eq, List.all_eq_true,
    List.isEmpty_iff, Option.isNone_iff_eq_none] at gathered
  obtain ⟨⟨⟨⟨threads, members⟩, calls⟩, queues⟩, callbacks⟩ := gathered
  have present {thread : ThreadId}
      (here : thread ∈ (w.manager Assembly.ofThree.manager).registry.identities) :
      thread ∈ [0, 1, 2] := members ▸ here
  refine ⟨?_, fun thread here => ?_, fun thread absent => ?_, fun thread here => ?_,
    fun record _ queued mem => ?_, fun thread _ => ?_⟩
  · show 0 ∈ (w.manager 0).registry.identities
    rw [members]
    simp
  · exact isCallOfThree_iff (calls thread (present here)).1.1
  · obtain mem | ⟨none, -⟩ := w.threads.get_cases thread
    · have known : thread ∈ w.threads.entries.map (·.1) := List.mem_map_of_mem mem
      rw [threads] at known
      exact absurd (members ▸ known : thread ∈ (w.manager 0).registry.identities) absent
    · show (w.threads.get thread).stack = []
      rw [none]
      rfl
  · exact ⟨(calls thread (present here)).1.2, (calls thread (present here)).2⟩
  · have empty : (w.record record).deferred = [] := by
      unfold World.record
      obtain mem | ⟨none, -⟩ := w.records.get_cases record
      · exact queues _ mem
      · rw [none]
        rfl
    simp [empty] at mem
  · unfold World.interrupter World.thread
    obtain mem | ⟨none, -⟩ := w.threads.get_cases thread
    · exact callbacks _ mem
    · rw [none]
      rfl

/-- Decides whether a run that nobody is prompted in ends with every call returned, when the threads
have joined the pause in this order. -/
def endsAfter (order : List ThreadId) (run : List Moment × World) : Bool :=
  run.1.all (fun moment => match moment.move with
    | .submit _ _ => false
    | _ => true) &&
  run.2.threads.entries.all (·.2.stack.isEmpty) &&
  ((observations run.1).filter (·.2.isJoining 0 false)).map (·.1) = order

theorem ended_of_endsAfter {order : List ThreadId} {run : List Moment × World}
    (ends : endsAfter order run = true) : IsUnprompted run.1 ∧ (∀ thread, run.2.step thread = none) ∧
      ((observations run.1).filter (·.2.isJoining 0 false)).map (·.1) = order := by
  simp only [endsAfter, Bool.and_eq_true, List.all_eq_true, List.isEmpty_iff,
    decide_eq_true_eq] at ends
  obtain ⟨⟨unprompted, idle⟩, joined⟩ := ends
  refine ⟨fun moment mem thread op submits => ?_, fun thread => ?_, joined⟩
  · have prompted := unprompted moment mem
    simp [submits] at prompted
  · have empty : (run.2.threads.get thread).stack = [] := by
      obtain mem | ⟨none, -⟩ := run.2.threads.get_cases thread
      · exact idle _ mem
      · rw [none]
        rfl
    simp [World.step, World.thread, empty]

theorem pause_confluent_ofThree : ∃ past w moments v moments' v', World.triple.IsFresh 0 ∧
    Course (Known 0) World.triple past w ∧ w.Gathered .ofThree ∧
    (Course World.FindsPause w moments v ∧ IsUnprompted moments ∧ (∀ thread, v.step thread = none) ∧
      ((observations moments).filter (·.2.isJoining 0 false)).map (·.1) = [1, 2]) ∧
    (Course World.FindsPause w moments' v' ∧ IsUnprompted moments' ∧
      (∀ thread, v'.step thread = none) ∧
      ((observations moments').filter (·.2.isJoining 0 false)).map (·.1) = [2, 1]) ∧
    v.SameOutcome 0 v' ∧
    ∀ thread, ownLog thread (observations moments') = ownLog thread (observations moments) := by
  have made : (World.triple.follow (World.isContained 0) gatheringThree).any (fun made =>
      made.2.isGatheredOfThree &&
        (made.2.follow World.findsPause inOrderOfThree).any (endsAfter [1, 2]) &&
        (made.2.follow World.findsPause outOfOrderOfThree).any (endsAfter [2, 1])) = true := by
    decide +kernel
  obtain ⟨⟨past, w⟩, follows, state⟩ := (Option.any_eq_true _ _).mp made
  simp only [Bool.and_eq_true, Option.any_eq_true] at state
  obtain ⟨⟨gathered, ⟨moments, v⟩, run, ends⟩, ⟨moments', v'⟩, run', ends'⟩ := state
  have fresh : World.triple.IsFresh 0 := World.initial_isFresh ⟨rfl, rfl, rfl, rfl, rfl⟩
  have reached : Course (Known 0) World.triple past w :=
    (World.course_of_follow (World.contained_of_isContained 0) follows).known fresh.coherent
      fun coherent contained => coherent.known contained
  have gathered := World.gathered_of_isGatheredOfThree gathered
  have course := World.course_of_follow World.findsPause_of_findsPause run
  have course' := World.course_of_follow World.findsPause_of_findsPause run'
  obtain ⟨unprompted, ended, joined⟩ := ended_of_endsAfter ends
  obtain ⟨unprompted', ended', joined'⟩ := ended_of_endsAfter ends'
  obtain ⟨-, outcome, logs⟩ :=
    pause_confluent fresh reached gathered course unprompted ended course' unprompted' ended'
  exact ⟨past, w, moments, v, moments', v', fresh, reached, gathered,
    ⟨course, unprompted, ended, joined⟩, ⟨course', unprompted', ended', joined'⟩, outcome, logs⟩

end

end StopTheWorld
