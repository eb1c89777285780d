import Mathlib.Algebra.BigOperators.Group.Finset.Basic
import Mathlib.Algebra.BigOperators.Group.Finset.Piecewise
import StopTheWorld.Proofs.Appearances
import StopTheWorld.Proofs.EventLog
import StopTheWorld.Proofs.Tallies

namespace StopTheWorld

/-! Which polls of a manager are counted as slow. -/

/-- How far a poll has come that is the innermost procedure of the thread. -/
def pollPoint (m : ManagerId) : List Frame → Option Polling.Point
  | .polling p :: _ => if p.manager = m then some p.point else none
  | _ => none

/-- The poll has been counted, and has not come to the phases of a pause. -/
def Polling.Point.isCounted : Polling.Point → Bool
  | lookup | leaveGlobal | enterPhases => true
  | _ => false

/-- A poll by a thread that is not registered is about to be counted. -/
def owed (point : Option Polling.Point) (member : Bool) : Nat :=
  if point = some .count ∧ member = false then 1 else 0

/-- A poll by a thread that is registered has been counted, and its thread has not joined the pause. -/
def lacking (point : Option Polling.Point) (member : Bool) : Nat :=
  if point.any (·.isCounted) ∧ member = true then 1 else 0

def Moment.thread? (moment : Moment) : Option ThreadId :=
  match moment.move with
  | .run thread => some thread
  | _ => none

/-- The step is that of a poll that has come to the point. -/
def Moment.polls (m : ManagerId) (point : Polling.Point) (moment : Moment) : Bool :=
  moment.thread?.any fun thread => pollPoint m (moment.world.stack thread) = some point

/-- A poll finds the epoch invalidated, and its thread is not registered. -/
def Moment.isStray (m : ManagerId) (moment : Moment) : Bool :=
  moment.polls m .check && !(moment.world.manager m).epoch.valid &&
    moment.thread?.any fun thread => !moment.world.isMember m thread

/-- How many moments of this kind are of steps of the thread. -/
def countBy (thread : ThreadId) (check : Moment → Bool) (moments : List Moment) : Nat :=
  moments.countP fun moment => moment.thread? = some thread && check moment

section

variable {m : ManagerId} {self thread : ThreadId} {w v : World} {frame : Frame} {rest : List Frame}
  {effect : Effect} {notes : List Note} {moments : List Moment}

/-- A poll begins by looking at the epoch. -/
theorem Frame.begins_poll {p : Polling} (step : frame.advance self w = some effect)
    (other : ∀ q, frame ≠ .polling q) (top : effect.control.top? = some (.polling p)) :
    p.point = .check := by
  cases frame with
  | start op =>
    cases op with
    | access a =>
      obtain ⟨-, -, ⟨value, control⟩ | ⟨message, control⟩⟩ := a.agrees (m := p.manager) step <;>
        simp [control] at top
    | release n =>
      obtain ⟨_, -, replies⟩ := Option.bind_eq_some_iff.mp step
      obtain rfl := Option.some.inj replies
      simp at top
    | deferLookup | unlock =>
      simp only [advance, Op.advance] at step
      split at step <;> obtain rfl := Option.some.inj step <;> simp at top
    | _ =>
      obtain rfl := Option.some.inj step
      cases top <;> rfl
  | polling p => exact absurd rfl (other p)
  | _ =>
    simp only [advance, Acquisition.advance, Acquisition.took, Acquisition.gaveUp, Release.advance,
      OwnedLock.advanceNotify, Arrival.advance, Sleeping.advance, Parking.advance,
      Interruption.advance, Enrolment.advance, Withdrawal.advance, Visit.advance, Script.advance,
      Sequence.advance, Drain.advance, Phases.advance, Resuming.advance, Entering.advance,
      Leaving.advance, Pausing.advance, Foreign.advance, Acquiring.advance, Blocking.advance,
      Trial.advance] at step
    repeat' split at step
    all_goals first
      | (obtain rfl := Option.some.inj step
         cases top <;> rfl)
      | (obtain ⟨v, notes, leaves, rfl⟩ := World.leaves_of_bind step
         simp at top)
      | simp at step

theorem pollPoint_eq_some {stack : List Frame} {point : Polling.Point}
    (polls : pollPoint m stack = some point) :
    ∃ p rest, stack = .polling p :: rest ∧ p.point = point := by
  unfold pollPoint at polls
  split at polls
  · split at polls
    · exact ⟨_, _, rfl, Option.some.inj polls⟩
    · simp at polls
  · simp at polls

namespace Frame

/-- A poll goes on from its point, whatever it is told. -/
theorem polling_of_resume {p : Polling} {value : Reply} (resumes : frame.resume value = .polling p) :
    ∃ q, frame = .polling q ∧ p.point = q.point := by
  cases frame with
  | polling q =>
    refine ⟨q, rfl, ?_⟩
    cases value <;>
      · obtain rfl := polling.inj resumes
        rfl
  | foreign f =>
    simp only [resume] at resumes
    repeat' split at resumes
    all_goals simp at resumes
  | _ => cases value <;> simp [resume] at resumes

theorem unwind_ne_polling {p : Polling} {message : String} {below : List Frame}
    (rest : List Frame) : unwind message rest ≠ .polling p :: below := by
  induction rest with
  | nil => simp [unwind]
  | cons frame rest ih =>
    unfold unwind
    split
    · rename_i handler caught
      rintro ⟨⟩
      unfold catch? at caught
      repeat' split at caught
      all_goals simp at caught
    · exact ih

end Frame

namespace Sound

/-- Nothing stands on a poll that has not come to the phases. -/
theorem polling_below {p : Polling} (sound : Sound m self (frame :: .polling p :: rest)) :
    p.point = .exitPhases := by
  have stands : (Frame.polling p).Awaits m frame rest := sound.2.1
  cases frame <;> first | exact stands.1 | exact stands.elim

/-- A thread does not return into the middle of a poll. -/
theorem pollPoint_reply {value : Reply} {point : Polling.Point} (sound : Sound m self (frame :: rest))
    (polls : pollPoint m ((Control.reply value).stack rest) = some point) : point = .exitPhases := by
  obtain ⟨p, below, stack, rfl⟩ := pollPoint_eq_some polls
  cases rest with
  | nil => simp [Control.stack] at stack
  | cons parent rest =>
    obtain ⟨q, rfl, same⟩ := Frame.polling_of_resume (List.cons.inj stack).1
    exact same.trans sound.polling_below

/-- A step that is none of a poll does not take its thread into the middle of one. -/
theorem pollPoint_step {point : Polling.Point} (sound : Sound m self (frame :: rest))
    (step : frame.advance self w = some effect) (other : ∀ p, frame ≠ .polling p)
    (polls : pollPoint m (effect.control.stack rest) = some point) :
    point = .check ∨ point = .exitPhases := by
  cases control : effect.control with
  | reply value => exact .inr (sound.pollPoint_reply (control ▸ polls))
  | goto top | call top back =>
    obtain ⟨p, below, stack, rfl⟩ := pollPoint_eq_some polls
    rw [control] at stack
    obtain ⟨rfl, -⟩ := List.cons.inj stack
    exact .inl (Frame.begins_poll step other (by rw [control]; rfl))
  | unwind message =>
    obtain ⟨p, below, stack, rfl⟩ := pollPoint_eq_some polls
    rw [control] at stack
    exact absurd stack (Frame.unwind_ne_polling rest)

/-- A thread is called to a pause by a poll that it is in. -/
theorem polling_of_called {stack : List Frame} (sound : Sound m self stack)
    (called : posture m stack = .called) :
    ∃ p rest, stack = .polling p :: rest ∧ p.point.isCalled = true := by
  induction stack with
  | nil => simp at called
  | cons frame rest ih =>
    have place : posture m rest = .called ∨ ∃ p, frame = .polling p ∧ p.point.isCalled = true := by
      cases frame with
      | polling p =>
        simp only [posture_cons, Frame.posture] at called
        split at called
        · exact .inr ⟨p, rfl, ‹_›⟩
        · exact .inl called
      | phases | arrival =>
        simp only [posture_cons, Frame.posture] at called
        repeat' split at called
        all_goals first | exact .inl called | simp at called
      | pausing | entering | acquisition | release | enrolment | withdrawal =>
        simp only [posture_cons, Frame.posture] at called
        split at called <;> first | exact .inl called | simp at called
      | _ => exact .inl called
    obtain below | ⟨p, rfl, point⟩ := place
    · obtain ⟨p, under, rfl, point⟩ := ih sound.tail below
      simp [sound.polling_below, Polling.Point.isCalled] at point
    · exact ⟨p, rest, rfl, point⟩

end Sound

theorem settled {point : Option Polling.Point} {member : Bool}
    (away : ∀ at_, point = some at_ → at_ = .check ∨ at_ = .exitPhases) :
    owed point member = 0 ∧ lacking point member = 0 := by
  cases point with
  | none => simp [owed, lacking]
  | some point =>
    obtain rfl | rfl := away point rfl <;> simp [owed, lacking, Polling.Point.isCounted]

/-- A poll is counted when its thread is not registered and finds the epoch invalidated, or when it joins
a pause; until then it is owed to the one count, or lacking from the other. -/
theorem Polling.balance {p : Polling} {member : Bool} (sound : Sound m self (.polling p :: rest))
    (registered : w.isMember m self = member) (relies : p.point.relies = true → member = true)
    (step : p.advance self w = some effect) :
    effect.world.isMember m self = member ∧
      (if p.point = .count then 1 else 0) + owed (pollPoint m (effect.control.stack rest)) member +
          lacking (some p.point) member =
        (if p.point = .check ∧ (w.manager m).epoch.valid = false ∧ member = false then 1 else 0) +
          effect.notes.countP (·.isJoining m false) +
          lacking (pollPoint m (effect.control.stack rest)) member + owed (some p.point) member := by
  obtain rfl : p.manager = m := sound.1.1
  have returns (value : Reply) :
      owed (pollPoint p.manager ((Control.reply value).stack rest)) member = 0 ∧
        lacking (pollPoint p.manager ((Control.reply value).stack rest)) member = 0 :=
    settled fun _ polls => .inr (sound.pollPoint_reply polls)
  have counts : lacking (some Point.lookup) member + owed (some .count) member = 1 := by
    cases member <;> rfl
  cases point : p.point <;> simp only [advance, point] at step
  case check =>
    have none : lacking (some Point.check) member = 0 ∧ owed (some Point.check) member = 0 := ⟨rfl, rfl⟩
    have none' : lacking (some Point.count) member = 0 := rfl
    split at step <;> rename_i valid <;> obtain rfl := Option.some.inj step
    · refine ⟨registered, ?_⟩
      simp [returns, none, valid]
    · refine ⟨registered, ?_⟩
      cases member <;> simp [Control.stack, pollPoint, none, none', valid, owed]
  case count =>
    obtain rfl := Option.some.inj step
    refine ⟨(World.isMember_of_members ?_).trans registered, ?_⟩
    · simp [World.registry, World.manager_modifyManager]
    have none : lacking (some Point.count) member = 0 ∧ owed (some Point.lookup) member = 0 := ⟨rfl, rfl⟩
    simp [Control.stack, pollPoint, none, Note.isJoining, counts]
  case lookup =>
    have absent : owed (some Point.lookup) member = 0 := rfl
    split at step <;> rename_i found <;> obtain rfl := Option.some.inj step
    · obtain rfl : member = false := by
        rw [← registered]
        exact (Registry.contains_eq_isSome ..).trans (congrArg Option.isSome found)
      refine ⟨registered, ?_⟩
      simp [returns, absent, lacking, Note.isJoining]
    · refine ⟨registered, ?_⟩
      cases p.holdsGlobal <;>
        simp [Control.stack, pollPoint, Note.isJoining, owed, lacking, Point.isCounted]
  case leaveGlobal =>
    obtain ⟨u, notes, leaves, rfl⟩ := World.leaves_of_bind step
    obtain ⟨agrees, silent⟩ := World.Agrees.leaveGlobal (m := p.manager) leaves
    have quiet : notes.countP (·.isJoining p.manager false) = 0 :=
      List.countP_eq_zero.mpr fun note mem joins => by
        have none := silent note mem
        simp [Note.isJoining_iff.mp joins, Note.tellsOf] at none
    refine ⟨(World.isMember_of_members (congrArg Core.members agrees.core)).trans registered, ?_⟩
    simp [Control.stack, pollPoint, quiet, owed, lacking, Point.isCounted]
  case enterPhases =>
    obtain rfl := Option.some.inj step
    obtain rfl := relies (by rw [point]; rfl)
    refine ⟨registered, ?_⟩
    simp [Control.stack, pollPoint, Note.isJoining, owed, lacking, Point.isCounted]
  case exitPhases =>
    obtain rfl := Option.some.inj step
    refine ⟨registered, ?_⟩
    simp [Control.stack, pollPoint, Note.isJoining, owed, lacking, Point.isCounted]

theorem countBy_append (check : Moment → Bool) (first second : List Moment) :
    countBy thread check (first ++ second) = countBy thread check first + countBy thread check second :=
  List.countP_append

theorem countBy_run (check : Moment → Bool) :
    countBy self check [⟨w, .run self, notes⟩] = if check ⟨w, .run self, notes⟩ then 1 else 0 := by
  simp [countBy, Moment.thread?, List.countP_singleton]

theorem countBy_other {move : Move} (check : Moment → Bool) (other : move ≠ .run thread) :
    countBy thread check [⟨w, move, notes⟩] = 0 := by
  cases move with
  | run self =>
    have ne : self ≠ thread := fun same => other (same ▸ rfl)
    simp [countBy, Moment.thread?, ne]
  | _ => simp [countBy, Moment.thread?]

theorem joinings_append (first second : List (ThreadId × Note)) :
    joinings m thread (first ++ second) = joinings m thread first + joinings m thread second :=
  List.countP_append

theorem joinings_run : joinings m self (⟨w, .run self, notes⟩ : Moment).observed =
    notes.countP (·.isJoining m false) := by
  simp [joinings, List.countP_map, Function.comp_def]

theorem joinings_other {move : Move} (other : move ≠ .run thread) :
    joinings m thread (⟨w, move, notes⟩ : Moment).observed = 0 := by
  cases move with
  | run self =>
    have ne : self ≠ thread := fun same => other (same ▸ rfl)
    simp [joinings, List.countP_map, Function.comp_def, ne]
  | _ => rfl

theorem World.isMember_eq : w.isMember m thread = ((w.core m).lookup thread).isSome :=
  Registry.contains_eq_isSome ..

namespace World.Coherent

variable (coherent : w.Coherent m)

include coherent in
theorem isMember_of_relies {p : Polling} (stack : w.stack self = .polling p :: rest)
    (relies : p.point.relies = true) : w.isMember m self = true := by
  have bond : p.record ∈ bonds (w.stack self) := by
    rw [stack]
    simp [Frame.bond?, relies]
  obtain ⟨entry, found, -⟩ := coherent.bonded self p.record bond
  rw [isMember_eq, found]
  rfl

include coherent in
/-- Whoever comes to the phases of a pause of another thread has been in a poll. -/
theorem joins_by_poll (orderly : Orderly m w self) (step : w.step self = some (v, notes))
    (other : ∀ p rest, w.stack self ≠ .polling p :: rest) : notes.countP (·.isJoining m false) = 0 := by
  refine List.countP_eq_zero.mpr fun note mem joins => ?_
  obtain rfl := Note.isJoining_iff.mp joins
  obtain ⟨-, deed, moves, -, told⟩ := coherent.step_telling orderly step mem (by simp [Note.tellsOf])
  obtain rfl : deed = .join false := by
    cases deed with
    | join drives => simpa [Core.notes, eq_comm] using told
    | depart | arrive =>
      simp only [Core.notes] at told
      split at told <;> simp at told
    | _ => simp [Core.notes] at told
  have called : w.posture m self = .called := by
    have advances := moves.advances
    show (w.scene m).posture self = _
    generalize (w.scene m).posture self = before at advances
    generalize (v.scene m).posture self = after at advances
    cases advances
    rfl
  obtain ⟨p, rest, stack, -⟩ := (coherent.sound self).polling_of_called called
  exact other p rest stack

include coherent in
theorem balance {move : Move} (orderly : ∀ thread, move = .run thread → Orderly m w thread)
    (moves : w.move move = some (v, notes)) (thread : ThreadId) :
    countBy thread (·.polls m .count) [⟨w, move, notes⟩] +
          owed (pollPoint m (v.stack thread)) (v.isMember m thread) +
        lacking (pollPoint m (w.stack thread)) (w.isMember m thread) =
      countBy thread (·.isStray m) [⟨w, move, notes⟩] +
            joinings m thread (⟨w, move, notes⟩ : Moment).observed +
          lacking (pollPoint m (v.stack thread)) (v.isMember m thread) +
        owed (pollPoint m (w.stack thread)) (w.isMember m thread) := by
  by_cases own : move = .run thread
  · subst own
    rw [countBy_run, countBy_run, joinings_run]
    have sound := coherent.sound thread
    have relies {p : Polling} {rest : List Frame} (stack : w.stack thread = .polling p :: rest) :=
      coherent.isMember_of_relies stack
    have quiet := coherent.joins_by_poll (orderly thread rfl) moves
    obtain ⟨frame, rest, effect, stack, step, rfl, rfl⟩ := World.step_eq_some moves
    rw [stack_setStack, if_pos rfl, isMember_setStack]
    rw [stack] at sound
    by_cases poll : ∃ p, frame = .polling p
    · obtain ⟨p, rfl⟩ := poll
      obtain ⟨member, balance⟩ := Polling.balance sound rfl (relies stack) step
      have here : pollPoint m (.polling p :: rest) = some p.point := if_pos sound.1.1
      have silent : (effect.control.completion rest).countP (·.isJoining m false) = 0 :=
        List.countP_eq_zero.mpr fun note mem => by
          obtain ⟨value, rfl⟩ := Control.completed_of_mem mem
          simp [Note.isJoining]
      rw [member, List.countP_append, silent, stack, here]
      simpa [Moment.polls, Moment.isStray, Moment.thread?, stack, here, and_assoc] using balance
    · have other (p : Polling) : frame ≠ .polling p := fun same => poll ⟨p, same⟩
      have away : pollPoint m (frame :: rest) = none := by
        cases frame with
        | polling p => exact absurd rfl (other p)
        | _ => rfl
      have after : owed (pollPoint m (effect.control.stack rest)) (effect.world.isMember m thread) = 0 ∧
          lacking (pollPoint m (effect.control.stack rest)) (effect.world.isMember m thread) = 0 :=
        settled fun _ polls => sound.pollPoint_step step other polls
      have before : owed none (w.isMember m thread) = 0 ∧ lacking none (w.isMember m thread) = 0 :=
        settled (by simp)
      rw [quiet fun p _ same => other p (List.cons.inj (stack.symm.trans same)).1, stack, away]
      simp [after, before, Moment.polls, Moment.isStray, Moment.thread?, stack, away]
  · have member : v.isMember m thread = w.isMember m thread := by
      rw [isMember_eq, isMember_eq, coherent.lookup_other orderly moves own]
    have same : pollPoint m (v.stack thread) = pollPoint m (w.stack thread) := by
      obtain ⟨-, same | ⟨op, idle, told⟩ | ⟨frame, frame', rest, before, after, rouses⟩⟩ :=
        World.move_other moves own
      · rw [same]
      · rw [idle, told]
        rfl
      · rw [before, after]
        cases rouses <;> rfl
    rw [countBy_other _ own, countBy_other _ own, joinings_other own, member, same]
    omega

include coherent in
/-- Nobody is in the middle of a poll when nothing moves and the pause lock is free. -/
theorem settled_of_quiescent (quiescent : w.IsQuiescent) (free : (w.manager m).pauseLock.owner = none)
    (thread : ThreadId) : owed (pollPoint m (w.stack thread)) (w.isMember m thread) = 0 ∧
      lacking (pollPoint m (w.stack thread)) (w.isMember m thread) = 0 := by
  constructor
  · refine if_neg ?_
    rintro ⟨polls, -⟩
    obtain ⟨p, rest, stack, point⟩ := pollPoint_eq_some polls
    have stuck := advance_eq_none stack (quiescent thread)
    simp only [Frame.advance, Polling.advance, point] at stuck
    exact Option.some_ne_none _ stuck
  · refine if_neg ?_
    rintro ⟨counted, member⟩
    obtain ⟨point, polls, counted⟩ := (Option.any_eq_true _ _).mp counted
    obtain ⟨p, rest, stack, rfl⟩ := pollPoint_eq_some polls
    have called : (w.scene m).posture thread = .called := by
      have point : p.point.isCalled = true := by
        cases point : p.point <;> simp_all [Polling.Point.isCounted, Polling.Point.isCalled]
      show StopTheWorld.posture m (w.stack thread) = .called
      rw [stack]
      exact if_pos point
    have here : thread ∈ (w.core m).identities :=
      Core.lookup_isSome.mp (isMember_eq.symm.trans member)
    have stale := ((coherent.lawful.admits thread).called called here).1
    have rests : (w.core m).Rests := coherent.lawful.rests free
    exact Bool.false_ne_true (stale.symm.trans rests.valid)

end World.Coherent

theorem Course.balance (course : Course (Orderly m) w moments v) (coherent : w.Coherent m)
    (idle : ∀ thread, w.stack thread = []) (thread : ThreadId) :
    countBy thread (·.polls m .count) moments + owed (pollPoint m (v.stack thread)) (v.isMember m thread) =
      countBy thread (·.isStray m) moments + joinings m thread (observations moments) +
        lacking (pollPoint m (v.stack thread)) (v.isMember m thread) := by
  induction course with
  | nil => simp [idle, pollPoint, owed, lacking, countBy, joinings]
  | @snoc moments x y move notes before orderly moves ih =>
    have balance := (before.coherent coherent).balance orderly moves thread
    rw [countBy_append, countBy_append, observations_append, observations_cons, observations_nil,
      List.append_nil, joinings_append]
    omega

/-- What is counted can be counted thread by thread. -/
theorem countP_eq_sum {check : Moment → Bool} {threads : Finset ThreadId}
    (moved : ∀ moment ∈ moments, check moment = true →
      ∃ thread ∈ threads, moment.thread? = some thread) :
    moments.countP check = ∑ thread ∈ threads, countBy thread check moments := by
  induction moments with
  | nil => simp [countBy]
  | cons moment moments ih =>
    have rest := ih fun other mem => moved other (List.mem_cons_of_mem _ mem)
    have cons (thread : ThreadId) : countBy thread check (moment :: moments) =
        countBy thread check moments +
          if moment.thread? = some thread ∧ check moment = true then 1 else 0 := by
      simp [countBy, List.countP_cons]
    simp only [cons, Finset.sum_add_distrib, ← rest, List.countP_cons]
    congr 1
    by_cases checks : check moment = true
    · obtain ⟨thread, mem, runs⟩ := moved moment List.mem_cons_self checks
      simp [checks, runs, mem]
    · simp [checks]

theorem Moment.records?_eq_some {moment : Moment} :
    moment.records? m = some .slowPoll ↔ moment.polls m .count = true := by
  obtain ⟨world, move, notes⟩ := moment
  cases move with
  | run thread =>
    simp only [records?, polls, thread?, Option.any_some, decide_eq_true_eq]
    cases world.stack thread with
    | nil => simp [pollPoint]
    | cons frame rest =>
      cases frame with
      | polling p => simp [Frame.records?, pollPoint]
      | pausing p =>
        simp only [List.head?_cons, Option.bind_some, Frame.records?, pollPoint]
        split <;> simp
      | _ => simp [Frame.records?, pollPoint]
  | _ => simp [records?, polls, thread?]

theorem Course.slowPolls {custom : World → ThreadId → Prop} (course : Course custom w moments v)
    (fresh : w.IsFresh m) :
    (v.manager m).statistics.slowPolls = moments.countP (·.polls m .count) := by
  rw [course.statistics, fresh.new.statistics, Statistics.recordAll_slowPolls, recorded,
    List.count_filterMap]
  refine (Nat.zero_add _).trans (List.countP_congr fun moment _ => ?_)
  rw [beq_iff_eq, Moment.records?_eq_some]

theorem mem_movers {note : Note} (mem : (thread, note) ∈ observations moments) :
    thread ∈ (moments.filterMap Moment.thread?).toFinset := by
  obtain ⟨before, moment, after, rfl, -, observed⟩ := exists_first_observed mem
  have runs : moment.thread? = some thread := by
    rw [Moment.thread?, (Moment.mem_observed.mp observed).1]
  rw [List.mem_toFinset, List.mem_filterMap]
  exact ⟨moment, List.mem_append_right _ List.mem_cons_self, runs⟩

theorem Moment.exists_mover {check : Moment → Bool} (checks : ∀ moment, check moment = true →
      ∃ thread, moment.thread? = some thread) : ∀ moment ∈ moments, check moment = true →
        ∃ thread ∈ (moments.filterMap Moment.thread?).toFinset, moment.thread? = some thread := by
  intro moment mem passes
  obtain ⟨thread, runs⟩ := checks moment passes
  refine ⟨thread, ?_, runs⟩
  rw [List.mem_toFinset, List.mem_filterMap]
  exact ⟨moment, mem, runs⟩

theorem Moment.exists_of_polls {moment : Moment} {point : Polling.Point}
    (polls : moment.polls m point = true) : ∃ thread, moment.thread? = some thread := by
  obtain ⟨thread, runs, -⟩ := (Option.any_eq_true _ _).mp polls
  exact ⟨thread, runs⟩

theorem Moment.exists_of_isStray {moment : Moment} (stray : moment.isStray m = true) :
    ∃ thread, moment.thread? = some thread := by
  simp only [isStray, Bool.and_eq_true] at stray
  exact exists_of_polls stray.1.1

/-- Slow polls are those by which a thread has joined a pause that it goes through and does not drive,
once for each pause, and those of threads that are not registered. -/
theorem Course.slowPolls_eq (fresh : w.IsFresh m) (course : Course (Orderly m) w moments v)
    (quiescent : v.IsQuiescent) (free : (v.manager m).pauseLock.owner = none) :
    ∃ pairs : Finset (Nat × ThreadId),
      (∀ k thread, (k, thread) ∈ pairs ↔ GoesThrough m k thread (observations moments) ∧
        (thread, .invalidated m k) ∉ observations moments) ∧
      (v.manager m).statistics.slowPolls = pairs.card + moments.countP (·.isStray m) := by
  have coherent := course.coherent fresh.coherent
  choose pauses card mem using course.joinings_eq fresh free
  have slow (thread : ThreadId) : countBy thread (·.polls m .count) moments =
      (pauses thread).card + countBy thread (·.isStray m) moments := by
    have balance := course.balance fresh.coherent fresh.idle thread
    obtain ⟨owed, lacking⟩ := coherent.settled_of_quiescent quiescent free thread
    rw [owed, lacking, ← card] at balance
    omega
  let threads := (moments.filterMap Moment.thread?).toFinset
  refine ⟨threads.biUnion fun thread => pauses thread ×ˢ {thread}, fun k thread => ?_, ?_⟩
  · rw [Finset.mem_biUnion, ← mem]
    constructor
    · rintro ⟨other, -, here⟩
      obtain ⟨here, same⟩ := Finset.mem_product.mp here
      obtain rfl := Finset.mem_singleton.mp same
      exact here
    · intro here
      have goes := ((mem thread k).mp here).1 0 (by omega)
      exact ⟨thread, mem_movers goes, Finset.mem_product.mpr ⟨here, Finset.mem_singleton_self thread⟩⟩
  · have distinct : (threads : Set ThreadId).PairwiseDisjoint fun thread => pauses thread ×ˢ {thread} := by
      intro first _ second _ ne
      refine Finset.disjoint_left.mpr fun pair one two => ne ?_
      rw [← Finset.mem_singleton.mp (Finset.mem_product.mp one).2,
        Finset.mem_singleton.mp (Finset.mem_product.mp two).2]
    rw [course.slowPolls fresh, countP_eq_sum (Moment.exists_mover fun _ => Moment.exists_of_polls),
      Finset.sum_congr rfl fun thread _ => slow thread, Finset.sum_add_distrib,
      ← countP_eq_sum (Moment.exists_mover fun _ => Moment.exists_of_isStray),
      Finset.card_biUnion distinct]
    simp [threads]

/-- What comes of a step of a poll that has found the epoch valid, or whose thread is not registered. -/
inductive Moment.PassesBy (m : ManagerId) (thread : ThreadId) (p : Polling) (rest : List Frame)
    (moment : Moment) (next : World) : Prop
  | finds (point : p.point = .check) (stale : (moment.world.manager m).epoch.valid = false)
      (same : next = moment.world.setStack thread (.polling { p with point := .count } :: rest))
  | counts (point : p.point = .count)
      (same : next = (moment.world.modifyManager m fun manager =>
        { manager with statistics := manager.statistics.recordSlowPoll }).setStack thread
          (.polling { p with point := .lookup } :: rest))
  | returns (looks : p.point = .check ∧ (moment.world.manager m).epoch.valid = true ∨ p.point = .lookup)
      (same : next = moment.world.setStack thread ((Control.reply .nothing).stack rest))
      (replies : moment.Replies thread rest .nothing)

theorem World.Coherent.passes_by {p : Polling} (coherent : w.Coherent m)
    (step : w.step thread = some (v, notes)) (stack : w.stack thread = .polling p :: rest)
    (manager : p.manager = m)
    (idle : w.isMember m thread = false ∨ p.point = .check ∧ (w.manager m).epoch.valid = true) :
    (⟨w, .run thread, notes⟩ : Moment).PassesBy m thread p rest v := by
  have relies := coherent.isMember_of_relies stack
  obtain ⟨frame, below, effect, top, advance, rfl, rfl⟩ := World.step_eq_some step
  obtain ⟨rfl, rfl⟩ := List.cons.inj (top.symm.trans stack)
  subst manager
  have replies {value : Reply} (control : effect.control = .reply value) :
      (⟨w, .run thread, effect.notes ++ effect.control.completion below⟩ : Moment).Replies thread below
        value :=
    ⟨rfl, _, _, stack, advance, control⟩
  have absent (relying : p.point.relies = true) (check : p.point ≠ .check) : False := by
    obtain away | ⟨point, -⟩ := idle
    · exact Bool.false_ne_true (away.symm.trans (relies relying))
    · exact check point
  have advance' := advance
  cases point : p.point <;> simp only [Frame.advance, Polling.advance, point] at advance'
  case check =>
    split at advance' <;> rename_i valid <;> obtain rfl := Option.some.inj advance'
    · exact .returns (.inl ⟨point, valid⟩) rfl (replies rfl)
    · exact .finds point (Bool.eq_false_iff.mpr valid) rfl
  case count =>
    obtain rfl := Option.some.inj advance'
    exact .counts point rfl
  case lookup =>
    have away : w.isMember p.manager thread = false := idle.resolve_right (by simp [point])
    have none : (w.manager p.manager).registry.get? thread = none := by
      have gone : ((w.manager p.manager).registry.get? thread).isSome = false :=
        (Registry.contains_eq_isSome ..).symm.trans away
      simpa using gone
    rw [none] at advance'
    obtain rfl := Option.some.inj advance'
    exact .returns (.inr point) rfl (replies rfl)
  all_goals exact (absent (by rw [point]; rfl) (by simp [point])).elim

/-- How the slow polls of a manager are counted. -/
structure SlowPolls (m : ManagerId) (moments : List Moment) (v : World) : Prop where
  /-- Each is that of a thread that joins a pause, goes through its phases and does not drive it, or that of
  a thread that is not registered. -/
  counted : v.IsQuiescent → (v.manager m).pauseLock.owner = none →
    ∃ pairs : Finset (Nat × ThreadId),
      (∀ k thread, (k, thread) ∈ pairs ↔ GoesThrough m k thread (observations moments) ∧
        (thread, .invalidated m k) ∉ observations moments) ∧
      (v.manager m).statistics.slowPolls = pairs.card + moments.countP (·.isStray m)
  /-- A poll that finds the epoch valid does nothing, and that of a thread that is not registered does
  nothing but to be counted. -/
  pass : ∀ {pre moment post next thread p rest}, moments = pre ++ moment :: post →
    moment.move = .run thread → moment.world.stack thread = .polling p :: rest → p.manager = m →
    moment.world.isMember m thread = false ∨
      p.point = .check ∧ (moment.world.manager m).epoch.valid = true →
    moment.world.move moment.move = some (next, moment.notes) → moment.PassesBy m thread p rest next

/-- The slow polls of a manager are accounted for exactly, as long as callbacks keep away from the manager
and do not unwind, and no thread leaves while it waits for a pause of its own. -/
theorem slow_polls_counted (fresh : w.IsFresh m) (course : Course (Orderly m) w moments v) :
    SlowPolls m moments v := by
  refine ⟨course.slowPolls_eq fresh,
    fun {pre moment post next thread p rest} parts runs stack manager idle moved => ?_⟩
  obtain ⟨-, before, -, -, -⟩ := course.split parts
  obtain ⟨world, move, notes⟩ := moment
  obtain rfl : move = .run thread := runs
  exact (before.coherent fresh.coherent).passes_by moved stack manager idle

/-- The first thread pauses the second one, and in the meantime a third one polls that is not
registered. -/
def pauseAndStray : List Move :=
  Move.repeated [
    (1, .submit 0 (.enter 0)), (14, .run 0), (1, .submit 1 (.enter 0)), (14, .run 1),
    (1, .submit 0 (.pauseWith 0 false [.log "a"])), (25, .run 0),
    (1, .submit 2 (.pollFree 0)), (4, .run 2),
    (1, .submit 1 (.pollFree 0)), (9, .run 1), (11, .run 0), (15, .run 1), (16, .run 0)]

theorem World.isQuiescent_of_all (idle : w.threads.entries.all (·.2.stack.isEmpty) = true) :
    w.IsQuiescent := by
  intro thread
  have empty : (w.threads.get thread).stack = [] := by
    obtain mem | ⟨none, -⟩ := w.threads.get_cases thread
    · exact List.isEmpty_iff.mp (List.all_eq_true.mp idle _ mem)
    · rw [none]
      rfl
  simp [step, World.thread, empty]

/-- One of the two slow polls is that of the thread that was paused. -/
theorem slow_polls_counted_pauseAndStray : ∃ moments v pairs, World.pair.IsFresh 0 ∧
    Course (Orderly 0) World.pair moments v ∧ v.IsQuiescent ∧
    (v.manager 0).pauseLock.owner = none ∧ (v.manager 0).statistics.slowPolls = 2 ∧
    Finset.card pairs = 1 ∧ ∀ k thread, (k, thread) ∈ pairs ↔
      GoesThrough 0 k thread (observations moments) ∧
        (thread, .invalidated 0 k) ∉ observations moments := by
  have made : (World.pair.follow (·.isOrderly 0) pauseAndStray).any (fun made =>
      made.2.threads.entries.all (·.2.stack.isEmpty) && (made.2.manager 0).pauseLock.owner.isNone &&
      decide ((made.2.manager 0).statistics.slowPolls = 2) &&
      decide (made.1.countP (·.isStray 0) = 1)) = true := by
    decide +kernel
  obtain ⟨⟨moments, v⟩, follows, state⟩ := (Option.any_eq_true _ _).mp made
  simp only [Bool.and_eq_true, Option.isNone_iff_eq_none, decide_eq_true_eq] at state
  obtain ⟨⟨⟨idle, free⟩, polls⟩, strays⟩ := state
  have course : Course (Orderly 0) World.pair moments v :=
    World.course_of_follow (World.orderly_of_isOrderly 0) follows
  have quiescent := World.isQuiescent_of_all idle
  obtain ⟨pairs, mem, counted⟩ := (slow_polls_counted World.pair_isFresh course).counted quiescent free
  have card : pairs.card = 1 := by omega
  exact ⟨moments, v, pairs, World.pair_isFresh, course, quiescent, free, polls, card, mem⟩

end

end StopTheWorld
