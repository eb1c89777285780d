import StopTheWorld.Proofs.ActionOnce
import StopTheWorld.Proofs.Attendance
import StopTheWorld.Proofs.Outcome
import StopTheWorld.Proofs.PauseState
import StopTheWorld.Proofs.Records

namespace StopTheWorld

/-! What panics of pause actions do: each stays with its thread, comes out of the call that took the
thread into the pause, and nobody else notices. -/

/-- What becomes of a thread that is registered when a pause begins. -/
inductive Scene.Accounts (m : ManagerId) (pause : Pause) (history : List (ThreadId × Note))
    (s : Scene) (thread : ThreadId) : Prop
  | here (here : thread ∈ s.core.identities)
      (late : s.core.phaser.phase = 3 * pause.number →
        (s.posture thread).hasArrived s.core.phaser.phase = false →
          ∀ phase, (thread, .arrived (.registry (.manager m)) phase) ∉ history)
  | left (gone : thread ∉ s.core.identities)
      (removed : (thread, .removed (.manager m) thread) ∈ history)
      (never : ∀ phase, (thread, .arrived (.registry (.manager m)) phase) ∉ history)
  | done (arrived : ∀ round < 3,
      (thread, .arrived (.registry (.manager m)) (3 * pause.number + round)) ∈ history)

/-- Nothing has been taken from the queue of the record. Unless something was queued, it is as it
was. -/
structure World.KeepsQueue (w : World) (record : RecordId) (moments : List Moment) (v : World) :
    Prop where
  kept : (w.record record).deferred <+: (v.record record).deferred
  same : (∀ thread tag, (thread, .queued record tag) ∉ observations moments) →
    (v.record record).deferred = (w.record record).deferred

/-- Whether the call on top of a stack was told that the thread owns the global lock. -/
def Frame.holdsGlobal : Frame → Bool
  | polling p => p.holdsGlobal
  | pausing p => p.holdsGlobal
  | _ => false

/-- The call on top of this stack takes the thread into the phases of a pause at the first moment, and
is over after the last. -/
structure Joining (m : ManagerId) (thread : ThreadId) (drives : Bool) (joiner : Frame)
    (base : List Frame) (first : Moment) (mid : List Moment) (last : Moment) (next : World) :
    Prop where
  joins : (thread, .joined m drives) ∈ first.observed
  stack : first.world.stack thread = joiner :: base
  within : ∀ moment ∈ mid ++ [last], base.length < (moment.world.stack thread).length
  moves : last.world.move last.move = some (next, last.notes)
  ends : (next.stack thread).length ≤ base.length

/-- How the call of a participant comes to its end, by what its run of the action did. -/
inductive Attendance.Concludes (a : Attendance) (mid : List Moment) (last : Moment) (next : World) :
    Prop
  /-- The run unwound. The thread has kept away from records and registrations since, and so has
  everybody else from what is queued for the thread. The unwinding goes out of all calls. -/
  | unwinds {message : String} {early late : List Moment} {moment : Moment}
      (parts : mid = early ++ moment :: late)
      (breaks : moment.Breaks a.thread a.base message)
      (abstains : ∀ later ∈ late ++ [last], later.Abstains a.manager a.thread)
      (queue : ∀ record, a.record = some record → ∀ before later after,
        late ++ [last] = before ++ later :: after →
          later.world.KeepsQueue record (later :: after) next)
      (out : next = last.world.setStack a.thread [])
      (told : .completed (.unwound message) ∈ last.notes)
  /-- It did not. The thread has taken what was queued for it, and the call replies. -/
  | replies (whole : ∀ moment ∈ mid, ∀ message, ¬ moment.Breaks a.thread a.base message)
      (drained : a.Drained mid)
      (stack : next.stack a.thread = (Control.reply a.value).stack a.base)

section

variable {m : ManagerId} {pause : Pause} {s s' : Scene} {thread self : ThreadId} {deed : Deed}
  {history : List (ThreadId × Note)} {w v : World} {moments : List Moment} {notes : List Note}
  {frame joiner : Frame} {base : List Frame} {effect : Effect} {record : RecordId} {drives : Bool}

namespace Scene.Accounts

theorem other (accounts : s.Accounts m pause history thread) (underway : s.Underway pause)
    (lawful : s.Lawful) (moves : s.Moves self deed s') (ne : thread ≠ self) :
    s'.Accounts m pause (history ++ (s.core.notes m self deed).map ((self, ·))) thread := by
  have members : thread ∈ s'.core.identities ↔ thread ∈ s.core.identities := by
    rw [moves.core]
    exact Scene.Lawful.mem_identities_other moves.advances ne
  have silent (phase : Nat) : (thread, Note.arrived (.registry (.manager m)) phase) ∉
      (s.core.notes m self deed).map ((self, ·)) := by
    simp [ne.symm]
  cases accounts with
  | here here late =>
    refine .here (members.mpr here) fun first waits phase => ?_
    have round := underway.round lawful
    have same : s'.core.phaser.phase = s.core.phaser.phase := by
      obtain same | ⟨next, -⟩ := lawful.phase_cases moves
      · exact same
      · omega
    rw [moves.others thread ne, same] at waits
    rw [same] at first
    simp [late first waits, silent]
  | left gone removed never =>
    exact .left (members.not.mpr gone) (List.mem_append_left _ removed) fun phase => by
      simp [never, silent]
  | done arrived => exact .done fun round le => List.mem_append_left _ (arrived round le)

/-- A thread that leaves does so before it arrives or after it has arrived three times. -/
theorem own (accounts : s.Accounts m pause history self) (recounts : s.Recounts m pause history)
    (lawful : s.Lawful) (moves : s.Moves self deed s') :
    s'.Accounts m pause (history ++ (s.core.notes m self deed).map ((self, ·))) self := by
  have underway := recounts.toUnderway
  cases accounts with
  | here here late =>
    have late' := Scene.Progress.late_own underway lawful moves late
    by_cases leaves : deed = .remove
    · subst leaves
      by_cases third : s.core.phaser.phase = 3 * pause.number + 3
      · refine .done fun round le => List.mem_append_left _ (recounts.arrived self round (.inr ?_))
        exact ⟨by omega, here⟩
      · have yet : ¬ s.HasChosen pause self := by
          rintro (ended | ⟨-, leads, point, arrival, meets, -⟩)
          · exact third ended
          · have advances := moves.advances
            rw [meets] at advances
            cases advances
        obtain ⟨gone, first, waits⟩ := Scene.Progress.own_removed underway lawful moves yet
        exact .left gone (by simp [Core.notes]) (late' first waits)
    · refine .here ?_ late'
      rw [moves.core]
      exact Scene.Progress.mem_identities_own moves.advances here leaves
  | left gone removed never =>
    obtain ⟨gone', -, away⟩ := Scene.Progress.own_left gone underway lawful moves
    refine .left gone' (List.mem_append_left _ removed) fun phase => ?_
    rw [List.mem_append, not_or]
    exact ⟨never phase, arrived_notMem away⟩
  | done arrived => exact .done fun round le => List.mem_append_left _ (arrived round le)

end Scene.Accounts

theorem Course.accounts (course : Course (Orderly m) w moments v) (coherent : w.Coherent m)
    (recounts : (w.scene m).Recounts m pause [])
    (on : (pause.driver, .finished m true) ∉ observations moments)
    (here : thread ∈ (w.core m).identities) :
    (v.scene m).Accounts m pause (told m moments) thread := by
  induction course with
  | nil => exact .here here fun _ _ _ => by simp [told]
  | @snoc moments v u move notes before orderly moves ih =>
    rw [observations_append, List.mem_append, not_or] at on
    have accounts := ih on.1
    have recounts := before.recounts coherent recounts on.1
    have reached := before.coherent coherent
    obtain ⟨-, turns⟩ := reached.move orderly moves
    rw [told_append]
    obtain ⟨self, deed, turn, same⟩ | ⟨still, same⟩ := told_moment (w := v) turns
    · rw [same]
      by_cases mine : thread = self
      · subst mine
        exact accounts.own recounts reached.lawful turn
      · exact accounts.other recounts.toUnderway reached.lawful turn mine
    · rw [same, still, List.append_nil]
      exact accounts

/-- The driver of a pause comes out of the phases when the third is over. -/
theorem Course.third {u : World} {move : Move} (course : Course (Orderly m) w moments v)
    (coherent : w.Coherent m) (recounts : (w.scene m).Recounts m pause [])
    (on : (pause.driver, .finished m true) ∉ observations moments)
    (orderly : ∀ thread, move = .run thread → Orderly m v thread)
    (moves : v.move move = some (u, notes))
    (ends : (pause.driver, .finished m true) ∈ (⟨v, move, notes⟩ : Moment).observed) :
    (v.core m).phaser.phase = 3 * pause.number + 3 := by
  obtain ⟨rfl, noted⟩ := Moment.mem_observed.mp ends
  have ended :=
    ((course.coherent coherent).finished pause.driver (orderly _ rfl) moves noted).1
  have number : (v.core m).pauses = pause.number := (course.recounts coherent recounts on).number
  simp only [Bool.true_eq_false, and_false, or_false] at ended
  omega

/-- By the end of a pause, whoever was registered at its beginning has left before it arrived or has
been through all three phases. -/
theorem Course.completes (course : Course (Orderly m) w moments v) (coherent : w.Coherent m)
    (recounts : (w.scene m).Recounts m pause [])
    (on : (pause.driver, .finished m true) ∉ observations moments)
    (third : (v.core m).phaser.phase = 3 * pause.number + 3)
    (here : thread ∈ (w.core m).identities) :
    (thread, .removed (.manager m) thread) ∈ observations moments ∧
        (∀ phase, (thread, .arrived (.registry (.manager m)) phase) ∉ observations moments) ∨
      ∀ round < 3, (thread, .arrived (.registry (.manager m)) (3 * pause.number + round)) ∈
        observations moments := by
  cases course.accounts coherent recounts on here with
  | here here late =>
    right
    intro round le
    have arrived := (course.recounts coherent recounts on).arrived thread round
      (.inr ⟨by show _ < (v.core m).phaser.phase; omega, here⟩)
    exact (List.mem_filter.mp arrived).1
  | left gone removed never =>
    exact .inl ⟨(List.mem_filter.mp removed).1, by simpa [told, Note.tellsOf] using never⟩
  | done arrived => exact .inr fun round le => (List.mem_filter.mp (arrived round le)).1

/-- A thread goes into the phases from a poll or from a call to drive a pause. -/
theorem Frame.joining (step : frame.advance thread w = some effect)
    (joined : .joined m drives ∈ effect.notes) :
    (∃ p, frame = .polling p ∧ p.manager = m ∧ p.point = .enterPhases ∧ drives = false) ∨
      ∃ p, frame = .pausing p ∧ p.manager = m ∧ p.point = .enterPhases ∧ drives = true := by
  cases Frame.marking step with
  | keeps spares quiet => simpa [Note.isMarking] using quiet _ joined
  | finishes world notes => simp [notes] at joined
  | joins world notes control marks =>
    obtain ⟨rfl, rfl⟩ := Note.joined.inj (List.mem_singleton.mp (notes ▸ joined))
    cases frame with
    | polling p =>
      cases point : p.point <;> simp only [advance, Polling.advance, point] at step
      case enterPhases =>
        obtain rfl := Option.some.inj step
        obtain ⟨same, drives⟩ := Note.joined.inj (List.head_eq_of_cons_eq notes)
        exact .inl ⟨p, rfl, same, point, drives.symm⟩
      case leaveGlobal =>
        obtain ⟨_, -, goes⟩ := Option.bind_eq_some_iff.mp step
        obtain rfl := Option.some.inj goes
        simp at control
      all_goals
        repeat' split at step
        all_goals
          obtain rfl := Option.some.inj step
          simp at control
    | pausing p =>
      cases point : p.point <;> simp only [advance, Pausing.advance, point] at step
      case enterPhases =>
        obtain rfl := Option.some.inj step
        obtain ⟨same, drives⟩ := Note.joined.inj (List.head_eq_of_cons_eq notes)
        exact .inr ⟨p, rfl, same, point, drives.symm⟩
      case leaveGlobal =>
        split at step
        · obtain ⟨_, -, goes⟩ := Option.bind_eq_some_iff.mp step
          obtain rfl := Option.some.inj goes
          simp at control
        · obtain rfl := Option.some.inj step
          simp at control
      all_goals
        repeat' split at step
        all_goals
          obtain rfl := Option.some.inj step
          simp at control
    | start op =>
      have plain := (Op.plain (m := 0) step).2 _ joined
      simp [Note.isManaged] at plain
    | _ =>
      simp only [advance, Acquisition.advance, Acquisition.took, Acquisition.gaveUp, Release.advance,
        OwnedLock.advanceNotify, Arrival.advance, Sleeping.advance, Parking.advance,
        Interruption.advance, Enrolment.advance, Withdrawal.advance, Visit.advance, Script.advance,
        Sequence.advance, Drain.advance, Phases.advance, Resuming.advance, Entering.advance,
        Leaving.advance, Foreign.advance, Acquiring.advance, Blocking.advance, Trial.advance] at step
      repeat' split at step
      all_goals first
        | (obtain rfl := Option.some.inj step
           simp at control)
        | (obtain ⟨_, -, goes⟩ := Option.bind_eq_some_iff.mp step
           obtain rfl := Option.some.inj goes
           simp at control)
        | simp at step

/-- The step by which a thread goes into the phases begins its attendance of the pause. -/
theorem World.Coherent.joining_of_orderly (coherent : w.Coherent m) (orderly : Orderly m w thread)
    (whole : w.IsWhole) (moves : w.step thread = some (v, notes))
    (joined : .joined m drives ∈ notes) (stack : w.stack thread = joiner :: base) :
    ∃ entry, (w.manager m).registry.get? thread = some entry ∧
      (Attendance.mk m thread drives joiner.holdsGlobal entry.record (w.manager m).globalLock
        base).Attends [] (v.core m).phaser.phase (v.stack thread) := by
  obtain ⟨coherent', -⟩ := coherent.step orderly moves
  have bonded := coherent'.bonded thread
  have whole := whole thread
  obtain ⟨frame, rest, effect, stack', step, rfl, rfl⟩ := World.step_eq_some moves
  obtain ⟨rfl, rfl⟩ := List.cons.inj (stack.symm.trans stack')
  rw [World.stack_setStack, if_pos rfl] at bonded ⊢
  have told : .joined m drives ∈ effect.notes := Effect.told joined (by simp)
  have whole : joiner.IsWhole := whole joiner (stack ▸ List.mem_cons_self)
  obtain ⟨p, rfl, rfl, point, rfl⟩ | ⟨p, rfl, rfl, point, rfl⟩ := Frame.joining step told <;>
    simp only [Frame.advance, Polling.advance, Pausing.advance, point] at step <;>
    obtain rfl := Option.some.inj step
  · obtain ⟨entry, found, record⟩ := bonded p.record (by simp [Control.stack, Frame.bond?, Polling.Point.relies])
    refine ⟨entry, found, .meets ⟨rfl, record.symm, ?_, by simp⟩ (by simp [Attendance.Broke]) (by simp)⟩
    exact .polls rfl rfl rfl record.symm rfl (whole (by simp [point]))
  · obtain ⟨entry, found, record⟩ := bonded p.record (by simp [Control.stack, Frame.bond?, Pausing.Point.relies])
    refine ⟨entry, found, .meets ⟨rfl, record.symm, ?_, by simp⟩ (by simp [Attendance.Broke]) (by simp)⟩
    exact .pauses rfl rfl rfl record.symm rfl (whole (by simp [point, Pausing.Point.stage]))

theorem World.Coherent.joining (coherent : w.Coherent m) (contained : Contained m w thread)
    (whole : w.IsWhole) (moves : w.step thread = some (v, notes))
    (joined : .joined m drives ∈ notes) (stack : w.stack thread = joiner :: base) :
    ∃ entry, (w.manager m).registry.get? thread = some entry ∧
      (Attendance.mk m thread drives joiner.holdsGlobal entry.record (w.manager m).globalLock
        base).Attends [] (v.core m).phaser.phase (v.stack thread) :=
  coherent.joining_of_orderly (coherent.orderly_of_contained contained) whole moves joined stack

/-- As long as the thread keeps away from the queues, nobody takes anything from that of its record. -/
theorem Course.keepsQueue (course : Course (Contained m) w moments v) (coherent : w.Coherent m)
    (owned : w.IsOwned m) (owns : w.Owns record thread)
    (abstains : ∀ moment ∈ moments, moment.Abstains m thread) :
    w.KeepsQueue record moments v := by
  induction course with
  | nil => exact ⟨List.prefix_rfl, fun _ => rfl⟩
  | @snoc moments v u move notes before contained moves ih =>
    have keeps := ih fun moment mem => abstains moment (List.mem_append_left _ mem)
    have last := abstains ⟨v, move, notes⟩ (List.mem_append_right _ List.mem_cons_self)
    have change : (u.record record).deferred = (v.record record).deferred ∨ ∃ self action,
        (u.record record).deferred = (v.record record).deferred ++ [action] ∧
          (self, .queued record action.tag) ∈ (⟨v, move, notes⟩ : Moment).observed := by
      by_cases runs : move = .run thread
      · exact .inl (congrArg Record.deferred (((last runs).2 u moves).1 record))
      · exact (before.isOwned coherent owned).queue (before.owns owns) runs moves
    obtain same | ⟨self, action, grown, queued⟩ := change
    · refine ⟨same ▸ keeps.kept, fun none => same.trans (keeps.same fun self tag => ?_)⟩
      exact fun told => none self tag (by simp [told])
    · refine ⟨keeps.kept.trans (grown ▸ List.prefix_append _ _), fun none => ?_⟩
      exact absurd (by simp [queued]) (none self action.tag)

/-- A call by which a thread attends a pause is over after the third phase, and as the thread's own run
of the action has it. -/
theorem Course.concludes {a : Attendance} {last : Moment} {mid : List Moment} {next : World}
    (course : Course (Contained a.manager) w mid last.world) (coherent : w.Coherent a.manager)
    (owned : w.IsOwned a.manager)
    (owns : ∀ record, a.record = some record → w.Owns record a.thread)
    (attends : a.Attends [] (w.core a.manager).phaser.phase (w.stack a.thread))
    (lock : (w.manager a.manager).globalLock = a.globalLock)
    (stays : a.record ≠ none → ∀ f, .foreign f ∈ a.base → f.added = false)
    (contained : ∀ thread, last.move = .run thread → Contained a.manager last.world thread)
    (within : ∀ moment ∈ mid ++ [last], a.base.length < (moment.world.stack a.thread).length)
    (moves : last.world.move last.move = some (next, last.notes))
    (ends : (next.stack a.thread).length ≤ a.base.length) :
    last.move = .run a.thread ∧
      a.Passed mid (last.world.manager a.manager).registry.phaser.phase (a.drives = true)
        (a.holdsGlobal = true) ∧
      a.Concludes mid last next := by
  have reached := (course.orderly_of_contained coherent).coherent coherent
  have attended := course.attendance coherent attends lock stays
    (fun moment mem => within moment (List.mem_append_left _ mem)) (within last (by simp))
  have same : (last.world.manager a.manager).globalLock = a.globalLock :=
    course.globalLock_eq.trans lock
  have whole : Course (Contained a.manager) w (mid ++ [last]) next :=
    course.trans (.single contained moves)
  obtain still | ⟨runs, ends⟩ := attended.move reached
    (fun thread runs => reached.orderly_of_contained (contained thread runs))
    (fun runs _ => (contained _ runs).defersSteadily) same (fun _ => stays) moves
  · exact absurd (Attendance.base_lt_length still) (Nat.not_lt.mpr ends)
  refine ⟨runs, ?_⟩
  cases ends with
  | replies broke passed drained stack => exact ⟨passed, .replies broke drained stack⟩
  | unwinds broke passed abstains out told =>
    obtain ⟨-, early, moment, late, rfl, breaks, abstained⟩ := broke
    have kept : ∀ later ∈ late ++ [last], later.Abstains a.manager a.thread :=
      List.forall_mem_append.mpr ⟨abstained, by simpa using abstains⟩
    refine ⟨passed, .unwinds rfl breaks kept (fun record bound before later after parts => ?_) out told⟩
    obtain ⟨following, reach, allowed, moved, since⟩ :=
      whole.split (show _ = (early ++ moment :: before) ++ later :: after by
        rw [List.append_assoc, List.append_assoc, List.cons_append, List.cons_append, parts])
    have there := (reach.orderly_of_contained coherent).coherent coherent
    refine ((Course.single allowed moved).trans since).keepsQueue there
      (reach.isOwned coherent owned) (reach.owns (owns record bound)) fun moment mem => kept moment ?_
    rw [parts]
    exact List.mem_append_right _ mem

/-- Panics of pause actions are contained, whichever participants run into them, in every world that
its threads can come to.

By the end of a pause, whoever was registered at its beginning and did not leave before it arrived has
been through all three phases. A call that takes a thread into a pause is over by a step of that
thread, after the third phase, and after the thread has given the pause lock back, as a driver, and
taken the global lock again, if the call was told that it owned that. If its own run of the action
unwound, so does the call, with the same message, and the deferred actions of the thread stay queued.
Otherwise the call replies as ever, with the deferred actions taken from their queue. A manager whose
pause lock is free is ready for the next pause, and a thread outside of all calls does not own it. -/
theorem panics_contained (fresh : w.IsFresh m) (course : Course (Contained m) w moments v) :
    (∀ pre first mid last post driver k, moments = pre ++ first :: (mid ++ last :: post) →
      (driver, .invalidated m k) ∈ first.observed →
      (driver, .finished m true) ∉ observations mid →
      (driver, .finished m true) ∈ last.observed →
      (last.world.manager m).registry.phaser.phase = 3 * k + 3 ∧
        ∀ thread ∈ (first.world.manager m).registry.identities,
          (thread, .removed (.manager m) thread) ∈ observations mid ∧
              (∀ phase, (thread, .arrived (.registry (.manager m)) phase) ∉ observations mid) ∨
            ∀ round < 3, (thread, .arrived (.registry (.manager m)) (3 * k + round)) ∈
              observations mid) ∧
    (∀ pre first mid last post thread drives joiner base next,
      moments = pre ++ first :: (mid ++ last :: post) →
      Joining m thread drives joiner base first mid last next →
      ∃ entry, (first.world.manager m).registry.get? thread = some entry ∧
        last.move = .run thread ∧
        (Attendance.mk m thread drives joiner.holdsGlobal entry.record
          (first.world.manager m).globalLock base).Passed mid
            (last.world.manager m).registry.phaser.phase (drives = true)
            (joiner.holdsGlobal = true) ∧
        (Attendance.mk m thread drives joiner.holdsGlobal entry.record
          (first.world.manager m).globalLock base).Concludes mid last next) ∧
    ((v.manager m).pauseLock.IsFree → (v.manager m).AtRest) ∧
    ∀ thread, v.stack thread = [] → (v.manager m).pauseLock.owner ≠ some thread := by
  have orderly := course.orderly_of_contained fresh.coherent
  have coherent := orderly.coherent fresh.coherent
  refine ⟨?_, ?_, coherent.atRest, fun thread idle owner => ?_⟩
  · intro pre first mid last post driver k parts begins within ends
    subst parts
    obtain ⟨w₁, before, orderly₁, moved₁, after⟩ := orderly.split rfl
    obtain ⟨w₂, during, orderly₂, moved₂, -⟩ := after.split rfl
    obtain ⟨runs, noted⟩ := Moment.mem_observed.mp begins
    rw [runs] at moved₁
    have coherent₀ := before.coherent fresh.coherent
    obtain ⟨coherent₁, phase, p, rest, stack, manager, -, recounts⟩ :=
      coherent₀.begins (orderly₁ driver runs) moved₁ noted
    have third := during.third coherent₁ recounts within orderly₂ moved₂ ends
    refine ⟨third, fun thread here => during.completes coherent₁ recounts within third ?_⟩
    obtain same | ⟨-, gone⟩ := recounts.entries thread
    · have found : ((first.world.core m).lookup thread).isSome = true :=
        Core.lookup_isSome.mpr here
      exact Core.lookup_isSome.mp ((congrArg Option.isSome same).trans found)
    · simp at gone
  · intro pre first mid last post thread drives joiner base next parts joining
    subst parts
    obtain ⟨w₁, before, contained₁, moved₁, after⟩ := course.split rfl
    obtain ⟨w₂, during, contained₂, moved₂, -⟩ := after.split rfl
    have orderly₀ := before.orderly_of_contained fresh.coherent
    have coherent₀ := orderly₀.coherent fresh.coherent
    obtain ⟨runs, noted⟩ := Moment.mem_observed.mp joining.joins
    rw [runs] at moved₁
    have known := contained₁ thread runs
    obtain ⟨entry, found, attends⟩ := coherent₀.joining known
      (orderly₀.isWhole fresh.coherent fresh.isWhole) moved₁ noted joining.stack
    have owned := before.isOwned fresh.coherent fresh.isOwned
    have vouched := before.isVouched fresh.coherent fresh.isLaid fresh.isVouched thread
    have mine : first.world.IsOf entry.record thread := by
      have own := owned.members entry (List.mem_of_find?_eq_some found)
      rwa [Registry.get?_identity found] at own
    refine ⟨entry, found, during.concludes
      (coherent₀.step (coherent₀.orderly_of_contained known) moved₁).1
      (owned.step coherent₀ known moved₁) (fun record bound => (mine record bound).move moved₁) attends
      (World.globalLock_move moved₁) (fun bound f mem => ?_) contained₂ joining.within
      joining.moves joining.ends⟩
    refine Bool.eq_false_of_not_eq_true fun added => bound ?_
    rw [joining.stack] at vouched
    obtain ⟨other, found', none⟩ := vouched.lodges_of_mem (List.mem_cons_of_mem _ mem) added
    obtain rfl := Option.some.inj (found.symm.trans found')
    exact none
  · have owns := (coherent.lawful.admits thread).owner.mpr owner
    simp [World.scene, World.posture, idle, Posture.owns] at owns

/-- The first of two threads drives a pause whose action unwinds on the second, which owns the global
lock, has a deferred action queued, and joins by a poll. -/
def panickingPause : List Move :=
  Move.repeated [
    (1, .submit 0 (.enter 0)), (14, .run 0), (1, .submit 1 (.enter 0)), (14, .run 1),
    (1, .submit 1 (.defer none "d" [.log "d"])), (1, .run 1), (1, .submit 1 (.acquire 0)), (6, .run 1),
    (1, .submit 0 (.pauseWith 0 false [.only [1] (.unwind "x")])), (25, .run 0),
    (1, .submit 1 (.poll 0)), (10, .run 1), (9, .run 0), (11, .run 1), (16, .run 0)]

/-- The poll of the second thread unwinds, and then the manager is at rest. -/
theorem panics_contained_panickingPause : ∃ pre first mid last post v joiner next message,
    World.pair.IsFresh 0 ∧
    Course (Contained 0) World.pair (pre ++ first :: (mid ++ last :: post)) v ∧
    Joining 0 1 false joiner [] first mid last next ∧ joiner.holdsGlobal = true ∧
    (1, .took (.global 0) 1) ∈ observations mid ∧
    next = last.world.setStack 1 [] ∧ .completed (.unwound message) ∈ last.notes ∧
    (v.manager 0).AtRest := by
  have made : (World.pair.follow (World.isContained 0) panickingPause).any (fun made =>
      made.1[71]?.any (fun first => shows 1 (·.isJoining 0 false) first.observed &&
        (first.world.stack 1).head?.any (·.holdsGlobal) && (first.world.stack 1).tail.isEmpty &&
        (first.world.manager 0).globalLock = 0 &&
        (first.world.manager 0).registry.get? 1 = some ⟨1, some 1, true⟩) &&
      (made.1.drop 72)[23]?.any (fun last => !(last.world.stack 1).isEmpty &&
        (last.world.move last.move).any fun moved => (moved.1.stack 1).isEmpty) &&
      ((made.1.drop 72).take 23).all (fun moment => !(moment.world.stack 1).isEmpty) &&
      !(observations ((made.1.drop 72).take 23)).any (·.2.isDeferring) &&
      (made.2.manager 0).pauseLock.owner = none) = true := by
    decide +kernel
  obtain ⟨⟨moments, v⟩, follows, state⟩ := (Option.any_eq_true _ _).mp made
  simp only [Bool.and_eq_true, decide_eq_true_eq, Option.any_eq_true, List.isEmpty_iff,
    Bool.not_eq_true', List.all_eq_true] at state
  obtain ⟨⟨⟨⟨⟨first, found, ⟨⟨⟨joins, joiner, top, holds⟩, bare⟩, lock⟩, entry⟩, last, found',
    busy, ⟨next, notes⟩, moved, out⟩, within⟩, kept⟩, free⟩ := state
  have course := World.course_of_follow (World.contained_of_isContained 0) follows
  rw [eq_take_cons_drop found, eq_take_cons_drop found'] at course
  obtain ⟨_, -, -, -, after⟩ := course.split rfl
  obtain ⟨u, -, -, moves, -⟩ := after.split rfl
  obtain rfl : u = next := congrArg Prod.fst (Option.some.inj (moves.symm.trans moved))
  have stack : first.world.stack 1 = joiner :: [] := by
    cases shape : first.world.stack 1 with
    | nil => simp [shape] at top
    | cons frame rest => simp_all
  have joining : Joining 0 1 false joiner [] first ((moments.drop 72).take 23) last u := by
    refine ⟨(shows_iff Note.isJoining_iff).mp joins, stack, ?_, moves, by simp [out]⟩
    rw [List.forall_mem_append]
    exact ⟨fun moment mem => List.length_pos_iff.mpr (by simpa using within moment mem),
      by simpa [List.length_pos_iff] using busy⟩
  obtain ⟨-, calls, rest, -⟩ := panics_contained World.pair_isFresh course
  obtain ⟨_, same, -, ⟨before, after, -, parts, -, -, -, -, regained⟩, concludes⟩ :=
    calls _ _ _ _ _ _ _ _ _ _ rfl joining
  obtain rfl := Option.some.inj (entry.symm.trans same)
  have taken : (1, .took (.global 0) 1) ∈ observations ((moments.drop 72).take 23) := by
    rw [parts, observations_append, ← lock]
    exact List.mem_append_right _ (regained holds)
  have rest := rest free
  cases concludes with
  | @unwinds message _ _ _ _ _ _ _ out told =>
    exact ⟨_, first, _, last, _, v, joiner, u, message, World.pair_isFresh, course, joining, holds,
      taken, out, told, rest⟩
  | replies _ drained =>
    obtain ⟨count, mem⟩ := drained 1 rfl
    rw [List.any_eq_false] at kept
    simpa [Note.isDeferring] using kept _ mem

end

end StopTheWorld
