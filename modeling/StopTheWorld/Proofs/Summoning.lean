import StopTheWorld.Proofs.Panics
import StopTheWorld.Proofs.Warranted

namespace StopTheWorld

/-! How a driver goes through the members that it is to interrupt for its pause. -/

/-- The thread is about to raise the flag of the target, for a pause of the manager that it drives. -/
def Moment.summons (m : ManagerId) (driver target : ThreadId) (moment : Moment) : Bool :=
  match moment.move, moment.world.stack driver with
  | .run self, .interruption i :: .visit _ :: .pausing p :: _ =>
    self = driver && i.target = target && i.point = .raise && p.manager = m
  | _, _ => false

/-- Those whom a pause of the manager that begins now is to interrupt. -/
def World.summoned (w : World) (m : ManagerId) (driver : ThreadId) : List ThreadId :=
  if (w.manager m).settings.interruptBlocked then
    (w.manager m).registry.interruptible.filter (· ≠ driver)
  else []

/-- Where a driver stands between the invalidation and the phases, and whom it is still to interrupt. -/
inductive Summoning (m : ManagerId) (below : List Frame) (called : List ThreadId) :
    List ThreadId → List Frame → Prop
  | wakes {p : Pausing} (manager : p.manager = m) (point : p.point = .wakeWaiters) :
      Summoning m below called called (.pausing p :: below)
  | notifies {p : Pausing} {lock : LockRef} (manager : p.manager = m)
      (point : p.point = .interrupt ∨ p.point = .leaveGlobal ∧ called = []) :
      Summoning m below called called (.notify lock :: .pausing p :: below)
  | turns {p : Pausing} (manager : p.manager = m) (point : p.point = .interrupt) :
      Summoning m below called called (.pausing p :: below)
  | begins {p : Pausing} {x : Visit} (manager : p.manager = m) (begin : x.point = .begin) :
      Summoning m below called called (.visit x :: .pausing p :: below)
  | visits {p : Pausing} {x : Visit} {later : List ThreadId} (manager : p.manager = m)
      (point : x.point = .next ∨ ∃ target, x.point = .release target) (todo : x.todo = later) :
      Summoning m below called later (.visit x :: .pausing p :: below)
  | raises {p : Pausing} {x : Visit} {i : Interruption} {later : List ThreadId}
      (manager : p.manager = m) (raise : i.point = .raise) (todo : x.todo = later) :
      Summoning m below called (i.target :: later)
        (.interruption i :: .visit x :: .pausing p :: below)
  | calls {p : Pausing} {x : Visit} {i : Interruption} (above : List Frame)
      {later : List ThreadId} (manager : p.manager = m) (raised : i.point ≠ .raise)
      (todo : x.todo = later) :
      Summoning m below called later
        (above ++ .interruption i :: .visit x :: .pausing p :: below)
  | closes {p : Pausing} (manager : p.manager = m)
      (point : p.point = .leaveGlobal ∨ p.point = .enterPhases) :
      Summoning m below called [] (.pausing p :: below)

/-- What a move makes of those whom a driver is still to interrupt. -/
inductive Moment.Attends (m : ManagerId) (driver : ThreadId) (called : List ThreadId)
    (moment : Moment) : List ThreadId → List ThreadId → Prop
  | keeps {pending : List ThreadId} (none : ∀ target, moment.summons m driver target = false) :
      Attends m driver called moment pending pending
  | begins (none : ∀ target, moment.summons m driver target = false) :
      Attends m driver called moment called (moment.world.summoned m driver)
  | passes {target : ThreadId} {later : List ThreadId}
      (none : ∀ target, moment.summons m driver target = false)
      (gone : target ∉ (moment.world.manager m).registry.interruptible) :
      Attends m driver called moment (target :: later) later
  | calls {target : ThreadId} {later : List ThreadId}
      (only : ∀ other, moment.summons m driver other = decide (other = target)) :
      Attends m driver called moment (target :: later) later

/-- What has come of those whom a driver is to interrupt, when some of them are still pending. -/
structure Called (m : ManagerId) (driver : ThreadId) (called : List ThreadId) (moments : List Moment)
    (pending : List ThreadId) (v : World) : Prop where
  nodup : pending.Nodup
  ahead : ∀ target ∈ pending, target ∈ called ∧ moments.countP (·.summons m driver target) = 0
  once : ∀ target, moments.countP (·.summons m driver target) ≤ 1 ∧
    (moments.countP (·.summons m driver target) ≠ 0 → target ∈ called)
  all : ∀ target ∈ called, target ∈ pending ∨ moments.countP (·.summons m driver target) = 1 ∨
    ∃ thread, (thread, .removed (.manager m) target) ∈ observations moments
  /-- Nobody joins the members meanwhile. -/
  roll : ∀ target, target ∈ v.summoned m driver ↔
    target ∈ called ∧ ∀ thread, (thread, .removed (.manager m) target) ∉ observations moments

section

variable {m : ManagerId} {self thread driver target : ThreadId} {w v u : World} {frame : Frame}
  {rest below : List Frame} {effect : Effect} {notes : List Note} {moments : List Moment}
  {called pending : List ThreadId}

theorem Moment.summons_iff {move : Move} :
    (⟨w, move, notes⟩ : Moment).summons m driver target = true ↔ move = .run driver ∧
      ∃ i x p below, w.stack driver = .interruption i :: .visit x :: .pausing p :: below ∧
        i.target = target ∧ i.point = .raise ∧ p.manager = m := by
  unfold summons
  split
  · rename_i self i x p rest runs stands
    dsimp only at runs stands
    subst runs
    simp only [Bool.and_eq_true, decide_eq_true_eq, Move.run.injEq, stands]
    constructor
    · rintro ⟨⟨⟨rfl, own⟩, point⟩, manager⟩
      exact ⟨rfl, i, x, p, rest, rfl, own, point, manager⟩
    · rintro ⟨rfl, i', x', p', rest', same, own, point, manager⟩
      simp only [List.cons.injEq, Frame.interruption.injEq, Frame.visit.injEq,
        Frame.pausing.injEq] at same
      obtain ⟨rfl, rfl, rfl, rfl⟩ := same
      exact ⟨⟨⟨rfl, own⟩, point⟩, manager⟩
  · rename_i none
    refine ⟨by simp, ?_⟩
    rintro ⟨rfl, i, x, p, rest, stands, -⟩
    exact (none _ _ _ _ _ rfl stands).elim

/-- No other pause of the manager is past its gate above one that is on its way to the phases. -/
theorem Straight.no_inner {p q : Pausing} (straight : Straight m self (.pausing q :: rest))
    (manager : q.manager = m) (past : q.point ≠ .gate) (mem : .pausing p ∈ rest)
    (same : p.manager = m) : p.point.isPressing = false :=
  straight.not_pressing (by simp) (straight.1.2 manager past) mem same

theorem Frame.invalidating {k : Nat} (step : frame.advance self w = some effect)
    (mem : .invalidated m k ∈ effect.notes) :
    ∃ p, frame = .pausing p ∧ p.manager = m ∧ p.point = .invalidate := by
  cases frame with
  | start op => simpa [Note.isManaged] using (Op.plain (m := 0) step).2 _ mem
  | pausing p =>
    refine ⟨p, rfl, ?_⟩
    cases point : p.point <;> simp only [advance, Pausing.advance, point] at step
    case invalidate =>
      obtain rfl := Option.some.inj step
      exact ⟨(Note.invalidated.inj (List.mem_singleton.mp mem)).1.symm, rfl⟩
    case leaveGlobal =>
      split at step
      · obtain ⟨v, notes, leaves, rfl⟩ := World.leaves_of_bind step
        simpa [Note.isManaged] using (World.Spares.leaveGlobal leaves).2 _ mem
      · obtain rfl := Option.some.inj step
        simp at mem
    all_goals
      repeat' split at step
      all_goals
        obtain rfl := Option.some.inj step
        simp at mem
  | _ =>
    exfalso
    simp only [advance, Acquisition.advance, Acquisition.took, Acquisition.gaveUp, Release.advance,
      OwnedLock.advanceNotify, Arrival.advance, Sleeping.advance, Parking.advance,
      Interruption.advance, Enrolment.advance, Withdrawal.advance, Visit.advance, Script.advance,
      Sequence.advance, Drain.advance, Phases.advance, Resuming.advance, Polling.advance,
      Entering.advance, Leaving.advance, Foreign.advance, Acquiring.advance, Blocking.advance,
      Trial.advance] at step
    repeat' split at step
    all_goals first
      | (obtain ⟨v, notes, leaves, rfl⟩ := World.leaves_of_bind step
         simpa [Note.isManaged] using (World.Spares.leaveGlobal leaves).2 _ mem)
      | (obtain rfl := Option.some.inj step
         first
           | (simp at mem; done)
           | simpa [Note.isManaged] using (World.Spares.depart ‹_›).2 _ mem)
      | simp at step

/-- While a driver interrupts a thread, no step of its own but the first raises a flag for the pause. -/
theorem World.Warranted.not_summons {above : List Frame} {i : Interruption} {x : Visit} {p : Pausing}
    (warranted : w.Warranted m) (manager : p.manager = m) (raised : i.point ≠ .raise)
    (stack : w.stack driver = above ++ .interruption i :: .visit x :: .pausing p :: below)
    (target : ThreadId) :
    (⟨w, .run driver, notes⟩ : Moment).summons m driver target = false := by
  rw [Bool.eq_false_iff, Ne, Moment.summons_iff]
  rintro ⟨-, i', x', p', below', same, -, raise, manager'⟩
  have outer := (warranted.interrupting manager stack).1.1
  have inner := (warranted.interrupting manager' (show _ = [] ++ _ :: _ :: _ :: _ from same)).1.1
  have straight : Straight m driver (.pausing p' :: below') :=
    (same ▸ warranted.tended.straight driver).tail.tail
  rw [same] at stack
  match above with
  | [] =>
    obtain rfl := Frame.interruption.inj (List.cons.inj stack).1
    exact raised raise
  | [_] | [_, _] => simp at stack
  | _ :: _ :: _ :: above =>
    have deep : .pausing p ∈ below' := by
      simp only [List.cons_append, List.cons.injEq] at stack
      simp [stack]
    have idle := straight.no_inner manager' (by simp [inner]) deep manager
    simp [outer, Pausing.Point.isPressing] at idle

theorem World.Warranted.not_joining {above : List Frame} {p : Pausing}
    (warranted : w.Warranted m) (manager : p.manager = m) (pressing : p.point.isPressing = true)
    (stack : w.stack driver = frame :: (above ++ .pausing p :: below))
    (step : frame.advance driver w = some effect) : .joined m true ∉ effect.notes := by
  intro joins
  obtain ⟨_, _, _, _, drives⟩ | ⟨q, rfl, same, point, -⟩ := Frame.joining step joins
  · simp at drives
  · have straight : Straight m driver (.pausing q :: (above ++ .pausing p :: below)) :=
      stack ▸ warranted.tended.straight driver
    rw [straight.no_inner same (by simp [point]) (by simp) manager] at pressing
    simp at pressing

theorem World.Warranted.visiting {p : Pausing} {x : Visit} (warranted : w.Warranted m)
    (manager : p.manager = m) (stack : w.stack driver = .visit x :: .pausing p :: below) :
    x.Calls driver m ∧ p.point = .leaveGlobal ∧
      (w.manager m).settings.interruptBlocked = true := by
  have fitted : Fitted driver (.visit x :: .pausing p :: below) := stack ▸ warranted.fitted driver
  have straight : Straight m driver (.visit x :: .pausing p :: below) :=
    stack ▸ warranted.tended.straight driver
  have calls : x.Calls driver m := by
    obtain ⟨-, free⟩ | ⟨q, _, same, calls⟩ := fitted.1
    · exact absurd rfl (free p below)
    · obtain rfl := Frame.pausing.inj (List.cons.inj same).1
      exact manager ▸ calls
  exact ⟨calls, straight.2.1,
    (warranted.warrants driver (.visit x) (by simp [stack]) calls.registry).1⟩

namespace Summoning

variable {p : Pausing} {x : Visit} {i : Interruption}

theorem quiet (stack : w.stack driver = frame :: rest) (inner : ∀ i, frame ≠ .interruption i)
    (target : ThreadId) :
    (⟨w, .run driver, notes⟩ : Moment).summons m driver target = false := by
  rw [Bool.eq_false_iff, Ne, Moment.summons_iff]
  rintro ⟨-, i, _, _, _, same, -⟩
  exact inner i (List.cons.inj (stack.symm.trans same)).1

/-- The driver goes on to its next point. -/
theorem on (stack : w.stack driver = frame :: rest) (inner : ∀ i, frame ≠ .interruption i)
    (silent : .joined m true ∉ effect.notes)
    (summoning : Summoning m below called pending (effect.control.stack rest)) :
    (.joined m true ∈ effect.notes → pending = []) ∧
    (.joined m true ∈ effect.notes ∨ ∃ later,
      Summoning m below called later (effect.control.stack rest) ∧
      ∀ notes, (⟨w, .run driver, notes⟩ : Moment).Attends m driver called pending later) := by
  exact ⟨fun joins => absurd joins silent,
    .inr ⟨pending, summoning, fun notes => .keeps (quiet stack inner)⟩⟩

/-- The step of a driver that calls the others to its pause. -/
theorem step (warranted : w.Warranted m) (stack : w.stack driver = frame :: rest)
    (tame : isShaken (effect.control.stack rest) = false)
    (off : (w.manager m).settings.interruptBlocked = false → called = [])
    (summoning : Summoning m below called pending (frame :: rest))
    (step : frame.advance driver w = some effect) :
    (.joined m true ∈ effect.notes → pending = []) ∧
    (.joined m true ∈ effect.notes ∨ ∃ later,
      Summoning m below called later (effect.control.stack rest) ∧
      ∀ notes, (⟨w, .run driver, notes⟩ : Moment).Attends m driver called pending later) := by
  generalize whole : frame :: rest = frames at summoning
  cases summoning with
  | wakes manager point =>
    obtain ⟨rfl, rfl⟩ := List.cons.inj whole
    simp only [Frame.advance, Pausing.advance, point] at step
    obtain rfl := Option.some.inj step
    refine on stack (by simp) (by simp) (.notifies manager ?_)
    dsimp only
    split
    · exact .inl rfl
    · rename_i apart
      exact .inr ⟨rfl, off (by simpa [manager] using apart)⟩
  | notifies manager point =>
    obtain ⟨rfl, rfl⟩ := List.cons.inj whole
    simp only [Frame.advance, OwnedLock.advanceNotify] at step
    split at step
    · obtain rfl := Option.some.inj step
      refine on stack (by simp) (by simp) ?_
      obtain point | ⟨point, rfl⟩ := point
      · exact .turns manager point
      · exact .closes manager (.inl point)
    · simp at step
  | turns manager point =>
    obtain ⟨rfl, rfl⟩ := List.cons.inj whole
    simp only [Frame.advance, Pausing.advance, point] at step
    obtain rfl := Option.some.inj step
    exact on stack (by simp) (by simp) (.begins manager rfl)
  | @begins p x manager begin =>
    obtain ⟨rfl, rfl⟩ := List.cons.inj whole
    obtain ⟨calls, -, blocked⟩ := warranted.visiting manager stack
    simp only [Frame.advance, Visit.advance, begin] at step
    obtain rfl := Option.some.inj step
    refine ⟨by simp, .inr ⟨_, .visits manager (.inl rfl) rfl, fun notes => ?_⟩⟩
    have todo : ((w.registry x.registry).interruptible.filter fun identity =>
        x.except != some identity) = w.summoned m driver := by
      rw [calls.registry, calls.except, World.summoned, if_pos blocked]
      refine List.filter_congr fun identity _ => ?_
      rw [Bool.eq_iff_iff, bne_iff_ne, decide_eq_true_eq, Ne, Ne, Option.some.injEq]
      exact not_congr eq_comm
    dsimp only
    rw [todo]
    exact .begins (quiet stack (by simp))
  | @visits p x later manager point todo =>
    obtain ⟨rfl, rfl⟩ := List.cons.inj whole
    obtain ⟨⟨registry, except, interrupt, -, -⟩, leave, -⟩ := warranted.visiting manager stack
    obtain ⟨_, _, _, pending, seen, at_point⟩ := x
    dsimp only at registry except interrupt point todo
    subst registry except interrupt todo
    simp only [Frame.advance, Visit.advance] at step
    obtain rfl | ⟨target, rfl⟩ := point
    · cases pending with
      | nil =>
        obtain rfl := Option.some.inj step
        exact on stack (by simp) (by simp) (.closes manager (.inl leave))
      | cons identity later =>
        simp only [if_true] at step
        split at step <;> obtain rfl := Option.some.inj step
        · exact on stack (by simp) (by simp)
            (.raises (i := { target := identity }) manager rfl rfl)
        · rename_i gone
          refine ⟨by simp, .inr ⟨_, .visits manager (.inl rfl) rfl, fun notes => ?_⟩⟩
          exact .passes (quiet stack (by simp)) (by simpa [World.registry] using gone)
    · obtain rfl := Option.some.inj step
      exact on stack (by simp) (by simp) (.visits manager (.inl rfl) rfl)
  | @raises p x i later manager raise todo =>
    obtain ⟨rfl, rfl⟩ := List.cons.inj whole
    simp only [Frame.advance, Interruption.advance, raise] at step
    obtain rfl := Option.some.inj step
    refine ⟨by simp, .inr ⟨_, .calls [] manager (by simp) todo, fun notes => .calls ?_⟩⟩
    intro other
    simp only [Moment.summons, stack]
    simp [raise, manager, eq_comm]
  | @calls p x i above later manager raised todo =>
    have lies : w.stack driver = above ++ .interruption i :: .visit x :: .pausing p :: below :=
      stack.trans whole
    have still (notes : List Note) (target : ThreadId) :
        (⟨w, .run driver, notes⟩ : Moment).summons m driver target = false :=
      warranted.not_summons manager raised lies target
    obtain ⟨leave, -, released⟩ := (warranted.interrupting manager lies).1
    cases above with
    | nil =>
      obtain ⟨rfl, rfl⟩ := List.cons.inj whole
      have silent : .joined m true ∉ effect.notes :=
        warranted.not_joining manager (by simp [leave, Pausing.Point.isPressing])
          (show _ = _ :: ([.visit x] ++ .pausing p :: below) from lies) step
      refine ⟨fun joins => absurd joins silent, .inr ⟨pending, ?_, fun notes => .keeps (still notes)⟩⟩
      simp only [Frame.advance, Interruption.advance] at step
      split at step
      · exact absurd ‹_› raised
      · split at step <;> obtain rfl := Option.some.inj step
        · exact .calls [] manager (by simp) todo
        · exact .calls [_] manager (by simp) todo
        · exact .calls [_] manager (by simp) todo
      · obtain rfl := Option.some.inj step
        exact .visits manager (.inr ⟨_, released⟩) todo
    | cons top above =>
      obtain ⟨rfl, rfl⟩ := List.cons.inj (whole.trans (List.cons_append ..))
      have silent : .joined m true ∉ effect.notes :=
        warranted.not_joining manager (by simp [leave, Pausing.Point.isPressing])
          (show _ = _ :: ((above ++ [.interruption i, .visit x]) ++ .pausing p :: below) by simp [lies])
          step
      refine ⟨fun joins => absurd joins silent, .inr ⟨pending, ?_, fun notes => .keeps (still notes)⟩⟩
      obtain ⟨above', same⟩ | ⟨-, value, -, same⟩ | ⟨message, -, same⟩ :=
        effect.control.stack_append above (.interruption i) (.visit x :: .pausing p :: below)
      · rw [same]
        exact .calls above' manager raised todo
      · rw [same]
        exact .calls [] manager raised todo
      · rw [same] at tame
        simp [Frame.unwind, Frame.catch?, released, isShaken, Visit.Point.isAbandon] at tame
  | @closes p manager point =>
    obtain ⟨rfl, rfl⟩ := List.cons.inj whole
    refine ⟨fun _ => rfl, ?_⟩
    obtain point | point := point <;> simp only [Frame.advance, Pausing.advance, point] at step
    · split at step
      · obtain ⟨v, notes, leaves, rfl⟩ := World.leaves_of_bind step
        refine (on stack (by simp) ?_ (.closes (p := { p with point := .enterPhases }) manager
          (.inr rfl))).2
        exact fun joins => by simpa [Note.isManaged] using (World.Spares.leaveGlobal leaves).2 _ joins
      · obtain rfl := Option.some.inj step
        exact (on stack (by simp) (by simp) (.closes (p := { p with point := .enterPhases }) manager
          (.inr rfl))).2
    · obtain rfl := Option.some.inj step
      exact .inl (by simp [manager])

end Summoning

/-- The driver is on its way to the phases all the while. -/
theorem Summoning.pressing {stack : List Frame} (straight : Straight m driver stack)
    (summoning : Summoning m below called pending stack) :
    ∃ p, .pausing p ∈ stack ∧ p.manager = m ∧ p.point.isPressing = true := by
  have leaves {x : Visit} {p : Pausing} (straight : Straight m driver (.visit x :: .pausing p :: below)) :
      p.point.isPressing = true := by
    simp [show p.point = .leaveGlobal from straight.2.1, Pausing.Point.isPressing]
  cases summoning with
  | @wakes p manager point | @turns p manager point =>
    exact ⟨p, by simp, manager, by simp [point, Pausing.Point.isPressing]⟩
  | @notifies p lock manager point | @closes p manager point =>
    exact ⟨p, by simp, manager, by rcases point with point | point <;>
      simp [point, Pausing.Point.isPressing]⟩
  | @begins p x manager | @visits p x later manager =>
    exact ⟨p, by simp, manager, leaves straight⟩
  | @raises p x i later manager => exact ⟨p, by simp, manager, leaves straight.tail⟩
  | @calls p x i above later manager => exact ⟨p, by simp, manager, leaves straight.append.tail⟩

theorem Summoning.rouse {frame' : Frame} (rouses : frame.Rouses frame')
    (summoning : Summoning m below called pending (frame :: rest)) :
    Summoning m below called pending (frame' :: rest) := by
  generalize whole : frame :: rest = frames at summoning
  cases summoning with
  | @calls p x i above later manager raised todo =>
    cases above with
    | nil =>
      obtain ⟨rfl, -⟩ := List.cons.inj whole
      cases rouses
    | cons top above =>
      obtain ⟨rfl, rfl⟩ := List.cons.inj (whole.trans (List.cons_append ..))
      exact .calls (frame' :: above) manager raised todo
  | _ =>
    obtain ⟨rfl, -⟩ := List.cons.inj whole
    cases rouses

namespace World.Warranted

/-- While a driver is on its way to the phases, nobody registers with the manager. -/
theorem no_enrolment {p : Pausing} {e : Enrolment} (warranted : w.Warranted m)
    (mem : .pausing p ∈ w.stack driver) (manager : p.manager = m)
    (pressing : p.point.isPressing = true) (stack : w.stack self = .enrolment e :: rest) :
    e.registry ≠ .manager m := by
  intro registry
  have fitted : Fitted self (.enrolment e :: rest) := stack ▸ warranted.fitted self
  have straight : Straight m self (.enrolment e :: rest) := stack ▸ warranted.tended.straight self
  obtain ⟨d, below, rfl, same, -⟩ := fitted.1 m registry
  have point : d.point = .announce := straight.2.1
  have owner : (w.manager m).pauseLock.owner = some self :=
    (warranted.tended.owner self).mpr (by
      simp [stack, Frame.hold, same, point, Entering.Point.owns])
  obtain rfl := Option.some.inj (owner.symm.trans (warranted.owner_of_pressing mem manager pressing))
  have deep : .pausing p ∈ below := by simpa [stack] using mem
  have idle := straight.tail.not_pressing (by simp) (straight.tail.1 same (by simp [point])) deep manager
  rw [pressing] at idle
  simp at idle

/-- While a driver is on its way to the phases, those whom it is to interrupt get fewer only, as they
leave. -/
theorem summoned_move {p : Pausing} {move : Move} (warranted : w.Warranted m)
    (mem : .pausing p ∈ w.stack driver) (manager : p.manager = m)
    (pressing : p.point.isPressing = true) (moves : w.move move = some (v, notes)) :
    target ∈ v.summoned m driver ↔ target ∈ w.summoned m driver ∧
      ∀ thread, (thread, .removed (.manager m) target) ∉ (⟨w, move, notes⟩ : Moment).observed := by
  have settings : (v.manager m).settings = (w.manager m).settings :=
    congrArg (·.2.2) (World.setup_move moves)
  have members (entry : Registration) : entry ∈ (v.manager m).registry.members ↔
      entry ∈ (w.manager m).registry.members ∧ ∀ thread,
        (thread, .removed (.manager m) entry.identity) ∉ (⟨w, move, notes⟩ : Moment).observed := by
    by_cases runs : ∃ self, move = .run self
    · obtain ⟨self, rfl⟩ := runs
      obtain ⟨frame, rest, effect, stack, step, rfl, rfl⟩ := World.step_eq_some moves
      rw [World.manager_setStack]
      have stepped : entry ∈ (effect.world.registry (.manager m)).members ↔ _ :=
        World.mem_members_step stack step entry
      refine stepped.trans ?_
      have apart : ¬ (⟨w, .run self, effect.notes ++ effect.control.completion rest⟩ : Moment).Adds
          (.manager m) entry := by
        rw [Moment.adds_iff stack]
        rintro rfl
        exact warranted.no_enrolment mem manager pressing stack rfl
      rw [or_iff_right apart]
      refine and_congr_right fun _ => ⟨fun none thread told => ?_, fun never told => ?_⟩
      · exact none (Moment.mem_observed.mp told).2
      · exact never self (Moment.mem_observed.mpr ⟨rfl, told⟩)
    · have idle (thread : ThreadId) : move ≠ .run thread := fun same => runs ⟨thread, same⟩
      rw [World.manager_idle moves idle]
      simp [Moment.mem_observed, idle]
  unfold World.summoned
  rw [settings]
  split
  · simp only [Registry.interruptible, List.mem_filter, List.mem_map, members]
    constructor
    · rintro ⟨⟨entry, ⟨⟨old, kept⟩, allows⟩, rfl⟩, other⟩
      exact ⟨⟨⟨entry, ⟨old, allows⟩, rfl⟩, other⟩, kept⟩
    · rintro ⟨⟨⟨entry, ⟨old, allows⟩, rfl⟩, other⟩, kept⟩
      exact ⟨⟨entry, ⟨⟨old, kept⟩, allows⟩, rfl⟩, other⟩
  · simp

end World.Warranted

namespace Called

theorem start (distinct : (v.summoned m driver).Nodup) :
    Called m driver (v.summoned m driver) [] (v.summoned m driver) v where
  nodup := distinct
  ahead target mem := ⟨mem, rfl⟩
  once target := by simp
  all target mem := .inl mem
  roll target := by simp

/-- A move that makes of the pending ones what it may. -/
theorem move {moment : Moment} {later : List ThreadId}
    (counted : Called m driver called moments pending moment.world)
    (attends : moment.Attends m driver called pending later)
    (distinct : (moment.world.summoned m driver).Nodup)
    (roll : ∀ target, target ∈ v.summoned m driver ↔ target ∈ moment.world.summoned m driver ∧
      ∀ thread, (thread, .removed (.manager m) target) ∉ moment.observed) :
    Called m driver called (moments ++ [moment]) later v := by
  have rolled (target : ThreadId) : target ∈ v.summoned m driver ↔ target ∈ called ∧
      ∀ thread, (thread, .removed (.manager m) target) ∉ observations (moments ++ [moment]) := by
    rw [roll, counted.roll]
    simp only [observations_append, observations_cons, observations_nil, List.append_nil,
      List.mem_append, not_or, forall_and, and_assoc]
  -- who has left before is gone
  have gone (target : ThreadId) (mem : target ∈ called)
      (absent : target ∉ moment.world.summoned m driver) :
      ∃ thread, (thread, .removed (.manager m) target) ∈ observations moments := by
    by_contra never
    exact absent ((counted.roll target).mpr ⟨mem, fun thread told => never ⟨thread, told⟩⟩)
  have counts (target : ThreadId) : (moments ++ [moment]).countP (·.summons m driver target) =
      moments.countP (·.summons m driver target) +
        if moment.summons m driver target then 1 else 0 := by
    rw [List.countP_append, List.countP_singleton]
  have more {target : ThreadId}
      (told : ∃ thread, (thread, .removed (.manager m) target) ∈ observations moments) :
      ∃ thread, (thread, Note.removed (.manager m) target) ∈ observations (moments ++ [moment]) := by
    obtain ⟨thread, told⟩ := told
    exact ⟨thread, by simp [told]⟩
  -- a move that interrupts nobody
  have silent {next : List ThreadId} (none : ∀ target, moment.summons m driver target = false)
      (nodup : next.Nodup) (fewer : ∀ target ∈ next, target ∈ pending)
      (rest : ∀ target ∈ called, target ∈ pending → target ∉ next →
        ∃ thread, (thread, .removed (.manager m) target) ∈ observations moments) :
      Called m driver called (moments ++ [moment]) next v := by
    have same (target : ThreadId) : (moments ++ [moment]).countP (·.summons m driver target) =
        moments.countP (·.summons m driver target) := by
      simp [counts, none]
    refine ⟨nodup, fun target mem => ?_, fun target => ?_, fun target mem => ?_, rolled⟩
    · rw [same]
      exact counted.ahead target (fewer target mem)
    · rw [same]
      exact counted.once target
    · rw [same]
      by_cases ahead : target ∈ next
      · exact .inl ahead
      · obtain pends | once | left := counted.all target mem
        · exact .inr (.inr (more (rest target mem pends ahead)))
        · exact .inr (.inl once)
        · exact .inr (.inr (more left))
  cases attends with
  | keeps none => exact silent none counted.nodup (fun _ => id) fun _ _ pends apart => absurd pends apart
  | begins none =>
    exact silent none distinct (fun target mem => ((counted.roll target).mp mem).1)
      fun target mem _ absent => gone target mem absent
  | @passes target later none absent =>
    refine silent none counted.nodup.of_cons (fun other mem => List.mem_cons_of_mem _ mem) ?_
    intro other mem pends apart
    obtain rfl : other = target := (List.mem_cons.mp pends).resolve_right apart
    refine gone other mem fun listed => absent ?_
    unfold World.summoned at listed
    split at listed
    · exact (List.mem_filter.mp listed).1
    · simp at listed
  | @calls target later only =>
    obtain ⟨apart, nodup⟩ := List.nodup_cons.mp counted.nodup
    obtain ⟨mem, zero⟩ := counted.ahead target List.mem_cons_self
    have count (other : ThreadId) : (moments ++ [moment]).countP (·.summons m driver other) =
        if other = target then 1 else moments.countP (·.summons m driver other) := by
      rw [counts, only]
      by_cases same : other = target
      · subst same
        simp [zero]
      · simp [same]
    refine ⟨nodup, fun other ahead => ?_, fun other => ?_, fun other listed => ?_, rolled⟩
    · rw [count, if_neg fun same : other = target => apart (same ▸ ahead)]
      exact counted.ahead other (List.mem_cons_of_mem _ ahead)
    · rw [count]
      split
      · rename_i same
        exact ⟨le_rfl, fun _ => same ▸ mem⟩
      · exact counted.once other
    · rw [count]
      split
      · exact .inr (.inl rfl)
      · rename_i other_target
        obtain pends | once | left := counted.all other listed
        · exact .inl ((List.mem_cons.mp pends).resolve_left other_target)
        · exact .inr (.inl once)
        · exact .inr (.inr (more left))

end Called

theorem World.summoned_nodup (enrolled : Enrolled (.manager m) w) : (w.summoned m driver).Nodup := by
  unfold World.summoned
  split
  · exact (List.Nodup.sublist (List.filter_sublist.map _) enrolled.distinct).filter _
  · exact List.nodup_nil

/-- As long as the driver does not come to the phases, it interrupts those whom it has to. -/
theorem Course.summoning {x : World} {p : Pausing} (course : Course Tame x moments v)
    (warranted : x.Warranted m) (enrolled : Enrolled (.manager m) x)
    (stack : x.stack driver = .pausing p :: below) (manager : p.manager = m)
    (point : p.point = .wakeWaiters) (on : (driver, .joined m true) ∉ observations moments) :
    v.Warranted m ∧ Enrolled (.manager m) v ∧ ∃ pending,
      Summoning m below (x.summoned m driver) pending (v.stack driver) ∧
      Called m driver (x.summoned m driver) moments pending v := by
  induction course with
  | nil =>
    exact ⟨warranted, enrolled, _, stack ▸ .wakes manager point,
      .start (World.summoned_nodup enrolled)⟩
  | @snoc moments v u move notes course tame moves ih =>
    rw [observations_append, List.mem_append, not_or] at on
    obtain ⟨warranted, enrolled, pending, summoning, counted⟩ := ih on.1
    refine ⟨warranted.move tame moves, enrolled.move warranted.laid moves, ?_⟩
    obtain ⟨q, mem, same, pressing⟩ := summoning.pressing (warranted.tended.straight driver)
    have roll (target : ThreadId) : target ∈ u.summoned m driver ↔ _ :=
      warranted.summoned_move mem same pressing moves
    have goes {later : List ThreadId}
        (attends : (⟨v, move, notes⟩ : Moment).Attends m driver (x.summoned m driver) pending later) :
        Called m driver (x.summoned m driver) (moments ++ [⟨v, move, notes⟩]) later u :=
      counted.move attends (World.summoned_nodup enrolled) roll
    by_cases own : move = .run driver
    · subst own
      obtain ⟨frame, rest, effect, stack', step, rfl, rfl⟩ := World.step_eq_some moves
      rw [World.stack_setStack, if_pos rfl]
      have steady : isShaken (effect.control.stack rest) = false := by
        simpa [World.stack_setStack] using tame driver rfl _ _ moves
      have settings : (v.manager m).settings = (x.manager m).settings :=
        congrArg (·.2.2) course.setup
      have off : (v.manager m).settings.interruptBlocked = false → x.summoned m driver = [] :=
        fun off => if_neg (by simp [← settings, off])
      obtain ⟨-, joins | ⟨later, next, attends⟩⟩ :=
        Summoning.step warranted stack' steady off (stack' ▸ summoning) step
      · exact absurd (by simp [joins]) on.2
      · exact ⟨later, next, goes (attends _)⟩
    · have quiet (target : ThreadId) :
          (⟨v, move, notes⟩ : Moment).summons m driver target = false := by
        rw [Bool.eq_false_iff, Ne, Moment.summons_iff]
        exact fun runs => own runs.1
      refine ⟨pending, ?_, goes (.keeps quiet)⟩
      obtain ⟨-, same | ⟨op, idle, -⟩ | ⟨frame, frame', rest, before, after, rouses⟩⟩ :=
        World.move_other moves own
      · exact same ▸ summoning
      · simp [idle] at mem
      · rw [after]
        rw [before] at summoning
        exact summoning.rouse rouses

end

end StopTheWorld
