import StopTheWorld.Proofs.Enrolled
import StopTheWorld.Proofs.Fitting
import StopTheWorld.Proofs.Locks
import StopTheWorld.Proofs.Released

namespace StopTheWorld

/-! What a call of a thread is like from its first step to its reply, and what a thread that registers
itself can count on meanwhile, whatever user code does. -/

/-- The moments are those of a call, up to some point of it: with the first, made in this world, the
thread takes the first step of it. -/
structure Begun (thread : ThreadId) (opening base : List Frame) (x : World)
    (call : List Moment) : Prop where
  opens : ∃ notes later, call = ⟨x, .run thread, notes⟩ :: later
  stack : x.stack thread = opening ++ base
  within : ∀ moment ∈ call, base.length < (moment.world.stack thread).length

/-- The moments are those of a call, and with the last the call replies to what stands below. -/
structure Spans (thread : ThreadId) (opening base : List Frame) (value : Reply) (x : World)
    (call : List Moment) : Prop extends Begun thread opening base x call where
  replies : ∃ earlier last, call = earlier ++ [last] ∧ last.Replies thread base value

/-- A step of the thread changes nothing but its own stack. -/
def Moment.Untouched (thread : ThreadId) (moment : Moment) : Prop :=
  moment.move = .run thread → ∃ stack,
    moment.world.move moment.move = some (moment.world.setStack thread stack, moment.notes)

/-- The thread neither owns the pause lock of the manager nor is inside of a pause. -/
structure World.Clear (m : ManagerId) (thread : ThreadId) (w : World) : Prop where
  free : (w.manager m).pauseLock.owner ≠ some thread
  unmarked : (w.thread thread).inPause = false

def World.isRegistered (w : World) (m : ManagerId) (thread : ThreadId) : Bool :=
  (w.manager m).registry.contains thread

/-- A thread that may do so registers itself, in a procedure that stands on `parent`. -/
inductive Registering (m : ManagerId) (self : ThreadId) (parent : Frame) (base : List Frame)
    (w : World) : List Frame → Prop
  | waits {e : Entering} (manager : e.manager = m)
      (point : e.point = .gate ∨ e.point = .lookup ∨ e.point = .lock) (clear : w.Clear m self) :
      Registering m self parent base w (.entering e :: parent :: base)
  | takes {a : Acquisition} {e : Entering} (manager : e.manager = m) (point : e.point = .enrol)
      (patience : a.patience = .uninterruptible) (unmarked : (w.thread self).inPause = false) :
      Registering m self parent base w (.acquisition a :: .entering e :: parent :: base)
  | owns {e : Entering} (manager : e.manager = m) (point : e.point = .enrol)
      (unmarked : (w.thread self).inPause = false) :
      Registering m self parent base w (.entering e :: parent :: base)
  | enrols {x : Enrolment} {e : Entering} (manager : e.manager = m) (point : e.point = .announce)
      (registry : x.registry = .manager m) (own : x.entry.identity = self)
      (unmarked : (w.thread self).inPause = false) :
      Registering m self parent base w (.enrolment x :: .entering e :: parent :: base)
  | listed {e : Entering} (manager : e.manager = m) (point : e.point = .announce ∨ e.point = .unlock)
      (unmarked : (w.thread self).inPause = false) (listed : w.isRegistered m self = true) :
      Registering m self parent base w (.entering e :: parent :: base)
  | clears {added : Bool} (unmarked : (w.thread self).inPause = false)
      (listed : w.isRegistered m self = true) : Registering m self parent base w
        (.release (.pause m) .clear :: .answer (.succeeded (.truth added)) :: parent :: base)
  | notifies {added : Bool} (clear : w.Clear m self) (listed : w.isRegistered m self = true) :
      Registering m self parent base w
        (.release (.pause m) .notify :: .answer (.succeeded (.truth added)) :: parent :: base)
  | answers {added : Bool} (clear : w.Clear m self) (listed : w.isRegistered m self = true) :
      Registering m self parent base w (.answer (.succeeded (.truth added)) :: parent :: base)

section

variable {m : ManagerId} {self thread : ThreadId} {w v : World} {frame parent : Frame}
  {rest above base : List Frame} {effect : Effect} {notes : List Note} {moments : List Moment}

@[simp] theorem World.clear_setStack {stack : List Frame} :
    (w.setStack thread stack).Clear m self ↔ w.Clear m self := by
  have mark : ((w.setStack thread stack).thread self).inPause = (w.thread self).inPause := by
    rw [World.thread_setStack]
    split
    · rename_i same
      rw [same]
    · rfl
  exact ⟨fun clear => ⟨clear.free, mark ▸ clear.unmarked⟩,
    fun clear => ⟨clear.free, mark.symm ▸ clear.unmarked⟩⟩

@[simp] theorem World.isRegistered_setStack {stack : List Frame} :
    (w.setStack thread stack).isRegistered m self = w.isRegistered m self := rfl

/-- What holds once a call has taken its first step and holds on from move to move goes on holding for
as long as the call lasts. -/
theorem Begun.lasts {custom : World → ThreadId → Prop} {opening : List Frame} {x : World}
    {pre call post : List Moment} {P : World → Prop} (begun : Begun thread opening base x call)
    (course : Course custom w moments v) (idle : ∀ thread, w.stack thread = [])
    (parts : moments = pre ++ (call ++ post))
    (starts : ∀ {next : World} {notes : List Note}, x.step thread = some (next, notes) →
      base.length < (next.stack thread).length → P next)
    (keeps : ∀ {y z : World} {move : Move} {notes : List Note}, y.IsFitted → P y →
      y.move move = some (z, notes) → base.length < (z.stack thread).length → P z) :
    ∃ first later next, call = first :: later ∧ first.world = x ∧ first.move = .run thread ∧
      x.step thread = some (next, first.notes) ∧ ∀ moment ∈ later, P moment.world := by
  obtain ⟨notes, later, rfl⟩ := begun.opens
  rw [List.cons_append] at parts
  obtain ⟨next, before, allowed, moved, after⟩ := course.split parts
  have fits := before.isFitted idle
  obtain ⟨z, during, -⟩ := after.cut rfl
  refine ⟨_, later, next, rfl, rfl, rfl, moved, fun moment mem => ?_⟩
  obtain ⟨early, late, rfl⟩ := List.append_of_mem mem
  obtain ⟨-, reach, -, -, -⟩ := during.split rfl
  have within : ∀ moment ∈ early, base.length < (moment.world.stack thread).length :=
    fun moment mem => begun.within moment (by simp [mem])
  have on : base.length < (moment.world.stack thread).length := begun.within moment (by simp)
  have fits : next.IsLaid ∧ next.IsFitted := ⟨fits.1.move moved, fits.2.move fits.1 moved⟩
  clear during begun parts mem after course
  revert on
  generalize moment.world = u at reach
  suffices (u.IsLaid ∧ u.IsFitted) ∧ (base.length < (u.stack thread).length → P u) from this.2
  induction reach with
  | nil => exact ⟨fits, starts moved⟩
  | @snoc part y z move notes part_course allowed moves ih =>
    obtain ⟨fits, holds⟩ := ih fun moment mem => within moment (List.mem_append_left _ mem)
    have on : base.length < (y.stack thread).length :=
      within ⟨y, move, notes⟩ (List.mem_append_right _ List.mem_cons_self)
    exact ⟨⟨fits.1.move moves, fits.2.move fits.1 moves⟩, keeps fits.2 (holds on) moves⟩

theorem World.isReentrant_eq_false_iff :
    w.isReentrant m self = false ↔ w.Clear m self := by
  unfold World.isReentrant OwnedLock.isHeldBy
  rw [Bool.or_eq_false_iff, decide_eq_false_iff_not]
  exact ⟨fun ⟨free, unmarked⟩ => ⟨free, unmarked⟩, fun clear => ⟨clear.free, clear.unmarked⟩⟩

/-- Nobody else takes the pause lock on behalf of the thread, or marks it. -/
theorem World.Clear.other {move : Move} (clear : w.Clear m self) (fitted : w.IsFitted)
    (moves : w.move move = some (v, notes)) (other : move ≠ .run self) : v.Clear m self := by
  refine ⟨?_, (World.move_other moves other).1 ▸ clear.unmarked⟩
  by_cases runs : ∃ thread, move = .run thread
  · obtain ⟨thread, rfl⟩ := runs
    obtain ⟨frame, rest, effect, stack, step, rfl, -⟩ := World.step_eq_some moves
    rw [World.manager_setStack]
    have fitted : Fitted thread (frame :: rest) := stack ▸ fitted thread
    have apart : thread ≠ self := fun same => other (same ▸ rfl)
    have free : ((w.lock (.pause m)).owner) ≠ some self := clear.free
    suffices (effect.world.lock (.pause m)).owner ≠ some self from this
    have handles : effect.Handles (.pause m) thread w frame := Frame.handles step
    cases handles with
    | keeps same => rw [same]; exact free
    | takes top own _ _ _ same =>
      subst top
      rw [same, OwnedLock.take_owner, fitted.1 m own]
      simpa using apart
    | tries _ own | leaves own => simp at own
    | enters _ _ _ _ _ same | exits _ _ _ same | awaits _ _ _ _ same | notifies same =>
      rw [same]
      exact free
    | clears _ _ same =>
      rw [same]
      simp
  · rw [(World.Minds.move moves fun thread same => runs ⟨thread, same⟩).owner]
    exact clear.free

/-- Nobody else registers the thread or deregisters it. -/
theorem World.isRegistered_other {move : Move} (fitted : w.IsFitted)
    (moves : w.move move = some (v, notes)) (other : move ≠ .run self) :
    v.isRegistered m self = w.isRegistered m self := by
  by_cases runs : ∃ thread, move = .run thread
  · obtain ⟨thread, rfl⟩ := runs
    obtain ⟨frame, rest, effect, stack, step, rfl, -⟩ := World.step_eq_some moves
    have fitted : Fitted thread (frame :: rest) := stack ▸ fitted thread
    have apart : self ≠ thread := fun same => other (same ▸ rfl)
    suffices (effect.world.registry (.manager m)).contains self =
        (w.registry (.manager m)).contains self from this
    rw [Bool.eq_iff_iff, Registry.contains_iff, Registry.contains_iff]
    cases Frame.enrols (.manager m) step with
    | keeps roll =>
      unfold Registry.identities
      rw [(Registry.roll_eq_iff.mp roll).1]
    | claims _ _ _ world =>
      rw [world, World.registry_modifyRegistry, if_pos rfl]
      rfl
    | departs _ _ _ roll =>
      unfold Registry.identities
      rw [(Prod.mk.inj roll).1]
    | inserts top world =>
      subst top
      obtain ⟨e, below, -, -, entry⟩ := fitted.1 m rfl
      dsimp only at entry
      rw [world, World.registry_modifyRegistry, if_pos rfl, Registry.identities_insert, entry]
      simp [apart]
    | removes top _ world =>
      subst top
      have own := (fitted.1 m rfl).1
      dsimp only at own
      subst own
      rw [world, World.registry_modifyRegistry, if_pos rfl, Registry.identities_remove]
      simp [apart]
  · have idle : (v.registry (.manager m)).roll = (w.registry (.manager m)).roll :=
      World.roll_other moves fun thread same => runs ⟨thread, same⟩
    suffices (v.registry (.manager m)).contains self = (w.registry (.manager m)).contains self from
      this
    unfold Registry.contains
    rw [(Registry.roll_eq_iff.mp idle).1]

namespace Registering

theorem not_rouses {frame' : Frame} (registering : Registering m self parent base w (frame :: rest)) :
    ¬ frame.Rouses frame' := by
  rintro rouses
  cases rouses <;> cases registering

/-- What other threads do leaves a registration where it is. -/
theorem other {move : Move} (registering : Registering m self parent base w (w.stack self))
    (fitted : w.IsFitted) (moves : w.move move = some (v, notes)) (other : move ≠ .run self) :
    Registering m self parent base v (v.stack self) := by
  have stays : v.stack self = w.stack self := by
    obtain ⟨-, same | ⟨op, idle, -⟩ | ⟨frame, frame', rest, before, -, rouses⟩⟩ :=
      World.move_other moves other
    · exact same
    · rw [idle] at registering
      cases registering
    · rw [before] at registering
      exact absurd rouses registering.not_rouses
  have mark : (v.thread self).inPause = (w.thread self).inPause := (World.move_other moves other).1
  have listed : v.isRegistered m self = w.isRegistered m self :=
    World.isRegistered_other fitted moves other
  rw [stays]
  generalize w.stack self = stack at registering
  cases registering with
  | waits manager point clear => exact .waits manager point (clear.other fitted moves other)
  | takes manager point patience unmarked => exact .takes manager point patience (mark ▸ unmarked)
  | owns manager point unmarked => exact .owns manager point (mark ▸ unmarked)
  | enrols manager point registry own unmarked =>
    exact .enrols manager point registry own (mark ▸ unmarked)
  | listed manager point unmarked present =>
    exact .listed manager point (mark ▸ unmarked) (listed ▸ present)
  | clears unmarked present => exact .clears (mark ▸ unmarked) (listed ▸ present)
  | notifies clear present => exact .notifies (clear.other fitted moves other) (listed ▸ present)
  | answers clear present => exact .answers (clear.other fitted moves other) (listed ▸ present)

/-- A thread that registers goes on with that, or is done and registered. -/
theorem step (registering : Registering m self parent base w (w.stack self))
    (step : w.step self = some (v, notes)) :
    Registering m self parent base v (v.stack self) ∨
      (v.Clear m self ∧ v.isRegistered m self = true) ∧ ∃ added,
        v.stack self = parent.resume (.succeeded (.truth added)) :: base := by
  obtain ⟨frame, rest, effect, stack, advances, rfl, -⟩ := World.step_eq_some step
  rw [stack] at registering
  rw [World.stack_setStack, if_pos rfl]
  generalize whole : frame :: rest = frames at registering
  have marked {u : World} (same : (u.thread self).inPause = (w.thread self).inPause)
      (stack : List Frame) (unmarked : (w.thread self).inPause = false) :
      ((u.setStack self stack).thread self).inPause = false := by
    rw [World.thread_setStack, if_pos rfl]
    exact same.trans unmarked
  cases registering with
  | @waits e manager point clear =>
    obtain ⟨rfl, rfl⟩ := List.cons.inj whole
    obtain point | point | point := point <;>
      simp only [Frame.advance, Entering.advance, point] at advances
    · rw [manager, World.isReentrant_eq_false_iff.mpr clear] at advances
      obtain rfl := Option.some.inj advances
      exact .inl (.waits rfl (.inr (.inl rfl)) (World.clear_setStack.mpr clear))
    · split at advances <;> obtain rfl := Option.some.inj advances
      · refine .inr ⟨⟨World.clear_setStack.mpr clear, ?_⟩, false, rfl⟩
        rw [World.isRegistered_setStack]
        exact manager ▸ ‹_›
      · exact .inl (.waits manager (.inr (.inr rfl)) (World.clear_setStack.mpr clear))
    · obtain rfl := Option.some.inj advances
      exact .inl (.takes manager rfl rfl (marked rfl _ clear.unmarked))
  | @takes a e manager point patience unmarked =>
    obtain ⟨rfl, rfl⟩ := List.cons.inj whole
    cases Acquisition.goes advances with
    | takes _ _ _ _ done =>
      obtain ⟨-, rfl⟩ | ⟨patient, -⟩ := done
      · exact .inl (.owns manager point (marked (by simp) _ unmarked))
      · exact absurd patience patient
    | sleeps => exact .inl (.takes manager point patience (marked (by simp) _ unmarked))
    | installs patient | obeys patient | looks patient | yields patient | stays patient
    | restores patient => simp [patience] at patient
    | enters patient | awaits patient => exact absurd patience patient
  | @owns e manager point unmarked =>
    obtain ⟨rfl, rfl⟩ := List.cons.inj whole
    simp only [Frame.advance, Entering.advance, point] at advances
    obtain rfl := Option.some.inj advances
    exact .inl (.enrols manager rfl (manager ▸ rfl) rfl (marked rfl _ unmarked))
  | @enrols x e manager point registry own unmarked =>
    obtain ⟨rfl, rfl⟩ := List.cons.inj whole
    simp only [Frame.advance, Enrolment.advance, registry, own] at advances
    split at advances
    · split at advances
      · simp at advances
      · split at advances
        · rename_i present
          obtain rfl := Option.some.inj advances
          exact .inl (.listed (e := { e with added := false }) manager (.inl point)
            (marked rfl _ unmarked) present)
        · obtain rfl := Option.some.inj advances
          exact .inl (.enrols manager point rfl own (marked (by simp) _ unmarked))
    · obtain rfl := Option.some.inj advances
      refine .inl (.listed (e := { e with added := true }) manager (.inl point)
        (marked (by simp) _ unmarked) ?_)
      rw [World.isRegistered_setStack]
      unfold World.isRegistered
      rw [World.manager_modifyRegistry, if_pos rfl, Registry.contains_iff, Registry.identities_insert]
      simp [own]
  | @listed e manager point unmarked present =>
    obtain ⟨rfl, rfl⟩ := List.cons.inj whole
    obtain point | point := point <;> simp only [Frame.advance, Entering.advance, point] at advances
    · split at advances <;> obtain rfl := Option.some.inj advances
      · refine .inl (.listed manager (.inr rfl) (marked (by simp) _ unmarked) ?_)
        rw [World.isRegistered_setStack]
        unfold World.isRegistered World.publish
        rw [World.manager_modifyManager]
        split
        · rename_i same
          exact same ▸ present
        · exact present
      · exact .inl (.listed manager (.inr rfl) (marked rfl _ unmarked) present)
    · obtain rfl := Option.some.inj advances
      subst manager
      exact .inl (.clears (marked rfl _ unmarked) present)
  | @clears added unmarked present =>
    obtain ⟨rfl, rfl⟩ := List.cons.inj whole
    simp only [Frame.advance, Release.advance] at advances
    split at advances
    · obtain rfl := Option.some.inj advances
      refine .inl (.notifies (World.clear_setStack.mpr ⟨?_, by simpa using unmarked⟩) ?_)
      · rw [World.manager_modifyLock, if_pos rfl]
        simp
      · rw [World.isRegistered_setStack]
        unfold World.isRegistered
        rw [World.manager_modifyLock, if_pos rfl]
        exact present
    · simp at advances
  | @notifies added clear present =>
    obtain ⟨rfl, rfl⟩ := List.cons.inj whole
    simp only [Frame.advance, Release.advance] at advances
    obtain rfl := Option.some.inj advances
    refine .inl (.answers (World.clear_setStack.mpr ⟨?_, by simpa using clear.unmarked⟩) ?_)
    · rw [World.manager_modifyLock, if_pos rfl]
      exact clear.free
    · rw [World.isRegistered_setStack]
      unfold World.isRegistered
      rw [World.manager_modifyLock, if_pos rfl]
      exact present
  | @answers added clear present =>
    obtain ⟨rfl, rfl⟩ := List.cons.inj whole
    obtain rfl := Option.some.inj advances
    exact .inr ⟨⟨World.clear_setStack.mpr clear, present⟩, added, rfl⟩

end Registering

end

end StopTheWorld
