import StopTheWorld.Proofs.Enrolled
import StopTheWorld.Proofs.Fitting
import StopTheWorld.Proofs.PauseEvents
import StopTheWorld.Proofs.Setup

namespace StopTheWorld

/-! What only the owner of a pause lock changes: the epoch and the action of its manager, and which of the
members a visit stands at. -/

namespace Frame

/-- The step of the frame may change the epoch of the manager, or its action. -/
def rewrites (m : ManagerId) : Frame → Bool
  | pausing p =>
    p.manager = m && (p.point = .store || p.point = .invalidate || p.point = .clear)
  | phases p => p.manager = m && p.point = .republish
  | _ => false

/-- The frame goes through the members of the manager. -/
def visits (m : ManagerId) : Frame → Bool
  | visit v => v.registry = .manager m
  | _ => false

end Frame

/-- The driver has stored its action, and has not come to the phases yet. -/
def Pausing.Point.isPressing : Pausing.Point → Bool
  | invalidate | wakeWaiters | interrupt | leaveGlobal | enterPhases => true
  | _ => false

/-- What a step leaves of the manager as it was. -/
structure Effect.Reserves (m : ManagerId) (w : World) (frame : Frame) (effect : Effect) : Prop where
  epoch : frame.rewrites m = false → (effect.world.manager m).epoch = (w.manager m).epoch
  action : frame.rewrites m = false → (effect.world.manager m).action = (w.manager m).action
  held : frame.visits m = false →
    (effect.world.manager m).registry.held = (w.manager m).registry.held

section

variable {m : ManagerId} {self thread : ThreadId} {w v : World} {frame parent : Frame}
  {rest stack : List Frame} {effect : Effect} {notes : List Note} {moments : List Moment}

theorem Effect.Reserves.of_manager (same : effect.world.manager m = w.manager m) :
    effect.Reserves m w frame :=
  ⟨fun _ => by rw [same], fun _ => by rw [same], fun _ => by rw [same]⟩

theorem Effect.Reserves.of_modify {n : ManagerId} {f : Manager → Manager}
    (world : effect.world = w.modifyManager n f)
    (epoch : n = m → frame.rewrites m = false → (f (w.manager m)).epoch = (w.manager m).epoch)
    (action : n = m → frame.rewrites m = false → (f (w.manager m)).action = (w.manager m).action)
    (held : n = m → frame.visits m = false →
      (f (w.manager m)).registry.held = (w.manager m).registry.held) :
    effect.Reserves m w frame := by
  by_cases same : n = m
  · subst same
    have modified : effect.world.manager n = f (w.manager n) := by
      rw [world, World.manager_modifyManager, if_pos rfl]
    exact ⟨fun apart => modified ▸ epoch rfl apart, fun apart => modified ▸ action rfl apart,
      fun apart => modified ▸ held rfl apart⟩
  · exact .of_manager (by rw [world, World.manager_modifyManager, if_neg (Ne.symm same)])

theorem Effect.Reserves.of_lock {lock : LockRef} {f : OwnedLock → OwnedLock}
    (world : effect.world.manager m = (w.modifyLock lock f).manager m) : effect.Reserves m w frame := by
  have kept : (w.modifyLock lock f).manager m =
      { w.manager m with pauseLock := ((w.modifyLock lock f).manager m).pauseLock } := by
    rw [World.manager_modifyLock]
    split <;> rfl
  exact ⟨fun _ => by rw [world, kept], fun _ => by rw [world, kept], fun _ => by rw [world, kept]⟩

theorem Effect.Reserves.of_registry {ref : RegistryRef} {f : Registry → Registry} {control : Control}
    (held : ref = .manager m → frame.visits m = false →
      (f (w.manager m).registry).held = (w.manager m).registry.held) :
    (Effect.mk (w.modifyRegistry ref f) control notes).Reserves m w frame := by
  by_cases same : ref = .manager m
  · subst same
    exact .of_modify rfl (fun _ _ => rfl) (fun _ _ => rfl) fun _ => held rfl
  · exact .of_manager (by rw [World.manager_modifyRegistry, if_neg same])

theorem Effect.Reserves.of_phaser {phaser : PhaserRef} {value : Phaser}
    (world : effect.world = w.setPhaser phaser value) : effect.Reserves m w frame := by
  cases phaser with
  | loose => exact .of_manager (by rw [world]; rfl)
  | registry ref =>
    cases effect
    subst world
    exact .of_registry (f := (·.setPhaser value)) fun _ _ => rfl

theorem Effect.Reserves.of_depart {phaser : PhaserRef} {phase : Nat}
    (departs : w.depart phaser = .ok (v, phase, notes)) (world : effect.world = v) :
    effect.Reserves m w frame := by
  unfold World.depart at departs
  dsimp only at departs
  split at departs
  · simp at departs
  · simp only [Except.ok.injEq, Prod.mk.injEq] at departs
    exact .of_phaser (world.trans departs.1.symm)

theorem Visit.reserves {x : Visit} (step : x.advance w = some effect) :
    effect.Reserves m w (.visit x) := by
  have visits (same : x.registry = .manager m) : (Frame.visit x).visits m = true := by
    simp [Frame.visits, same]
  unfold advance at step
  dsimp only at step
  repeat' split at step
  all_goals
    obtain rfl := Option.some.inj step
    first
      | exact .of_manager rfl
      | exact .of_registry fun same apart => absurd (visits same) (by simp [apart])

theorem Pausing.reserves {p : Pausing} (step : p.advance self w = some effect) :
    effect.Reserves m w (.pausing p) := by
  unfold advance at step
  dsimp only at step
  split at step
  case h_7 | h_8 | h_14 =>
    obtain rfl := Option.some.inj step
    refine .of_modify rfl ?_ ?_ fun _ _ => rfl <;>
    · intro same apart
      simp [Frame.rewrites, *] at apart
  case h_11 =>
    split at step
    · obtain ⟨v, notes, leaves, rfl⟩ := World.leaves_of_bind step
      exact .of_manager (World.manager_leaveGlobal leaves)
    · obtain rfl := Option.some.inj step
      exact .of_manager rfl
  all_goals
    repeat' split at step
    all_goals
      obtain rfl := Option.some.inj step
      first
        | exact .of_manager rfl
        | exact .of_modify rfl (fun _ _ => rfl) (fun _ _ => rfl) fun _ _ => rfl

theorem Phases.reserves {p : Phases} (step : p.advance w = some effect) :
    effect.Reserves m w (.phases p) := by
  unfold advance at step
  dsimp only at step
  split at step
  case h_2 =>
    obtain rfl := Option.some.inj step
    refine .of_modify rfl ?_ (fun _ _ => rfl) fun _ _ => rfl
    intro same apart
    simp [Frame.rewrites, *] at apart
  all_goals
    repeat' split at step
    all_goals
      obtain rfl := Option.some.inj step
      exact .of_manager rfl

/-- Only a driver changes the epoch and the action of its manager, and only a visit comes to a member. -/
theorem Frame.reserves (step : frame.advance self w = some effect) :
    effect.Reserves m w frame := by
  have checking {thread : ThreadId} {reply : Reply} {u : World} {control : Control}
      {notes : List Note} (checks : w.checkInterrupt thread = (u, reply)) :
      (Effect.mk u control notes).Reserves m w frame := by
    have kept := World.manager_checkInterrupt (w := w) (m := m) thread
    rw [checks] at kept
    exact .of_manager kept
  cases frame with
  | start op =>
    obtain ⟨bus, same⟩ := Op.advance_manager (m := m) step
    exact ⟨fun _ => by rw [same], fun _ => by rw [same], fun _ => by rw [same]⟩
  | visit x => exact Visit.reserves step
  | pausing p => exact Pausing.reserves step
  | phases p => exact Phases.reserves step
  | _ =>
    simp only [advance, Acquisition.advance, Acquisition.took, Acquisition.gaveUp, Release.advance,
      OwnedLock.advanceNotify, Arrival.advance, Sleeping.advance, Parking.advance,
      Interruption.advance, Enrolment.advance, Withdrawal.advance, Script.advance,
      Sequence.advance, Drain.advance, Resuming.advance, Polling.advance, Entering.advance,
      Leaving.advance, Foreign.advance, Acquiring.advance, Blocking.advance, Trial.advance] at step
    repeat' split at step
    all_goals first
      | (obtain rfl := Option.some.inj step
         first
           | exact .of_manager rfl
           | exact .of_lock rfl
           | exact .of_phaser rfl
           | exact .of_depart ‹_› rfl
           | exact checking ‹_›
           | exact checking (Prod.eta _).symm
           | exact .of_registry fun _ _ => rfl
           | exact .of_modify rfl (fun _ _ => rfl) (fun _ _ => rfl) fun _ _ => rfl
           | exact .of_lock (by rw [World.manager_modifyLock, World.manager_modifyLock]; rfl))
      | (obtain ⟨v, notes, leaves, rfl⟩ := World.leaves_of_bind step
         exact .of_manager (World.manager_leaveGlobal leaves))
      | simp at step

theorem Pausing.Point.isAnnounced_of_isPressing {point : Pausing.Point}
    (pressing : point.isPressing = true) : point.isAnnounced = true := by
  cases point <;> simp_all [isPressing, isAnnounced]

theorem Pausing.Point.drives_of_isPressing {point : Pausing.Point}
    (pressing : point.isPressing = true) : point.drives = true := by
  cases point <;> simp_all [isPressing, drives]

namespace Straight

/-- Where a thread has no hold on the pause lock, it is not on its way to the phases as a driver. -/
theorem not_pressing (straight : Straight m self (frame :: rest))
    (inner : ∀ lock point, frame ≠ .release lock point) (unheld : holdOf m rest = none)
    {p : Pausing} (mem : .pausing p ∈ rest) (manager : p.manager = m) :
    p.point.isPressing = false := by
  rw [Bool.eq_false_iff]
  intro pressing
  have announced : rest.any (·.drivesAt m Pausing.Point.isAnnounced) = true :=
    List.any_eq_true.mpr ⟨_, mem, by
      simp [Frame.drivesAt, manager, Pausing.Point.isAnnounced_of_isPressing pressing]⟩
  rw [straight.not_announced inner unheld] at announced
  simp at announced

/-- A driver on its way to the phases has the hold, whatever it is inside of meanwhile. -/
theorem isSome_holdOf {p : Pausing} (straight : Straight m self stack) (mem : .pausing p ∈ stack)
    (manager : p.manager = m) (pressing : p.point.isPressing = true) :
    (holdOf m stack).isSome = true := by
  have apart {child : Frame} {below : List Frame} (tail : Straight m self (child :: below))
      (inner : ∀ lock point, child ≠ .release lock point) (unheld : holdOf m below = none) :
      .pausing p ∉ below := fun mem => by
    rw [tail.not_pressing inner unheld mem manager] at pressing
    simp at pressing
  induction stack with
  | nil => simp at mem
  | cons frame rest ih =>
    obtain rfl | later := List.mem_cons.mp mem
    · simp [Frame.hold, manager, Pausing.Point.drives_of_isPressing pressing]
    have held := ih straight.tail later
    cases frame with
    | acquisition a =>
      simp only [holdOf_cons, Frame.hold]
      split
      · rename_i waits
        -- whoever waits for the lock has no hold below, and is at no such point itself
        obtain ⟨q, below, rfl, point, same, -⟩ | ⟨e, below, rfl, point, same, -⟩ :=
          straight.below_acquisition waits.1
        · obtain same' | deep := List.mem_cons.mp later
          · obtain rfl := Frame.pausing.inj same'
            simp [point, Pausing.Point.isPressing] at pressing
          · exact absurd deep <| apart straight.tail (by simp) <|
              straight.tail.1.2 same (by simp [point])
        · exact absurd (by simpa using later) <| apart straight.tail (by simp) <|
            straight.tail.1 same (by simp [point])
      · exact held
    | pausing | entering | phases | release =>
      simp only [holdOf_cons, Frame.hold]
      split
      · rfl
      · exact held
    | _ => exact held

/-- Whoever is about to change the epoch or the action has the hold, and is at it for one pause only. -/
theorem rewrites (straight : Straight m self (frame :: rest)) (rewrites : frame.rewrites m = true) :
    (holdOf m (frame :: rest)).isSome = true ∧
      ∀ {p}, .pausing p ∈ rest → p.manager = m → p.point.isPressing = false := by
  cases frame with
  | pausing p =>
    simp only [Frame.rewrites, Bool.and_eq_true, decide_eq_true_eq, Bool.or_eq_true] at rewrites
    obtain ⟨manager, point⟩ := rewrites
    refine ⟨?_, fun mem => straight.not_pressing (by simp) (straight.1.2 manager ?_) mem⟩
    · obtain (point | point) | point := point <;>
        simp [Frame.hold, manager, point, Pausing.Point.drives]
    · obtain (point | point) | point := point <;> simp [point]
  | phases q =>
    simp only [Frame.rewrites, Bool.and_eq_true, decide_eq_true_eq] at rewrites
    have drives : q.drives = true := straight.1 rewrites.2
    obtain ⟨p, below, rfl, point, manager⟩ : ∃ p below, rest = .pausing p :: below ∧
        p.point = .exitPhases ∧ q.manager = p.manager := by
      have stands := straight.2.1
      cases rest with
      | nil => simp [Frame.Stands, Frame.isServant] at stands
      | cons parent below =>
        cases parent <;> simp [Frame.Stands, Frame.Heads, Frame.isServant, drives] at stands
        exact ⟨_, _, rfl, stands⟩
    refine ⟨by simp [Frame.hold, rewrites.1, drives], fun mem same => ?_⟩
    obtain same' | deep := List.mem_cons.mp mem
    · obtain rfl := Frame.pausing.inj same'
      simp [point, Pausing.Point.isPressing]
    · exact straight.tail.not_pressing (by simp)
        (straight.tail.1.2 (manager.symm.trans rewrites.1) (by simp [point])) deep same
  | _ => simp [Frame.rewrites] at rewrites

end Straight

/-- A visit to the members of a manager is that of a driver on its way to the phases. -/
theorem Fitted.visit_parent {x : Visit} (fitted : Fitted self (.visit x :: rest))
    (straight : Straight m self (.visit x :: rest)) (registry : x.registry = .manager m) :
    ∃ p below, rest = .pausing p :: below ∧ p.manager = m ∧ p.point = .leaveGlobal := by
  obtain ⟨⟨_, loose⟩, -⟩ | ⟨p, below, rfl, calls⟩ := fitted.1
  · simp [registry] at loose
  · have manager : m = p.manager := RegistryRef.manager.inj (registry.symm.trans calls.registry)
    exact ⟨p, below, rfl, manager.symm, straight.2.1⟩

theorem Fitted.pressing_of_visit {x : Visit} (fitted : Fitted self stack)
    (straight : Straight m self stack) (mem : .visit x ∈ stack)
    (registry : x.registry = .manager m) :
    ∃ p, .pausing p ∈ stack ∧ p.manager = m ∧ p.point.isPressing = true := by
  obtain ⟨above, below, rfl⟩ := List.append_of_mem mem
  obtain ⟨p, below, rfl, manager, point⟩ := fitted.append.visit_parent straight.append registry
  exact ⟨p, by simp, manager, by simp [point, Pausing.Point.isPressing]⟩

/-- Whoever is about to go through the members has the hold, and is at it once only. -/
theorem Fitted.visits (fitted : Fitted self (frame :: rest))
    (straight : Straight m self (frame :: rest)) (visits : frame.visits m = true) :
    (holdOf m (frame :: rest)).isSome = true ∧ ∀ {x}, .visit x ∈ rest → x.registry ≠ .manager m := by
  cases frame with
  | visit x =>
    simp only [Frame.visits, decide_eq_true_eq] at visits
    obtain ⟨p, below, rfl, manager, point⟩ := fitted.visit_parent straight visits
    have unheld : holdOf m below = none := straight.tail.1.2 manager (by simp [point])
    refine ⟨by simp [Frame.hold, manager, point, Pausing.Point.drives], fun mem registry => ?_⟩
    obtain ⟨q, deep, same, pressing⟩ := fitted.2.2.pressing_of_visit straight.tail.tail
      (by simpa using mem) registry
    rw [straight.tail.not_pressing (by simp) unheld deep same] at pressing
    simp at pressing
  | _ => simp [Frame.visits] at visits

end

end StopTheWorld
