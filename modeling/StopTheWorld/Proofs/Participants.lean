import StopTheWorld.Proofs.Outlook
import StopTheWorld.Proofs.Records

namespace StopTheWorld

/-! The worlds in which an assembly is under way: all that is going on is the pause of its driver and
the polls by which the other members join it. -/

structure World.Assembled (a : Assembly) (w : World) : Prop where
  coherent : w.Coherent a.manager
  owned : w.IsOwned a.manager
  known : ∀ thread ∈ (w.core a.manager).identities, w.Owns (w.recordOf thread) thread
  partakes : ∀ thread, Partakes a thread (w.stack thread)
  guests : ∀ thread, w.stack thread ≠ [] → thread ∈ (w.core a.manager).identities
  /-- What is queued on the records of the members keeps to their threads as well. -/
  queues : ∀ record, (w.record record).thread ∈ (w.core a.manager).identities →
    ∀ queued ∈ (w.record record).deferred, areLocal a.manager queued.script = true
  callbacks : ∀ thread, thread ≠ a.driver → (w.interrupter thread).callback = none
  vacant : (w.manager a.manager).pauseLock.IsVacant

section

variable {a : Assembly} {w v : World} {self thread : ThreadId} {frame : Frame} {rest : List Frame}

theorem Partakes.of_mem {stack : List Frame} (partakes : Partakes a self stack)
    (mem : frame ∈ stack) : ∃ rest, frame.Partakes a self rest := by
  induction stack with
  | nil => simp at mem
  | cons top below ih =>
    obtain rfl | deeper := List.mem_cons.mp mem
    · exact ⟨below, partakes.1⟩
    · exact ih partakes.tail deeper

theorem posture_phases (m : ManagerId) (p : Phases) (rest : List Frame) :
    ∃ leads, posture m (.phases p :: rest) = .meeting leads p.point none := by
  simp only [posture_cons, Frame.posture]
  split <;> exact ⟨_, rfl⟩

/-- While somebody has yet to see the end of a phase, the action to be found is that of the driver. -/
theorem World.Coherent.action_of_gathers {m : ManagerId} (coherent : w.Coherent m)
    (gathers : (w.core m).Gathers) : ∃ driver p, Frame.pausing p ∈ w.stack driver ∧
      (w.manager m).action = some p.action ∧ (w.manager m).pauseLock.owner = some driver := by
  obtain ⟨driver, owner⟩ : ∃ driver, (w.core m).owner = some driver := by
    cases owner : (w.core m).owner with
    | none => exact absurd (coherent.lawful.rests owner) gathers.not_rests
    | some driver => exact ⟨driver, rfl⟩
  have admits := coherent.lawful.admits driver
  have owns := admits.owner.mpr owner
  have relies := admits.relies_of_gathers gathers owns
  have demands := admits.demands owns
  have rests := gathers.not_rests
  have sound := coherent.sound driver
  refine ⟨driver, ?_⟩
  change (StopTheWorld.posture m (w.stack driver)).owns = true at owns
  change (StopTheWorld.posture m (w.stack driver)).relies = true at relies
  change (StopTheWorld.posture m (w.stack driver)).Demands (w.core m) at demands
  clear admits
  generalize place : StopTheWorld.posture m (w.stack driver) = posture at owns relies demands
  cases posture with
  | driving action point =>
    obtain ⟨above, p, below, stack, -, rfl, rfl⟩ := sound.driving place
    refine ⟨p, by simp [stack], ?_, owner⟩
    generalize p.point = point at relies demands
    cases point <;> first
      | exact demands.action
      | exact absurd demands rests
      | simp [Posture.relies, Pausing.Point.relies] at relies
  | meeting leads point arrival =>
    obtain ⟨above, p, below, stack, -, -, meets, -, -⟩ := sound.meeting place
    obtain ⟨action, rfl⟩ : ∃ action, leads = some action := by
      cases leads with
      | none => simp [Posture.owns] at owns
      | some action => exact ⟨action, rfl⟩
    rw [stack] at sound
    obtain ⟨q, rest, rfl, -, -, rfl⟩ := sound.of_append.leading meets
    exact ⟨q, by simp [stack], demands.action, owner⟩
  | _ => simp [Posture.owns, Posture.relies] at owns relies

namespace World.Assembled

variable (assembled : w.Assembled a)
include assembled

theorem owner_eq (owner : (w.manager a.manager).pauseLock.owner = some thread) :
    thread = a.driver := by
  by_contra other
  have owns : (w.posture a.manager thread).owns = true :=
    (assembled.coherent.lawful.admits thread).owner.mpr owner
  have disowns : (w.posture a.manager thread).owns = false :=
    (assembled.partakes thread).disowns other
  simp [disowns] at owns

/-- The pause lock is free unless the driver owns it. -/
theorem free (disowned : (w.posture a.manager a.driver).owns = false) :
    (w.manager a.manager).pauseLock.owner = none := by
  cases owner : (w.manager a.manager).pauseLock.owner with
  | none => rfl
  | some thread =>
    obtain rfl := assembled.owner_eq owner
    have owns : (w.posture a.manager a.driver).owns = true :=
      (assembled.coherent.lawful.admits a.driver).owner.mpr owner
    simp [disowned] at owns

theorem action_eq (gathers : (w.core a.manager).Gathers) :
    (w.manager a.manager).action = some a.action := by
  obtain ⟨driver, p, mem, action, -⟩ := assembled.coherent.action_of_gathers gathers
  obtain ⟨rest, partakes⟩ := (assembled.partakes driver).of_mem mem
  rw [action, partakes.2.2.2.1]

/-- A participant that comes to the action finds that of the assembly. -/
theorem action_found {p : Phases} (stack : w.stack self = .phases p :: rest)
    (chooses : p.point = .choose) : (w.manager a.manager).action = some a.action := by
  obtain ⟨leads, top⟩ := posture_phases a.manager p rest
  have meets : w.posture a.manager self = .meeting leads .choose none := by
    unfold World.posture
    rw [stack, top, chooses]
  refine assembled.action_eq ⟨2, by omega, ?_, by simp⟩
  have pace : (w.core a.manager).phaser.phase = 3 * (w.core a.manager).pauses + 2 ∨ 2 = 3 ∧ _ :=
    ((assembled.coherent.lawful.admits self).meets meets).pace
  omega

/-- A driver that has not owned the pause lock yet finds it free. -/
theorem free_at_acquisition {x : Acquisition} (stack : w.stack self = .acquisition x :: rest)
    (waits : x.point ≠ .restore true) : (w.manager a.manager).pauseLock.owner = none := by
  have partakes := assembled.partakes self
  rw [stack] at partakes
  obtain ⟨rfl, lock, -⟩ := partakes.1
  refine assembled.free ?_
  unfold World.posture
  rw [stack, posture_cons, Frame.posture, if_pos ⟨lock, waits⟩]
  rfl

theorem isOpen : (w.lock (.pause a.manager)).IsOpen := assembled.vacant.inside

/-- The driver takes the pause lock as soon as it gets to it. -/
theorem takes {x : Acquisition} (stack : w.stack self = .acquisition x :: rest)
    (tests : x.point = .test) : x.advance self w =
      Effect.goto (w.modifyLock x.lock (·.take self)) (.acquisition { x with point := .restore true })
        [.took x.lock self] := by
  have partakes := assembled.partakes self
  rw [stack] at partakes
  obtain ⟨-, lock, owner, patience, -⟩ := partakes.1
  have enters : (w.lock x.lock).IsOpen ∧ self ∉ (w.lock x.lock).waiting := by
    rw [lock]
    exact ⟨assembled.isOpen, by simp [World.lock, assembled.vacant.waiting]⟩
  have free : (w.lock x.lock).IsFree := by
    rw [lock]
    exact assembled.free_at_acquisition stack (by simp [tests])
  simp only [Acquisition.advance, patience, tests, if_pos enters, if_pos free, Acquisition.took, owner]

theorem not_reentrant {p : Pausing} (stack : w.stack self = [.pausing p]) (gate : p.point = .gate) :
    w.isReentrant a.manager self = false := by
  have unmarked : (w.thread self).inPause = false := by
    rw [assembled.coherent.mark, stack]
    simp [Frame.marks, gate]
  have outside : w.posture a.manager self = .outside := by
    unfold World.posture
    rw [stack, posture_cons, Frame.posture, gate]
    rfl
  have disowned := (assembled.coherent.lawful.admits self).owner.not.mp (by
    show (w.posture a.manager self).owns ≠ true
    rw [outside]
    simp [Posture.owns])
  have held : (w.manager a.manager).pauseLock.isHeldBy self = false := decide_eq_false disowned
  simp [World.isReentrant, unmarked, held]

/-- The generation of an epoch is the number of pauses until the driver has published a fresh one. -/
theorem generation_eq {p : Pausing} (stack : w.stack self = .pausing p :: rest)
    (invalidates : p.point = .invalidate) :
    (w.manager a.manager).epoch.generation = (w.manager a.manager).statistics.pauses := by
  have driving : w.posture a.manager self = .driving p.action .invalidate := by
    unfold World.posture
    rw [stack, posture_cons, Frame.posture, invalidates]
    rfl
  have demands := (assembled.coherent.lawful.admits self).demands (by
    show (w.posture a.manager self).owns = true
    rw [driving]
    rfl)
  change (w.posture a.manager self).Demands _ at demands
  rw [driving] at demands
  exact demands.generation

theorem generation_at_republish {p : Phases} (stack : w.stack self = .phases p :: rest)
    (republishes : p.point = .republish) :
    (w.manager a.manager).epoch.generation = (w.manager a.manager).statistics.pauses := by
  have sound := assembled.coherent.sound self
  rw [stack] at sound
  have drives := sound.1.2 republishes
  obtain ⟨q, below, rfl, -, follows, -⟩ | ⟨q, below, rfl, exit, -, -⟩ := sound.below_phases
  · simp [drives] at follows
  have meeting : w.posture a.manager self = .meeting (some q.action) .republish none := by
    unfold World.posture
    rw [stack, posture_cons, posture_cons]
    simp [Frame.posture, exit, Pausing.Point.drives, republishes]
  have demands := (assembled.coherent.lawful.admits self).demands (by
    show (w.posture a.manager self).owns = true
    rw [meeting]
    rfl)
  change (w.posture a.manager self).Demands _ at demands
  rw [meeting] at demands
  exact demands.generation

theorem bound_own {record : RecordId} (bound : w.boundRecord? a.manager self = some record) :
    (w.record record).thread = self := by
  obtain ⟨entry, found, bound⟩ := Option.bind_eq_some_iff.mp bound
  have own := assembled.owned.members entry (List.mem_of_find?_eq_some found) record bound
  rw [own.own, Registry.get?_identity found]

end World.Assembled

end

end StopTheWorld
