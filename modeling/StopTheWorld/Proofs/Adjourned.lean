import StopTheWorld.Proofs.Attendance
import StopTheWorld.Proofs.Counted
import StopTheWorld.Proofs.Stages

namespace StopTheWorld

/-! An assembly comes to its end: when nobody can go on, everybody's call has returned. -/

/-- A phase that everybody has arrived at is over. -/
def Phaser.IsShort (phaser : Phaser) : Prop :=
  phaser.arrived = 0 ∨ phaser.arrived < phaser.parties

/-- The pause that the call drives is yet to be counted. -/
def Pausing.Point.isUncounted : Pausing.Point → Bool
  | unlock | announceEnd | resume | abandon => false
  | _ => true

def Frame.isUncounted : Frame → Bool
  | start (.pauseWith _ _ _) => true
  | pausing p => p.point.isUncounted
  | _ => false

/-- What the frame goes on as, now or once the one above it is done. -/
def Control.next? : Control → Option Frame
  | goto frame | call _ frame => some frame
  | reply _ | unwind _ => none

/-- The call of a participant, other than the driver, that has yet to come out of the first phase. -/
inductive IsEarly (m : ManagerId) : List Frame → Prop
  | start : IsEarly m [.start (.pollFree m)]
  | polling {p : Polling} (before : p.point ≠ .exitPhases) : IsEarly m [.polling p]
  | phases {p : Phases} {q : Polling} (point : p.point = .first) :
      IsEarly m [.phases p, .polling q]
  | arrival {x : Arrival} {p : Phases} {q : Polling} (point : p.point = .second) :
      IsEarly m [.arrival x, .phases p, .polling q]

/-- How far the phaser has come since there were so many pauses. -/
structure World.Paced (a : Assembly) (base : Nat) (w : World) : Prop where
  begun : base ≤ (w.core a.manager).pauses
  uncounted : (w.stack a.driver).any (·.isUncounted) = true → (w.core a.manager).pauses = base
  late : ∀ thread ∈ (w.core a.manager).identities, thread ≠ a.driver →
    IsEarly a.manager (w.stack thread) ∨ 3 * base < (w.core a.manager).phaser.phase
  short : (w.core a.manager).phaser.IsShort

section

variable {a : Assembly} {self thread : ThreadId} {w v : World} {frame : Frame} {rest : List Frame}
  {effect : Effect} {notes : List Note} {base : Nat}

theorem Phaser.arrive_isShort (phaser : Phaser) : phaser.arrive.IsShort := by
  unfold Phaser.arrive
  split
  · exact .inl rfl
  · rename_i early
    exact .inr (Nat.lt_of_not_le early)

theorem Phaser.depart_isShort (phaser : Phaser) : phaser.depart.IsShort := by
  unfold Phaser.depart
  dsimp only
  split
  · exact .inl rfl
  · unfold IsShort
    dsimp only
    omega

theorem Core.isShort_after {core : Core} (short : core.phaser.IsShort) (self : ThreadId)
    (deed : Deed) : (core.after self deed).phaser.IsShort := by
  cases deed with
  | claim => exact short.imp_right Nat.lt_succ_of_lt
  | depart => exact core.phaser.depart_isShort
  | arrive => exact core.phaser.arrive_isShort
  | _ => exact short

theorem Scene.Turns.isShort {m : ManagerId} {s s' : Scene} {move : Move}
    (turns : s.Turns m move notes s') (short : s.core.phaser.IsShort) : s'.core.phaser.IsShort := by
  cases turns with
  | run moves => exact moves.core ▸ Core.isShort_after short _ _
  | idle => exact short

section Waiting

/-! Nobody waits for anything but the end of a phase. -/

theorem Op.goes_on {op : Op} (inner : (Frame.start op).Partakes a self rest) :
    op.advance self w ≠ none := by
  intro stuck
  cases op with
  | log | unwind | seq | replicate | only | defer | pollFree | pauseWith => simp [advance, Effect.reply, Effect.goto, Effect.unwind] at stuck
  | deferLookup =>
    simp only [advance] at stuck
    split at stuck <;> simp [Effect.reply] at stuck
  | _ => simp [Frame.Partakes, Op.isLocal] at inner

/-- A participant that cannot go on has arrived at the phase in progress. -/
theorem World.Assembled.hasArrived (assembled : w.Assembled a) (stack : w.stack self = frame :: rest)
    (stuck : frame.advance self w = none) : w.HasArrived a.manager self := by
  have partakes := assembled.partakes self
  have sound := assembled.coherent.sound self
  rw [stack] at partakes sound
  have inner := partakes.1
  cases frame with
  | arrival x =>
    obtain ⟨phaser, recorded⟩ := x
    obtain rfl : phaser = .registry (.manager a.manager) := inner
    simp only [Frame.advance, Arrival.advance] at stuck
    repeat' split at stuck
    all_goals first
      | simp [Effect.reply, Effect.goto] at stuck
        done
      | skip
    rename_i phase same
    obtain rfl := same
    exact ⟨rest, stack⟩
  | start op => exact absurd stuck (Op.goes_on inner)
  | polling p =>
    exfalso
    simp only [Frame.advance, Polling.advance] at stuck
    repeat' split at stuck
    all_goals first
      | simp [Effect.reply, Effect.goto, Effect.call] at stuck
        done
      | exact inner.2.2 ‹_›
  | pausing p =>
    exfalso
    simp only [Frame.advance, Pausing.advance, inner.2.2.1] at stuck
    repeat' split at stuck
    all_goals simp_all [Effect.reply, Effect.goto, Effect.call]
  | acquisition x =>
    exfalso
    obtain ⟨-, -, -, patience, point | point | point⟩ := inner
    · simp [Frame.advance, Acquisition.advance, patience, point, Effect.goto] at stuck
    · simp [Frame.advance, assembled.takes stack point, Effect.goto] at stuck
    · simp [Frame.advance, Acquisition.advance, patience, point, Effect.reply] at stuck
  | release lock point =>
    exfalso
    obtain ⟨-, rfl⟩ := inner
    cases point with
    | clear => simp [Frame.advance, Release.advance, assembled.isOpen, Effect.goto] at stuck
    | notify => simp [Frame.advance, Release.advance, Effect.reply] at stuck
  | notify lock =>
    obtain ⟨-, rfl⟩ := inner
    simp [Frame.advance, OwnedLock.advanceNotify, assembled.isOpen, Effect.reply] at stuck
  | interruption i =>
    exfalso
    simp only [Frame.advance, Interruption.advance] at stuck
    repeat' split at stuck
    all_goals simp [Effect.reply, Effect.goto, Effect.call] at stuck
  | answer | script | sequence | drain | phases | resuming | visit =>
    exfalso
    simp only [Frame.advance, Script.advance, Sequence.advance, Drain.advance, Phases.advance,
      Resuming.advance, Visit.advance] at stuck
    repeat' split at stuck
    all_goals simp [Effect.reply, Effect.goto, Effect.call, Effect.unwind] at stuck
  | _ => exact inner.elim

end Waiting

section First

/-! The first phase of the pause. -/

/-- Whoever comes out of its first arrival leaves the first phase behind. -/
theorem World.Assembled.late_step {x : Arrival} {p : Phases} {q : Polling}
    (assembled : w.Assembled a) (stack : w.stack self = [.arrival x, .phases p, .polling q])
    (point : p.point = .second) (advance : x.advance w = some effect) :
    (∃ x', effect.control = .goto (.arrival x')) ∨
      3 * (w.core a.manager).pauses < (effect.world.core a.manager).phaser.phase := by
  have sound := assembled.coherent.sound self
  have partakes := assembled.partakes self
  rw [stack] at sound partakes
  obtain ⟨phaser, recorded⟩ := x
  obtain rfl : phaser = .registry (.manager a.manager) := partakes.1
  obtain ⟨r, below, same, exit, -⟩ | ⟨r, below, same, -⟩ := sound.tail.below_phases
  case inr => simp at same
  obtain ⟨⟨⟩, -⟩ := List.cons.inj same
  have meeting : w.posture a.manager self = .meeting none .second (some recorded) := by
    unfold World.posture
    rw [stack]
    simp [Frame.posture, exit, point, Polling.Point.isCalled]
  have pace : (w.phaser (.registry (.manager a.manager))).phase = 3 * (w.core a.manager).pauses +
      Phases.Point.second.passed (w.phaser (.registry (.manager a.manager))).phase (some recorded) := by
    have le := Phases.Point.second.passed_le (w.phaser (.registry (.manager a.manager))).phase
      (some recorded)
    refine ((assembled.coherent.lawful.admits self).meets meeting).pace.resolve_right fun last => ?_
    exact absurd (last.1 ▸ le : 3 ≤ 1) (by decide)
  change _ ∨ _ < (effect.world.phaser (.registry (.manager a.manager))).phase
  cases recorded with
  | none =>
    simp only [Arrival.advance] at advance
    split at advance <;> obtain rfl := Option.some.inj advance
    · rename_i last
      right
      simp only [Phases.Point.passed, Phases.Point.rounds] at pace
      simp only [World.phaser_setPhaser, if_true, Phaser.arrive_phase, if_pos last]
      omega
    · exact .inl ⟨_, rfl⟩
  | some phase =>
    simp only [Arrival.advance] at advance
    split at advance
    · simp at advance
    · rename_i ended
      obtain rfl := Option.some.inj advance
      right
      simp only [Phases.Point.passed, Phases.Point.rounds, if_neg (Ne.symm ended)] at pace
      change _ < (w.phaser (.registry (.manager a.manager))).phase
      omega

/-- A participant other than the driver comes out of the first phase when that is over. -/
theorem World.Assembled.early_step (assembled : w.Assembled a) (finds : w.FindsPause self)
    (other : self ≠ a.driver) (early : IsEarly a.manager (w.stack self))
    (step : w.step self = some (v, notes)) :
    IsEarly a.manager (v.stack self) ∨
      3 * (w.core a.manager).pauses < (v.core a.manager).phaser.phase := by
  obtain ⟨frame, rest, effect, stack, advance, rfl, -⟩ := World.step_eq_some step
  have here := assembled.guests self (by simp [stack])
  have partakes := assembled.partakes self
  have sound := assembled.coherent.sound self
  change _ ∨ _ < (effect.world.core a.manager).phaser.phase
  rw [World.stack_setStack, if_pos rfl]
  rw [stack] at early partakes sound
  cases early with
  | start =>
    obtain rfl := Option.some.inj advance
    exact .inl (.polling (by simp))
  | @polling p before =>
    obtain ⟨-, free, away⟩ := partakes.1
    have manager : p.manager = a.manager := sound.1.1
    left
    cases point : p.point with
    | check =>
      have stale := finds stack point
      simp only [Frame.advance, Polling.advance, point, stale] at advance
      obtain rfl := Option.some.inj advance
      exact .polling (by simp)
    | count =>
      simp only [Frame.advance, Polling.advance, point] at advance
      obtain rfl := Option.some.inj advance
      exact .polling (by simp)
    | lookup =>
      obtain ⟨entry, found⟩ := Option.isSome_iff_exists.mp (Core.lookup_isSome.mpr here)
      have found : (w.manager a.manager).registry.get? self = some entry := found
      simp only [Frame.advance, Polling.advance, point, manager, found, free] at advance
      obtain rfl := Option.some.inj advance
      exact .polling (by simp)
    | leaveGlobal => exact absurd point away
    | enterPhases =>
      simp only [Frame.advance, Polling.advance, point] at advance
      obtain rfl := Option.some.inj advance
      exact .phases rfl
    | exitPhases => exact absurd point before
  | @phases p q point =>
    have follows : p.drives = false := by
      rw [← Bool.not_eq_true]
      exact fun drives => other (partakes.1 drives)
    simp only [Frame.advance, Phases.advance, point, follows] at advance
    obtain rfl := Option.some.inj advance
    exact .inl (.arrival rfl)
  | arrival point =>
    obtain ⟨x', control⟩ | late := assembled.late_step stack point advance
    · rw [control]
      exact .inl (.arrival point)
    · exact .inr late

end First

section Counting

/-! The pause is counted once. -/

theorem Frame.isUncounted_resume {value : Reply} (returns : ∀ failure, value ≠ .failed failure) :
    (frame.resume value).isUncounted = frame.isUncounted := by
  cases frame with
  | foreign f =>
    simp only [Frame.resume]
    split <;> rfl
  | _ => cases value <;> first | rfl | exact absurd rfl (returns _)

theorem Frame.isUncounted_catch {message : String} {handler : Frame}
    (caught : frame.catch? message = some handler) : handler.isUncounted = false := by
  unfold Frame.catch? at caught
  repeat' split at caught
  all_goals first
    | (obtain rfl := Option.some.inj caught
       rfl)
    | simp at caught

theorem Frame.isUncounted_unwind {message : String}
    (uncounted : (Frame.unwind message rest).any (·.isUncounted) = true) :
    rest.any (·.isUncounted) = true := by
  induction rest with
  | nil => exact uncounted
  | cons parent below ih =>
    rw [List.any_cons, Bool.or_eq_true]
    right
    unfold Frame.unwind at uncounted
    split at uncounted
    · rename_i handler caught
      simpa [Frame.isUncounted_catch caught] using uncounted
    · exact ih uncounted

theorem Control.isUncounted_stack {control : Control} (goes : control.Partakes a self rest)
    (uncounted : (control.stack rest).any (·.isUncounted) = true) :
    control.next?.any (·.isUncounted) = true ∨ rest.any (·.isUncounted) = true := by
  cases control with
  | goto next => simpa [Control.stack, Control.next?] using uncounted
  | call child back =>
    have above : child.isUncounted = false := by
      have inner := goes.1
      cases child with
      | start op =>
        cases op <;> first
          | rfl
          | simp [Frame.Partakes, Op.isLocal] at inner
      | pausing p => exact absurd inner.2.1 (List.cons_ne_nil _ _)
      | _ => rfl
    simpa [Control.stack, Control.next?, above] using uncounted
  | reply value =>
    right
    cases rest with
    | nil => exact uncounted
    | cons parent below =>
      have returns := goes.resolve_left (List.cons_ne_nil _ _)
      simpa [Control.stack, Frame.isUncounted_resume returns] using uncounted
  | unwind message => exact .inr (Frame.isUncounted_unwind uncounted)

/-- A pause that is counted stays so. -/
theorem Frame.isUncounted_next (inner : frame.Partakes a self rest)
    (step : frame.advance self w = some effect)
    (uncounted : effect.control.next?.any (·.isUncounted) = true) : frame.isUncounted = true := by
  cases frame with
  | start op =>
    cases op with
    | pauseWith => rfl
    | only threads op =>
      have isLocal : op.isLocal a.manager = true := inner.resolve_right (by simp)
      obtain rfl := Option.some.inj step
      cases op <;> first
        | simp [Control.next?, isUncounted] at uncounted
          done
        | simp [Op.isLocal] at isLocal
    | deferLookup =>
      simp only [advance, Op.advance] at step
      split at step <;> obtain rfl := Option.some.inj step <;> simp [Control.next?] at uncounted
    | log | unwind | seq | replicate | defer | pollFree =>
      obtain rfl := Option.some.inj step
      simp [Control.next?, isUncounted] at uncounted
    | _ => simp [Partakes, Op.isLocal] at inner
  | pausing p =>
    cases point : p.point with
    | unlock | announceEnd | resume | abandon =>
      simp only [advance, Pausing.advance, point] at step
      obtain rfl := Option.some.inj step
      simp [Control.next?, isUncounted, Pausing.Point.isUncounted] at uncounted
    | _ => simp [isUncounted, point, Pausing.Point.isUncounted]
  | answer | script | sequence | resuming | drain | phases | arrival | polling | acquisition | release
  | notify | visit | interruption =>
    simp only [advance, Script.advance, Sequence.advance, Resuming.advance, Drain.advance,
      Phases.advance, Arrival.advance, Polling.advance, Acquisition.advance, Acquisition.took,
      Acquisition.gaveUp, Release.advance, OwnedLock.advanceNotify, Visit.advance,
      Interruption.advance] at step
    repeat' split at step
    all_goals first
      | (obtain rfl := Option.some.inj step
         simp [Control.next?, isUncounted] at uncounted)
      | (obtain ⟨_, -, goes⟩ := Option.bind_eq_some_iff.mp step
         obtain rfl := Option.some.inj goes
         simp [Control.next?, isUncounted] at uncounted)
      | simp at step
  | _ => exact inner.elim

/-- The driver counts its pause once, and nobody else counts any. -/
theorem World.Assembled.counting_step (assembled : w.Assembled a)
    (counted : (w.stack a.driver).any (·.isUncounted) = true → (w.core a.manager).pauses = base)
    (step : w.step self = some (v, notes)) :
    ((v.stack a.driver).any (·.isUncounted) = true → (v.core a.manager).pauses = base) ∧
      (w.core a.manager).pauses ≤ (v.core a.manager).pauses := by
  obtain ⟨frame, rest, effect, stack, advance, rfl, -⟩ := World.step_eq_some step
  have partakes := assembled.partakes self
  have sound := assembled.coherent.sound self
  have known := assembled.isKnown stack
  rw [stack] at partakes sound
  change (_ → (effect.world.core a.manager).pauses = base) ∧ _ ≤ (effect.world.core a.manager).pauses
  by_cases counts : ∃ p, frame = .pausing p ∧ p.point = .account
  · obtain ⟨p, rfl, point⟩ := counts
    obtain ⟨rfl, rfl, -⟩ := partakes.1
    have manager : p.manager = a.manager := sound.1.1
    simp only [Frame.advance, Pausing.advance, point] at advance
    obtain rfl := Option.some.inj advance
    constructor
    · simp [Control.stack, Frame.isUncounted, Pausing.Point.isUncounted]
    · rw [manager, World.core_modifyManager]
      exact Nat.le_succ _
  · have same : (effect.world.core a.manager).pauses = (w.core a.manager).pauses :=
      assembled.coherent.pauses_step known.toOrderly stack advance
        fun p top point => counts ⟨p, top, point⟩
    refine ⟨fun uncounted => ?_, same.ge⟩
    rw [same]
    refine counted ?_
    rw [World.stack_setStack] at uncounted
    split at uncounted
    · rename_i driver
      rw [driver, stack, List.any_cons, Bool.or_eq_true]
      exact (Control.isUncounted_stack (Frame.abides assembled stack advance) uncounted).imp_left
        (Frame.isUncounted_next partakes.1 advance)
    · rwa [Frame.advance_stack advance] at uncounted

end Counting

theorem Pausing.Point.isUncounted_of_relies {point : Pausing.Point} (relies : point.relies = true) :
    point.isUncounted = true := by
  cases point <;> first | rfl | simp [Pausing.Point.relies] at relies

theorem World.stuck (stack : w.stack self = frame :: rest) (stuck : w.step self = none) :
    frame.advance self w = none := by
  cases advance : frame.advance self w with
  | none => rfl
  | some effect =>
    have moved := World.move_of_advance stack advance
    exact absurd (stuck.symm.trans moved) (by simp)

theorem World.Coherent.hasArrived {m : ManagerId} (coherent : w.Coherent m)
    (arrived : w.HasArrived m thread) :
    (w.posture m thread).hasArrived (w.core m).phaser.phase = true := by
  obtain ⟨rest, stack⟩ := arrived
  have sound := coherent.sound thread
  rw [stack] at sound
  obtain ⟨p, below, rfl, -⟩ := sound.below_arrival rfl
  obtain ⟨leads, meets⟩ := posture_phases m p below
  unfold World.posture
  rw [stack, posture_cons, meets]
  simp only [Frame.posture, if_true, Posture.hasArrived]
  exact decide_eq_true rfl

/-- As long as somebody waits for the end of a phase, somebody else has yet to arrive. -/
theorem Scene.Lawful.exists_late {s : Scene} (lawful : s.Lawful) (short : s.core.phaser.IsShort)
    (arrived : (s.posture thread).hasArrived s.core.phaser.phase = true) :
    ∃ other, s.Counts other ∧ ¬ (s.posture other).hasArrived s.core.phaser.phase = true := by
  obtain ⟨parties, partiesCard, partiesMem⟩ := lawful.parties
  obtain ⟨waiting, waitingCard, waitingMem⟩ := lawful.arrived
  have some : 0 < waiting.card := Finset.card_pos.mpr ⟨thread, (waitingMem thread).mpr arrived⟩
  have fewer : waiting.card < parties.card := by
    rw [waitingCard, partiesCard]
    exact short.resolve_left (waitingCard ▸ some).ne'
  obtain ⟨other, party, late⟩ := Finset.exists_mem_notMem_of_card_lt_card fewer
  exact ⟨other, (partiesMem other).mp party, (waitingMem other).not.mp late⟩

namespace World.Paced

theorem step (paced : w.Paced a base) (assembled : w.Assembled a) (finds : w.FindsPause self)
    (step : w.step self = some (v, notes)) : v.Paced a base := by
  obtain ⟨frame, rest, effect, stack, advance, same, -⟩ := World.step_eq_some step
  have known := assembled.isKnown stack
  have moved : w.move (.run self) = some (v, notes) := step
  obtain ⟨coherent, turns⟩ := assembled.coherent.move (by rintro _ ⟨⟩; exact known.toOrderly) moved
  have phase := assembled.coherent.phase_le (by rintro _ ⟨⟩; exact known.toOrderly) moved
  obtain ⟨uncounted, pauses⟩ := assembled.counting_step paced.uncounted step
  obtain ⟨-, touch, makes, -⟩ := assembled.step step
  refine ⟨paced.begun.trans pauses, uncounted, fun thread here other => ?_,
    turns.isShort paced.short⟩
  have identities : (v.core a.manager).identities = (w.core a.manager).identities :=
    congrArg (List.map Registration.identity) makes.members
  obtain early | late := paced.late thread (identities ▸ here) other
  · by_cases own : thread = self
    · subst own
      have begun := paced.begun
      exact (assembled.early_step finds other early step).imp_right (by omega)
    · left
      rwa [same, World.stack_setStack, if_neg own, Frame.advance_stack advance]
  · exact .inr (late.trans_le phase)

theorem idle (paced : w.Paced a base) {move : Move} (assembled : w.Assembled a)
    (idle : ∀ thread, move ≠ .run thread) (alone : ∀ thread op, move ≠ .submit thread op)
    (moves : w.move move = some (v, notes)) : v.Paced a base := by
  obtain ⟨-, -, standing⟩ := assembled.idle idle alone moves
  obtain ⟨-, turns⟩ := assembled.coherent.move (fun thread runs => absurd runs (idle thread)) moves
  have core : v.core a.manager = w.core a.manager := by
    show (v.scene a.manager).core = (w.scene a.manager).core
    generalize v.scene a.manager = after at turns
    cases turns with
    | run => exact absurd rfl (idle _)
    | idle => rfl
  refine ⟨?_, ?_, ?_, ?_⟩
  all_goals simp only [core, standing]
  · exact paced.begun
  · exact paced.uncounted
  · exact paced.late
  · exact paced.short

/-- When nobody can go on, everybody's call has returned. -/
theorem returned (paced : w.Paced a base) (assembled : w.Assembled a)
    (stuck : ∀ thread, w.step thread = none) (thread : ThreadId) : w.stack thread = [] := by
  have waits {frame : Frame} {rest : List Frame} {thread : ThreadId}
      (stack : w.stack thread = frame :: rest) :
      (w.posture a.manager thread).hasArrived (w.core a.manager).phaser.phase = true :=
    assembled.coherent.hasArrived (assembled.hasArrived stack (World.stuck stack (stuck thread)))
  cases stack : w.stack thread with
  | nil => rfl
  | cons frame rest =>
    exfalso
    have lawful := assembled.coherent.lawful
    -- Somebody has not arrived, and is not the driver: its call has returned.
    obtain ⟨absent, counts, late⟩ := lawful.exists_late paced.short (waits stack)
    have idle : w.stack absent = [] := by
      cases stack : w.stack absent with
      | nil => rfl
      | cons frame rest => exact absurd (waits stack) late
    obtain ⟨leads, point, meets⟩ := Posture.hasArrived_iff.mp (waits stack)
    have gathers := ((lawful.admits thread).meets meets).gathers (.inr rfl)
    obtain ⟨driver, owner, p, mem, -, relies⟩ := assembled.coherent.driven gathers
    obtain rfl := assembled.owner_eq owner
    have outside : w.posture a.manager absent = .outside := by
      unfold World.posture
      rw [idle]
      rfl
    have here : absent ∈ (w.core a.manager).identities := by
      refine counts.resolve_right ?_
      rw [show (w.scene a.manager).posture absent = .outside from outside]
      simp [Posture.isHalfway]
    have other : absent ≠ a.driver := by
      rintro rfl
      simp [idle] at mem
    have ended := (paced.late absent here other).resolve_left (by rw [idle]; rintro ⟨⟩)
    have counted := paced.uncounted
      (List.any_eq_true.mpr ⟨_, mem, Pausing.Point.isUncounted_of_relies relies⟩)
    have round := (lawful.admits absent).absent (.inl here)
      (by rw [show (w.scene a.manager).posture absent = .outside from outside]; rfl)
    obtain ⟨k, le, phase, -⟩ := gathers
    change (w.core a.manager).phaser.phase = 3 * (w.core a.manager).pauses + k at phase
    change (w.core a.manager).phaser.phase = 3 * (w.core a.manager).pauses ∨
      (w.core a.manager).phaser.phase = 3 * (w.core a.manager).pauses + 3 at round
    omega

end World.Paced

end

end StopTheWorld
