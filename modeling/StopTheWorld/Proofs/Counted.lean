import StopTheWorld.Proofs.Chronicle

namespace StopTheWorld

/-! The number of pauses that a manager shows, and that of the pauses whose end is announced. -/

def Event.isCompletion : Event → Bool
  | pauseCompleted _ _ _ => true
  | _ => false

/-- The number of pauses of the manager whose end is announced. -/
def completions (m : ManagerId) (moments : List Moment) : Nat :=
  (eventsOf m moments).countP Event.isCompletion

/-- A pause that the thread drives is counted, and its end is not announced. -/
def World.isCounted (w : World) (m : ManagerId) (thread : ThreadId) : Bool :=
  (w.stack thread).any (·.drivesAt m Pausing.Point.isCounted)

/-- Whether a pause of the thread is counted and its end is not announced, the number of pauses, and
that of announced ends, before and after a step of the thread. -/
inductive Accounts : Bool → Nat → List Event → Bool → Nat → Prop
  | same (counted : Bool) (pauses : Nat) {events : List Event}
      (quiet : events.countP Event.isCompletion = 0) : Accounts counted pauses events counted pauses
  | counts (pauses : Nat) : Accounts false pauses [] true (pauses + 1)
  | completes (pauses : Nat) {event : Event} (completion : event.isCompletion = true) :
      Accounts true pauses [event] false pauses

section

variable {m : ManagerId} {self thread : ThreadId} {w v : World} {frame : Frame} {rest : List Frame}
  {effect : Effect} {notes : List Note} {moments : List Moment} {action : List Op}

theorem Pausing.Point.isAnnounced_of_isCounted {point : Pausing.Point}
    (counted : point.isCounted = true) : point.isAnnounced = true := by
  cases point <;> first | rfl | simp [isCounted] at counted

/-- Only a driver whose pause is announced counts it, or has counted it. -/
theorem Frame.drivesAt_isCounted (away : frame.drivesAt m Pausing.Point.isAnnounced = false) :
    frame.drivesAt m Pausing.Point.isCounted = false := by
  cases frame with
  | pausing p =>
    simp only [drivesAt, Bool.and_eq_false_iff] at away ⊢
    exact away.imp_right fun away => Bool.eq_false_iff.mpr fun counted =>
      Bool.false_ne_true (away.symm.trans (Pausing.Point.isAnnounced_of_isCounted counted))
  | _ => rfl

theorem Control.drivesAt_isCounted {control : Control}
    (away : control.drivesAt m Pausing.Point.isAnnounced = false) :
    control.drivesAt m Pausing.Point.isCounted = false := by
  cases control with
  | goto => exact Frame.drivesAt_isCounted away
  | call frame back =>
    simp only [drivesAt, Bool.or_eq_false_iff] at away ⊢
    exact ⟨Frame.drivesAt_isCounted away.1, Frame.drivesAt_isCounted away.2⟩
  | _ => rfl

/-- Only the counting of a pause, and the announcement of its end, take its driver to a point at which
the pause is counted, or away from it. -/
theorem Pausing.drivesAt_isCounted {p : Pausing} (step : p.advance self w = some effect)
    (counts : p.point ≠ .account) (ends : p.point ≠ .announceEnd) :
    effect.control.drivesAt m Pausing.Point.isCounted =
      (Frame.pausing p).drivesAt m Pausing.Point.isCounted := by
  cases point : p.point <;> simp only [advance, point] at step
  case account => exact absurd point counts
  case announceEnd => exact absurd point ends
  case leaveGlobal =>
    split at step
    · obtain ⟨v, notes, leaves, rfl⟩ := World.leaves_of_bind step
      simp [Control.drivesAt, Frame.drivesAt, Pausing.Point.isCounted, point]
    · obtain rfl := Option.some.inj step
      simp [Control.drivesAt, Frame.drivesAt, Pausing.Point.isCounted, point]
  all_goals
    repeat' split at step
    all_goals
      obtain rfl := Option.some.inj step
      simp [Control.drivesAt, Frame.drivesAt, Pausing.Point.isCounted, point]

/-- Nothing runs on top of a driver that is about to count its pause. -/
theorem Sound.top_of_account {stack : List Frame} (sound : Sound m self stack)
    (drives : posture m stack = .driving action .account) :
    ∃ p rest, stack = .pausing p :: rest ∧ p.manager = m ∧ p.point = .account := by
  obtain ⟨above, p, below, rfl, manager, -, point⟩ := sound.driving drives
  obtain rfl | ⟨child, waits⟩ := sound.child
  · exact ⟨p, below, rfl, manager, point⟩
  · simp only [Frame.Awaits, point] at waits
    cases child <;> simp at waits

/-- Only the step that counts a pause changes their number. -/
theorem World.Coherent.pauses_step (coherent : w.Coherent m) (orderly : Orderly m w self)
    (stack : w.stack self = frame :: rest) (step : frame.advance self w = some effect)
    (other : ∀ p, frame = .pausing p → p.point ≠ .account) :
    (effect.world.core m).pauses = (w.core m).pauses := by
  obtain ⟨-, deed, ⟨advances, core, -⟩, -⟩ :=
    coherent.step orderly (World.move_of_advance stack step)
  have same : (effect.world.core m).pauses = ((w.core m).after self deed).pauses :=
    congrArg Core.pauses core
  rw [same]
  cases deed with
  | account =>
    have drives : ∃ action, w.posture m self = .driving action .account := by
      simp only [World.scene] at advances
      generalize w.posture m self = before at advances ⊢
      generalize World.posture m _ self = after at advances
      cases advances
      exact ⟨_, rfl⟩
    obtain ⟨action, drives⟩ := drives
    obtain ⟨p, below, top, -, point⟩ := (coherent.sound self).top_of_account drives
    exact absurd point (other p (List.cons.inj (stack.symm.trans top)).1)
  | _ => rfl

/-- A pause is counted before its end is announced. -/
theorem World.Coherent.accounts (coherent : w.Coherent m) (tended : w.Tended m)
    (orderly : Orderly m w self) (step : w.step self = some (v, notes)) :
    Accounts (w.isCounted m self) (w.core m).pauses (notes.filterMap (Note.event? m))
      (v.isCounted m self) (v.core m).pauses := by
  obtain ⟨frame, rest, effect, stack, advance, rfl, rfl⟩ := World.step_eq_some step
  have straight : Straight m self (frame :: rest) := stack ▸ tended.straight self
  have sound : Sound m self (frame :: rest) := stack ▸ coherent.sound self
  have pauses := coherent.pauses_step orderly stack advance
  have alone {p : Pausing} (top : frame = .pausing p) (past : p.point ≠ .gate) :
      rest.any (·.drivesAt m Pausing.Point.isCounted) = false := by
    subst top
    have away := straight.alone sound.1.1 past
    rw [List.any_eq_false] at away ⊢
    exact fun frame mem => by
      rw [Frame.drivesAt_isCounted (by simpa using away frame mem)]
      simp
  rw [List.filterMap_append, Control.silent_completion, List.append_nil, World.isCounted, stack,
    List.any_cons, World.isCounted, World.stack_setStack, if_pos rfl,
    straight.drivesAt_stack (fun _ => Pausing.Point.isAnnounced_of_isCounted) advance]
  change Accounts _ _ _ _ (effect.world.core m).pauses
  have unchanged (quiet : (effect.notes.filterMap (Note.event? m)).countP Event.isCompletion = 0)
      (same : effect.control.drivesAt m Pausing.Point.isCounted =
        frame.drivesAt m Pausing.Point.isCounted)
      (other : ∀ p, frame = .pausing p → p.point ≠ .account) :
      Accounts (frame.drivesAt m Pausing.Point.isCounted ||
          rest.any (·.drivesAt m Pausing.Point.isCounted)) (w.core m).pauses
        (effect.notes.filterMap (Note.event? m))
        (effect.control.drivesAt m Pausing.Point.isCounted ||
          rest.any (·.drivesAt m Pausing.Point.isCounted)) (effect.world.core m).pauses := by
    rw [same, pauses other]
    exact .same _ _ quiet
  cases Frame.announces (m := m) advance with
  | enters top _ _ _ event control | leaves top _ _ _ event control =>
    subst top
    exact unchanged (by rw [event]; rfl) (by rw [control]; rfl) (by simp)
  | @starts p top _ point event _ =>
    subst top
    refine unchanged (by rw [event]; rfl)
      (Pausing.drivesAt_isCounted advance (by simp [point]) (by simp [point])) ?_
    rintro _ ⟨⟩
    simp [point]
  | @completes p top manager point event control =>
    have same := pauses fun q is_pausing => by
      obtain rfl := Frame.pausing.inj (top.symm.trans is_pausing)
      simp [point]
    subst top
    rw [event, control, alone rfl (by simp [point]), same]
    simp only [Control.drivesAt, Frame.drivesAt, manager, point, Pausing.Point.isCounted]
    exact .completes _ rfl
  | silent quiet same =>
    have silent : (effect.notes.filterMap (Note.event? m)).countP Event.isCompletion = 0 := by
      rw [quiet]
      rfl
    cases frame with
    | pausing p =>
      have manager : p.manager = m := sound.1.1
      by_cases point : p.point = .account
      · rw [quiet, alone rfl (by simp [point])]
        simp only [Frame.advance, Pausing.advance, point] at advance
        obtain rfl := Option.some.inj advance
        rw [manager, World.core_modifyManager]
        simp only [Control.drivesAt, Frame.drivesAt, manager, point, Pausing.Point.isCounted]
        exact .counts _
      · refine unchanged silent (Pausing.drivesAt_isCounted advance point fun ends => ?_) ?_
        · simp only [Frame.advance, Pausing.advance, ends] at advance
          obtain rfl := Option.some.inj advance
          simp [List.filterMap_cons, Note.event?, manager] at quiet
        · rintro _ ⟨⟩
          exact point
    | _ => exact unchanged silent (Control.drivesAt_isCounted same) (by simp)

/-- The pauses are those whose end is announced, and one for each thread that has counted a pause of its
own and not announced the end. -/
theorem Course.counts (fresh : w.IsFresh m) (course : Course (Orderly m) w moments v) :
    ∃ counted : Finset ThreadId, (∀ thread, thread ∈ counted ↔ v.isCounted m thread = true) ∧
      (v.core m).pauses = completions m moments + counted.card := by
  induction course with
  | nil =>
    refine ⟨∅, fun thread => by simp [World.isCounted, fresh.idle], ?_⟩
    simp [World.core, Manager.core, fresh.new.statistics, completions, eventsOf]
  | @snoc moments x y move notes before orderly moves ih =>
    obtain ⟨counted, mem_iff, pauses⟩ := ih
    have coherent := before.coherent fresh.coherent
    have tended := (before.tame fresh.coherent).tended fresh
    have others {thread : ThreadId} (other : move ≠ .run thread) :
        y.isCounted m thread = x.isCounted m thread :=
      World.drivesAt_other _ moves other
    rw [completions, eventsOf_append, List.countP_append, ← completions]
    by_cases runs : ∃ self, move = .run self
    · obtain ⟨self, rfl⟩ := runs
      have apart {thread : ThreadId} (ne : thread ≠ self) :
          y.isCounted m thread = x.isCounted m thread :=
        others (by simpa using ne.symm)
      have accounts := coherent.accounts tended (orderly self rfl) moves
      rw [eventsOf_run]
      generalize was : x.isCounted m self = was at accounts
      generalize is : y.isCounted m self = is at accounts
      generalize (y.core m).pauses = total at accounts ⊢
      generalize (x.core m).pauses = before at accounts pauses
      generalize notes.filterMap (Note.event? m) = events at accounts
      subst pauses
      cases accounts with
      | same _ _ quiet =>
        refine ⟨counted, fun thread => ?_, by rw [quiet]; rfl⟩
        by_cases own : thread = self
        · rw [own, mem_iff, was, is]
        · rw [apart own, mem_iff]
      | counts =>
        have fresh : self ∉ counted := fun mem => by simp [(mem_iff self).mp mem] at was
        refine ⟨insert self counted, fun thread => ?_, by
          rw [Finset.card_insert_of_notMem fresh, List.countP_nil]; omega⟩
        by_cases own : thread = self
        · simp [own, is]
        · simp [own, apart own, mem_iff]
      | completes _ completion =>
        have mem : self ∈ counted := (mem_iff self).mpr was
        refine ⟨counted.erase self, fun thread => ?_, ?_⟩
        · by_cases own : thread = self
          · simp [own, is]
          · simp [own, apart own, mem_iff]
        · have positive := Finset.card_pos.mpr ⟨self, mem⟩
          rw [Finset.card_erase_of_mem mem]
          simp only [List.countP_singleton, completion, if_true]
          omega
    · have other (thread : ThreadId) : move ≠ .run thread := fun same => runs ⟨thread, same⟩
      rw [eventsOf_idle other, List.countP_nil]
      refine ⟨counted, fun thread => by rw [others (other thread), mem_iff], ?_⟩
      obtain ⟨-, turns⟩ := coherent.move orderly moves
      change (y.scene m).core.pauses = _
      generalize y.scene m = scene at turns ⊢
      cases turns with
      | run => exact absurd rfl (other _)
      | idle => exact pauses

end

end StopTheWorld
