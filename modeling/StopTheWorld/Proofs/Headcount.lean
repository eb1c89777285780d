import StopTheWorld.Proofs.Chronicle
import StopTheWorld.Proofs.PauseCall
import StopTheWorld.Proofs.PauseOrder
import StopTheWorld.Proofs.Reentry

namespace StopTheWorld

/-! How many threads a pause is said to have had: those that its driver counted before it began. -/

/-- The driver has counted the members of the manager, and goes on with its pause. -/
def Pausing.Point.isOpened : Pausing.Point → Bool
  | gate | lookup | lock | poll | «open» | abandon => false
  | _ => true

/-- Where the count comes from with which a call to drive a pause goes on: it is made now, or has been
made before. -/
inductive Pausing.Proceeds (w : World) (q p : Pausing) : Prop
  | counts (point : q.point = .open) (size : p.participants = (w.manager q.manager).registry.size)
  | goes (opened : q.point.isOpened = true) (same : p.participants = q.participants)

/-- The driver counts the members of the manager, in a call that stands on `base`. -/
structure Moment.Counts (m : ManagerId) (driver : ThreadId) (base : List Frame) (n : Nat)
    (moment : Moment) : Prop where
  runs : moment.move = .run driver
  stands : ∃ p, moment.world.stack driver = .pausing p :: base ∧ p.manager = m ∧ p.point = .open
  size : n = (moment.world.manager m).registry.size

/-- The driver is in a call that stands on `base`, for which it has counted `n` members. -/
def World.Conducts (m : ManagerId) (driver : ThreadId) (base : List Frame) (n : Nat) (w : World) :
    Prop :=
  ∃ above p, w.stack driver = above ++ .pausing p :: base ∧ p.manager = m ∧
    p.point.isOpened = true ∧ p.participants = n

/-- The `k`-th pause, from where its driver counts `n` members until it comes out of the phases. -/
structure Convenes (m : ManagerId) (driver : ThreadId) (base : List Frame) (n k : Nat)
    (opening : Moment) (prelude : List Moment) (first : Moment) (span : List Moment)
    (finish : Moment) : Prop where
  counts : opening.Counts m driver base n
  quiet : ∀ k, (driver, .invalidated m k) ∉ observations prelude
  stands : ∃ p, first.world.stack driver = .pausing p :: base ∧ p.manager = m
  begins : (driver, .invalidated m k) ∈ first.observed
  within : (driver, .finished m true) ∉ observations span
  ends : (driver, .finished m true) ∈ finish.observed

section

variable {m : ManagerId} {self thread driver : ThreadId} {w v : World} {frame : Frame}
  {rest above below base : List Frame} {effect : Effect} {notes : List Note}
  {moments : List Moment} {moment : Moment} {n : Nat} {custom : World → ThreadId → Prop}

theorem Frame.unwind_eq_append {message : String}
    (same : unwind message below = above ++ frame :: base) :
    (∃ above', below = above' ++ frame :: base) ∨
      ∃ above' parent, below = above' ++ parent :: base ∧ parent.catch? message = some frame := by
  induction below with
  | nil => simp [unwind] at same
  | cons parent below ih =>
    unfold unwind at same
    split at same
    · rename_i handler caught
      cases above with
      | nil =>
        obtain ⟨rfl, rfl⟩ := List.cons.inj same
        exact .inr ⟨[], parent, rfl, caught⟩
      | cons first above =>
        obtain ⟨-, rfl⟩ := List.cons.inj (same.trans (List.cons_append ..))
        exact .inl ⟨parent :: above, rfl⟩
    · obtain ⟨above', rfl⟩ | ⟨above', other, rfl, caught⟩ := ih same
      · exact .inl ⟨parent :: above', rfl⟩
      · exact .inr ⟨parent :: above', other, rfl, caught⟩

/-- Where a frame comes from that stands on a stack after a step. -/
theorem Control.stack_eq_append {control : Control}
    (same : control.stack below = above ++ frame :: base) :
    (∃ above', below = above' ++ frame :: base) ∨
      (below = base ∧ (control = .goto frame ∨ ∃ child, control = .call child frame)) ∨
      (∃ back, control = .call frame back) ∨
      (∃ value parent, control = .reply value ∧ below = parent :: base ∧
        parent.resume value = frame) ∨
      ∃ message above' parent, below = above' ++ parent :: base ∧
        parent.catch? message = some frame := by
  cases control with
  | goto top =>
    cases above with
    | nil =>
      obtain ⟨rfl, rfl⟩ := List.cons.inj same
      exact .inr (.inl ⟨rfl, .inl rfl⟩)
    | cons first above =>
      obtain ⟨-, rfl⟩ := List.cons.inj (same.trans (List.cons_append ..))
      exact .inl ⟨above, rfl⟩
  | call child back =>
    match above with
    | [] =>
      obtain ⟨rfl, rfl⟩ := List.cons.inj same
      exact .inr (.inr (.inl ⟨back, rfl⟩))
    | [first] =>
      obtain ⟨-, same⟩ := List.cons.inj same
      obtain ⟨rfl, rfl⟩ := List.cons.inj same
      exact .inr (.inl ⟨rfl, .inr ⟨child, rfl⟩⟩)
    | first :: second :: above =>
      obtain ⟨-, same⟩ := List.cons.inj same
      obtain ⟨-, rfl⟩ := List.cons.inj same
      exact .inl ⟨above, rfl⟩
  | reply value =>
    cases below with
    | nil => simp [stack] at same
    | cons parent below =>
      cases above with
      | nil =>
        obtain ⟨rfl, rfl⟩ := List.cons.inj same
        exact .inr (.inr (.inr (.inl ⟨value, parent, rfl, rfl, rfl⟩)))
      | cons first above =>
        obtain ⟨-, rfl⟩ := List.cons.inj (same.trans (List.cons_append ..))
        exact .inl ⟨parent :: above, rfl⟩
  | unwind message =>
    obtain kept | ⟨above', parent, caught⟩ := Frame.unwind_eq_append same
    · exact .inl kept
    · exact .inr (.inr (.inr (.inr ⟨message, above', parent, caught⟩)))

theorem Pausing.proceeds {p q : Pausing} (step : q.advance self w = some effect)
    (puts : .pausing p ∈ effect.control.puts) (opened : p.point.isOpened = true) :
    p.manager = q.manager ∧ q.Proceeds w p ∧ ∀ back, effect.control ≠ .call (.pausing p) back := by
  cases point : q.point <;> simp only [advance, point] at step
  case gate | lookup =>
    split at step <;> obtain rfl := Option.some.inj step
    · simp [Control.puts] at puts
    · obtain rfl : p = _ := by simpa [Control.puts] using puts
      simp [Point.isOpened] at opened
  case leaveGlobal =>
    split at step
    · obtain ⟨v, notes, -, rfl⟩ := World.leaves_of_bind step
      obtain rfl : p = _ := by simpa [Control.puts] using puts
      exact ⟨rfl, .goes (by simp [point, Point.isOpened]) rfl, by simp⟩
    · obtain rfl := Option.some.inj step
      obtain rfl : p = _ := by simpa [Control.puts] using puts
      exact ⟨rfl, .goes (by simp [point, Point.isOpened]) rfl, by simp⟩
  case abandon | resume =>
    obtain rfl := Option.some.inj step
    simp [Control.puts] at puts
  all_goals
    obtain rfl := Option.some.inj step
    obtain rfl : p = _ := by simpa [Control.puts] using puts
  case lock | poll => simp [Point.isOpened] at opened
  case «open» => exact ⟨rfl, .counts point rfl, by simp⟩
  all_goals exact ⟨rfl, .goes (by simp [point, Point.isOpened]) rfl, by simp⟩

theorem Op.not_opened {op : Op} {p : Pausing} (step : op.advance self w = some effect)
    (puts : .pausing p ∈ effect.control.puts) : p.point = .gate := by
  cases op with
  | access a =>
    obtain ⟨-, -, ⟨value, control⟩ | ⟨message, control⟩⟩ := Access.agrees (m := 0) step <;>
      simp [control, Control.puts] at puts
  | release n =>
    obtain ⟨v, notes, -, rfl⟩ := World.leaves_of_bind step
    simp [Control.puts] at puts
  | deferLookup | unlock =>
    simp only [advance] at step
    split at step <;> obtain rfl := Option.some.inj step <;> simp [Control.puts] at puts
  | pause | pauseWith =>
    obtain rfl := Option.some.inj step
    obtain rfl : p = _ := by simpa [Control.puts] using puts
    rfl
  | _ =>
    obtain rfl := Option.some.inj step
    simp [Control.puts] at puts

/-- Only a driver goes on with a pause that it has counted the members for. -/
theorem Frame.proceeds {p : Pausing} (step : frame.advance self w = some effect)
    (puts : .pausing p ∈ effect.control.puts) (opened : p.point.isOpened = true) :
    ∃ q, frame = .pausing q ∧ p.manager = q.manager ∧ q.Proceeds w p ∧
      ∀ back, effect.control ≠ .call (.pausing p) back := by
  cases frame with
  | pausing q => exact ⟨q, rfl, Pausing.proceeds step puts opened⟩
  | start op =>
    have gate := Op.not_opened step puts
    simp [gate, Pausing.Point.isOpened] at opened
  | foreign f =>
    simp only [advance, Foreign.advance] at step
    cases point : f.point <;> simp only [point] at step
    case pause =>
      -- The call that it leads on to has yet to find out whether it is one within a pause.
      obtain rfl := Option.some.inj step
      obtain rfl : p = _ := by simpa [Control.puts] using puts
      simp [Pausing.Point.isOpened] at opened
    case leave => split at step <;> obtain rfl := Option.some.inj step <;> simp [Control.puts] at puts
    all_goals
      obtain rfl := Option.some.inj step
      simp [Control.puts] at puts
  | _ =>
    simp only [advance, Acquisition.advance, Acquisition.took, Acquisition.gaveUp, Release.advance,
      OwnedLock.advanceNotify, Arrival.advance, Sleeping.advance, Parking.advance,
      Interruption.advance, Enrolment.advance, Withdrawal.advance, Visit.advance, Script.advance,
      Sequence.advance, Drain.advance, Phases.advance, Resuming.advance, Polling.advance,
      Entering.advance, Leaving.advance, Acquiring.advance, Blocking.advance, Trial.advance] at step
    repeat' split at step
    all_goals first
      | (obtain rfl := Option.some.inj step
         simp [Control.puts] at puts)
      | (obtain ⟨v, notes, leaves, rfl⟩ := World.leaves_of_bind step
         simp [Control.puts] at puts)
      | simp at step

/-- The reply that a driver gets does not change what it has counted. -/
theorem Frame.resume_eq_pausing {p : Pausing} {value : Reply} (same : frame.resume value = .pausing p)
    (opened : p.point.isOpened = true) : ∃ q, frame = .pausing q ∧ p.manager = q.manager ∧
      q.point.isOpened = true ∧ p.participants = q.participants := by
  cases frame with
  | pausing q =>
    refine ⟨q, rfl, ?_⟩
    cases value <;> obtain rfl := Frame.pausing.inj same
    case failed => simp [Pausing.Point.isOpened] at opened
    all_goals exact ⟨rfl, opened, rfl⟩
  | foreign f =>
    unfold resume at same
    dsimp only at same
    split at same <;> simp at same
  | _ => cases value <;> simp [resume] at same

theorem Frame.catch?_eq_pausing {p : Pausing} {message : String}
    (caught : frame.catch? message = some (.pausing p)) : p.point = .abandon := by
  cases frame with
  | pausing q =>
    simp only [catch?] at caught
    split at caught
    · obtain rfl := Frame.pausing.inj (Option.some.inj caught)
      rfl
    · simp at caught
  | phases q | foreign q =>
    simp only [catch?] at caught
    split at caught <;> simp at caught
  | visit v =>
    simp only [catch?] at caught
    split at caught <;> simp at caught
  | _ => simp [catch?] at caught

/-- Whoever is in a call that it has counted the members for was so before, or has counted them now. -/
theorem World.conducts_move {move : Move} (moves : w.move move = some (v, notes))
    (conducts : v.Conducts m driver base n) :
    w.Conducts m driver base n ∨ (⟨w, move, notes⟩ : Moment).Counts m driver base n := by
  obtain ⟨above, p, stack, manager, opened, rfl⟩ := conducts
  by_cases own : move = .run driver
  · subst own
    obtain ⟨frame, rest, effect, top, step, rfl, rfl⟩ := World.step_eq_some moves
    rw [World.stack_setStack, if_pos rfl] at stack
    have goes (put : .pausing p ∈ effect.control.puts) (same : rest = base) :
        w.Conducts m driver base p.participants ∨
          (⟨w, .run driver, effect.notes ++ effect.control.completion rest⟩ : Moment).Counts m driver
            base p.participants := by
      obtain ⟨q, rfl, manager', proceeds, -⟩ := Frame.proceeds step put opened
      subst same
      cases proceeds with
      | counts point size =>
        exact .inr ⟨rfl, ⟨q, top, manager'.symm.trans manager, point⟩, by
          rw [size, ← manager', manager]⟩
      | goes opened same =>
        exact .inl ⟨[], q, top, manager'.symm.trans manager, opened, same.symm⟩
    obtain ⟨above', rfl⟩ | ⟨rfl, goto | ⟨child, call⟩⟩ | ⟨back, call⟩ |
        ⟨value, parent, -, rfl, resumed⟩ | ⟨message, above', parent, -, caught⟩ :=
      Control.stack_eq_append stack
    · exact .inl ⟨frame :: above', p, top, manager, opened, rfl⟩
    · exact goes (by simp [goto, Control.puts]) rfl
    · exact goes (by simp [call, Control.puts]) rfl
    · obtain ⟨-, -, -, -, leads⟩ := Frame.proceeds step (by simp [call, Control.puts]) opened
      exact absurd call (leads back)
    · obtain ⟨q, rfl, manager', opened', same⟩ := Frame.resume_eq_pausing resumed opened
      exact .inl ⟨[frame], q, top, manager'.symm.trans manager, opened', same.symm⟩
    · simp [Frame.catch?_eq_pausing caught, Pausing.Point.isOpened] at opened
  · obtain ⟨-, kept | ⟨op, -, kept⟩ | ⟨frame, frame', rest, stands, kept, rouses⟩⟩ :=
      World.move_other moves own
    · exact .inl ⟨above, p, kept ▸ stack, manager, opened, rfl⟩
    · rw [kept] at stack
      cases above <;> simp at stack
    · rw [kept] at stack
      cases above with
      | nil =>
        obtain ⟨rfl, rfl⟩ := List.cons.inj stack
        cases rouses
      | cons first above =>
        obtain ⟨rfl, rfl⟩ := List.cons.inj stack
        exact .inl ⟨frame :: above, p, stands, manager, opened, rfl⟩

/-- Whoever is in a call that it has counted the members for has counted them at some time, and been in
that call ever since. -/
theorem Course.counted (idle : ∀ thread, w.stack thread = []) (course : Course custom w moments v)
    (conducts : v.Conducts m driver base n) : ∃ before opening late,
      moments = before ++ opening :: late ∧ opening.Counts m driver base n ∧
        ∀ moment ∈ late, moment.world.Conducts m driver base n := by
  induction course with
  | nil =>
    obtain ⟨above, p, stack, -⟩ := conducts
    simp [idle] at stack
  | @snoc moments v u move notes _ _ moves ih =>
    obtain earlier | counts := World.conducts_move moves conducts
    · obtain ⟨before, opening, late, rfl, counts, since⟩ := ih earlier
      refine ⟨before, opening, late ++ [⟨v, move, notes⟩], by simp, counts, fun moment mem => ?_⟩
      obtain mem | last := List.mem_append.mp mem
      · exact since moment mem
      · obtain rfl := List.mem_singleton.mp last
        exact earlier
    · exact ⟨moments, _, [], rfl, counts, by simp⟩

/-- What holds at some moment does so at a first one. -/
theorem exists_first_moment {P : Moment → Prop} (some : ∃ moment ∈ moments, P moment) :
    ∃ before first after, moments = before ++ first :: after ∧ (∀ moment ∈ before, ¬ P moment) ∧
      P first := by
  classical
  obtain ⟨moment, mem, holds⟩ := some
  have found : (moments.find? (decide <| P ·)).isSome = true :=
    List.find?_isSome.mpr ⟨moment, mem, decide_eq_true holds⟩
  obtain ⟨first, found⟩ := Option.isSome_iff_exists.mp found
  obtain ⟨here, before, after, parts, never⟩ := List.find?_eq_some_iff_append.mp found
  exact ⟨before, first, after, parts, fun moment mem => by simpa using never moment mem,
    of_decide_eq_true here⟩

theorem Moment.mem_of_notesAt {depth : Nat} {note : Note} (mem : note ∈ moment.notesAt thread depth) :
    moment.move = .run thread ∧ note ∈ moment.notes := by
  unfold notesAt at mem
  split at mem
  · rename_i self runs
    split at mem
    · rename_i own
      exact ⟨own.1 ▸ runs, mem⟩
    · simp at mem
  · simp at mem

theorem mem_observations_of_conducted {depth : Nat} {note : Note}
    (mem : note ∈ conducted m thread depth moments) : (thread, note) ∈ observations moments := by
  obtain ⟨moment, here, told⟩ := List.mem_flatMap.mp mem
  have told := Moment.mem_of_notesAt (List.mem_filter.mp told).1
  exact List.mem_flatMap.mpr ⟨moment, here, Moment.mem_observed.mpr told⟩

/-- A driver that counts has nothing to tell of its pause yet. -/
theorem Moment.Counts.silent (counts : moment.Counts m driver base n)
    (moves : moment.world.move moment.move = some (v, moment.notes)) :
    moment.notes = [.trace (.pausing driver n)] := by
  obtain ⟨p, top, rfl, point⟩ := counts.stands
  rw [counts.runs] at moves
  obtain ⟨frame, rest, effect, stack, step, rfl, notes⟩ := World.step_eq_some moves
  obtain ⟨rfl, rfl⟩ := List.cons.inj (top.symm.trans stack)
  simp only [Frame.advance, Pausing.advance, point] at step
  obtain rfl := Option.some.inj step
  rw [notes, counts.size]
  rfl

namespace World.Coherent

variable (coherent : w.Coherent m)
include coherent

/-- A driver that has counted and not begun its pause yet waits for nothing. -/
theorem eq_nil_of_early {p : Pausing} (stack : w.stack driver = above ++ .pausing p :: base)
    (opened : p.point.isOpened = true) (early : p.point.stage = 0) : above = [] := by
  obtain top | ⟨child, awaits⟩ := (stack ▸ coherent.sound driver).child
  · exact top
  · cases point : p.point <;> simp [point, Pausing.Point.isOpened, Pausing.Point.stage] at opened early
    all_goals cases child <;> simp [Frame.Awaits, point] at awaits

/-- The step that invalidates the epoch tells nothing else of the manager. -/
theorem invalidates {k : Nat} (orderly : Orderly m w thread) (step : w.step thread = some (v, notes))
    (mem : .invalidated m k ∈ notes) : notes.filter (·.tellsOf m) = [.invalidated m k] := by
  obtain ⟨-, deed, -, noted, told⟩ :=
    coherent.step_telling orderly step mem (by simp [Note.tellsOf])
  rw [noted]
  cases deed with
  | invalidate => simpa [Core.notes, eq_comm] using told
  | depart | arrive =>
    simp only [Core.notes] at told
    split at told <;> simp at told
  | _ => simp [Core.notes] at told

end World.Coherent

/-- What a driver has conducted since it counted, by the point that it has come to. -/
theorem Course.conducts_since {p : Pausing} {opening : Moment} {late : List Moment}
    (course : Course (Orderly m) opening.world (opening :: late) v)
    (coherent : opening.world.Coherent m) (counts : opening.Counts m driver base n)
    (since : ∀ moment ∈ late, moment.world.Conducts m driver base n)
    (stack : v.stack driver = above ++ .pausing p :: base) :
    ∃ k, conducted m driver (base.length + 1) late = (conduct m k).take p.point.stage := by
  obtain ⟨q, top, manager, point⟩ := counts.stands
  have within : ∀ moment ∈ opening :: late, base.length < (moment.world.stack driver).length := by
    refine List.forall_mem_cons.mpr ⟨by simp [top], fun moment mem => ?_⟩
    obtain ⟨above, q, stack, -⟩ := since moment mem
    rw [stack, List.length_append, List.length_cons]
    omega
  have on : base.length < (v.stack driver).length := by
    rw [stack, List.length_append, List.length_cons]
    omega
  obtain ⟨above', frame, stage, k, stack', call, told, -⟩ :=
    course.calls coherent top manager (by rw [point]; rfl) within on
  obtain ⟨-, same⟩ := List.append_inj' (stack.symm.trans stack') rfl
  obtain ⟨rfl, -⟩ := List.cons.inj same
  obtain ⟨next, -, -, moves, -⟩ := course.split (List.nil_append _).symm
  have quiet : (opening.notesAt driver (base.length + 1)).filter (·.conducts m) = [] := by
    unfold Moment.notesAt
    rw [counts.runs]
    dsimp only
    split
    · rw [counts.silent moves]
      rfl
    · rfl
  cases call with
  | drives =>
    refine ⟨k, ?_⟩
    rw [← told, conducted, conducted, List.flatMap_cons, quiet, List.nil_append]

/-- Before a driver announces that its pause is over, it has counted the members and gone through the
pause, in the call that makes the announcement. -/
theorem Course.convened {before after : List Moment} {last : Moment} {duration : Nat}
    (fresh : w.IsFresh m) (course : Course (Orderly m) w moments v)
    (parts : moments = before ++ last :: after)
    (told : (thread, .published m (.pauseCompleted driver n duration)) ∈ last.observed) :
    ∃ pre opening prelude first span finish tail base k,
      before = pre ++ opening :: (prelude ++ first :: (span ++ finish :: tail)) ∧
      Convenes m driver base n k opening prelude first span finish ∧
      ∃ p, last.world.stack driver = .pausing p :: base ∧ p.manager = m := by
  obtain ⟨x, reach, orderly, moved, -⟩ := course.split parts
  obtain ⟨runs, noted⟩ := Moment.mem_observed.mp told
  rw [runs] at moved
  obtain ⟨p, base, stack, manager, named, ⟨-, starts, -⟩ | ⟨point, ends⟩⟩ :=
    World.announces moved noted rfl
  · simp at starts
  obtain rfl : driver = thread := named
  obtain ⟨-, rfl, -⟩ := Event.pauseCompleted.inj ends
  obtain ⟨pre, opening, late, rfl, counts, since⟩ :=
    reach.counted fresh.idle ⟨[], p, stack, manager, by rw [point]; rfl, rfl⟩
  obtain ⟨-, start, -⟩ := reach.split rfl
  have coherent := start.coherent fresh.coherent
  have between := course.between (parts.trans (List.append_assoc ..))
  have stack' : last.world.stack driver = [] ++ .pausing p :: base := stack
  obtain ⟨k, conducts⟩ := between.conducts_since coherent counts since stack'
  rw [point] at conducts
  obtain ⟨prelude, first, tail, rfl, quiet, k', begins⟩ :
      ∃ prelude first tail, late = prelude ++ first :: tail ∧
        (∀ moment ∈ prelude, ¬ ∃ k, (driver, .invalidated m k) ∈ moment.observed) ∧
        ∃ k, (driver, .invalidated m k) ∈ first.observed := by
    have begun : (driver, .invalidated m k) ∈ observations late :=
      mem_observations_of_conducted (by rw [conducts]; exact List.mem_cons_self)
    obtain ⟨moment, here, told⟩ := List.mem_flatMap.mp begun
    exact exists_first_moment ⟨moment, here, k, told⟩
  have quiet (k : Nat) : (driver, .invalidated m k) ∉ observations prelude := by
    intro told
    obtain ⟨moment, here, told⟩ := List.mem_flatMap.mp told
    exact quiet moment here ⟨k, told⟩
  obtain ⟨u, lead, orderly', moves, -⟩ := between.split (List.cons_append ..).symm
  obtain ⟨above, q, stands, manager', opened, -⟩ := since first (by simp)
  obtain ⟨l, early⟩ :=
    lead.conducts_since coherent counts (fun moment mem => since moment (by simp [mem])) stands
  -- The call itself begins the pause, which it waits for nothing to do.
  have stage : q.point.stage = 0 := by
    by_contra begun
    obtain ⟨s, stage⟩ := Nat.exists_eq_succ_of_ne_zero begun
    have told : .invalidated m l ∈ conducted m driver (base.length + 1) prelude := by
      rw [early, stage]
      exact List.mem_cons_self
    exact quiet l (mem_observations_of_conducted told)
  obtain rfl := (lead.coherent coherent).eq_nil_of_early stands opened stage
  obtain ⟨runs, begun⟩ := Moment.mem_observed.mp begins
  rw [runs] at moves
  have single := (lead.coherent coherent).invalidates (orderly' driver runs) moves begun
  have finished : (driver, .finished m true) ∈ observations tail := by
    have told : .finished m true ∈ conducted m driver (base.length + 1) (prelude ++ first :: tail) := by
      rw [conducts]
      simp [conduct, Pausing.Point.stage]
    rw [conducted, List.flatMap_append, List.flatMap_cons, ← conducted, ← conducted, early, stage,
      List.take_zero, List.nil_append, List.mem_append] at told
    obtain now | later := told
    · have mem : .finished m true ∈ first.notes.filter (·.tellsOf m) :=
        List.mem_filter.mpr ⟨(Moment.mem_of_notesAt (List.mem_filter.mp now).1).2, by simp [Note.tellsOf]⟩
      simp [single] at mem
    · exact mem_observations_of_conducted later
  obtain ⟨span, finish, tail, rfl, within, ends⟩ := exists_first_observed finished
  exact ⟨pre, opening, prelude, first, span, finish, tail, base, k', rfl,
    ⟨counts, quiet, ⟨q, stands, manager'⟩, begins, within, ends⟩, p, stack, manager⟩

end

end StopTheWorld
