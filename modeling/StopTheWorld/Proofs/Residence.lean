import StopTheWorld.Proofs.Lodging
import StopTheWorld.Proofs.Refusals
import StopTheWorld.Proofs.Roll
import StopTheWorld.Proofs.Sojourn

namespace StopTheWorld

/-! The call of a thread that drives a pause as if it were not registered, and is registered already. It
keeps its entry: nothing that runs within the call deregisters it, neither the pauses it joins nor the calls
of its deferred actions, unless one of these leaves. -/

/-- What a frame says of the thread not being about to deregister. -/
def Frame.Retains (rest : List Frame) : Frame → Prop
  | foreign f => f.added = false
  | entering e => e.point = .gate ∨ e.point = .lookup
  | leaving l => l.point = .gate ∧ isMarked rest = true
  | answer reply => overForeign rest = true → reply ≠ .succeeded (.truth true)
  | _ => True

/-- Nothing that stands on `base` is about to deregister the thread. -/
def Retaining (base : List Frame) : List Frame → Prop
  | [] => True
  | frame :: rest => (base <:+ rest → frame.Retains rest) ∧ Retaining base rest

/-- What the control makes of a frame is not about to deregister the thread either. -/
def Control.Retains (rest : List Frame) : Control → Prop
  | goto frame => frame.Retains rest
  | call child back => child.Retains (back :: rest) ∧ back.Retains rest
  | reply value => overForeign rest = true → value ≠ .succeeded (.truth true)
  | unwind _ => True

/-- The call stands there, or what is left of it when it has been refused. -/
def Frame.isVisit : Frame → Prop
  | foreign _ | answer _ => True
  | _ => False

/-- A list of operations, or one of them. -/
def Frame.isUser : Frame → Bool
  | start _ | script _ | sequence _ => true
  | _ => false

/-- The thread is in the call, and has this entry. -/
structure Resident (m : ManagerId) (thread : ThreadId) (base : List Frame) (entry : Registration)
    (w : World) : Prop where
  upon : Upon Frame.isVisit base (w.stack thread)
  retaining : Retaining base (w.stack thread)
  entry : (w.core m).lookup thread = some entry

section

variable {m : ManagerId} {self thread : ThreadId} {w v x y : World} {frame parent : Frame}
  {rest above below base stack : List Frame} {effect : Effect} {entry : Registration} {notes : List Note}

/-- User code that runs within the call runs in the phases of a pause, in a callback, or as a deferred
action. -/
theorem Laid.within_visit (laid : Laid (frame :: (above ++ parent :: base)))
    (user : frame.isUser = true) (visit : parent.isVisit) :
    above.any (·.isPhases) = true ∨ inCallback above = true ∨ above.any (·.isDrain) = true := by
  induction above generalizing frame with
  | nil =>
    have hosted : parent.hosts frame = true := laid.1
    cases parent <;> first
      | exact visit.elim
      | cases frame <;> simp [Frame.hosts, Frame.isUser] at hosted user
  | cons first above ih =>
    have hosted : first.hosts frame = true := laid.1
    cases first with
    | phases => exact .inl rfl
    | interruption => exact .inr (.inl rfl)
    | drain => exact .inr (.inr rfl)
    | script | sequence =>
      obtain phases | callback | drain := ih laid.tail rfl
      · exact .inl (by simp [phases])
      · exact .inr (.inl (by simp [callback]))
      · exact .inr (.inr (by simp [drain]))
    | _ => cases frame <;> simp [Frame.hosts, Frame.isUser] at hosted user

theorem Op.retains {op : Op} (hosted : (Frame.start op).isHosted rest = true)
    (leaves : ∀ n, op = .leave n → isMarked rest = true) (step : op.advance self w = some effect) :
    effect.control.Retains rest := by
  have bare : overForeign rest = false := Bool.eq_false_of_not_eq_true fun houses => by
    simpa using Frame.hosted_foreign hosted houses
  have replied (value : Reply) : (Control.reply value).Retains rest := fun houses => by
    simp [bare] at houses
  cases op with
  | access a =>
    obtain ⟨-, -, ⟨value, control⟩ | ⟨message, control⟩⟩ := Access.agrees (m := 0) step
    · exact control ▸ replied value
    · exact control ▸ trivial
  | release n =>
    obtain ⟨_, -, replies⟩ := Option.bind_eq_some_iff.mp step
    obtain rfl := Option.some.inj replies
    exact replied _
  | deferLookup =>
    simp only [advance] at step
    split at step <;> obtain rfl := Option.some.inj step <;> exact replied _
  | unlock l =>
    simp only [advance] at step
    split at step <;> obtain rfl := Option.some.inj step
    · exact ⟨trivial, replied _⟩
    · exact replied _
  | log | defer | blockOn =>
    obtain rfl := Option.some.inj step
    exact replied _
  | leave n =>
    obtain rfl := Option.some.inj step
    exact ⟨rfl, leaves n rfl⟩
  | _ =>
    obtain rfl := Option.some.inj step
    simp [Control.Retains, Frame.Retains]

/-- No step of a thread that is registered makes it deregister, but one that begins to leave. -/
theorem Frame.retains (hosted : frame.isHosted rest = true) (fits : frame.Fits m self rest)
    (mark : (w.thread self).inPause = isMarked (frame :: rest)) (listed : w.isRegistered m self = true)
    (retains : frame.Retains rest) (leaves : ∀ n, frame = .start (.leave n) → isMarked rest = true)
    (step : frame.advance self w = some effect) : effect.control.Retains rest := by
  have replied (plain : (∀ e, frame ≠ .entering e) ∧ (∀ reply, frame ≠ .answer reply) ∧
      (∀ p, frame ≠ .pausing p) ∧ ∀ message, frame ≠ .rethrow message) (value : Reply) :
      (Control.reply value).Retains rest := fun houses => by
    simpa [plain] using Frame.hosted_foreign hosted houses
  cases frame with
  | start op => exact Op.retains hosted (fun n same => leaves n (congrArg _ same)) step
  | answer reply =>
    obtain rfl := Option.some.inj step
    exact retains
  | entering e =>
    obtain rfl := fits.1
    obtain point | point := retains <;> simp only [advance, Entering.advance, point] at step
    · split at step <;> obtain rfl := Option.some.inj step
      · exact fun _ => by simp
      · exact .inr rfl
    · rw [World.isRegistered] at listed
      rw [listed] at step
      obtain rfl := Option.some.inj step
      exact fun _ => by simp
  | leaving l =>
    obtain ⟨point, marked⟩ := retains
    simp only [advance, Leaving.advance, point, mark, isMarked_cons, marked, Bool.or_true, if_true] at step
    obtain rfl := Option.some.inj step
    exact replied (by simp) _
  | pausing p =>
    simp only [advance, Pausing.advance] at step
    repeat' split at step
    all_goals first
      | (obtain rfl := Option.some.inj step
         simp [Control.Retains, Retains])
      | (obtain ⟨_, -, goes⟩ := Option.bind_eq_some_iff.mp step
         obtain rfl := Option.some.inj goes
         trivial)
  | foreign f =>
    have stays : f.added = false := retains
    simp only [advance, Foreign.advance, stays] at step
    split at step
    · obtain rfl := Option.some.inj step
      exact ⟨.inl rfl, rfl⟩
    · obtain rfl := Option.some.inj step
      exact ⟨trivial, rfl⟩
    · obtain rfl := Option.some.inj step
      exact replied (by simp) _
    · rename_i abandon
      simp [fits.2.2.2 abandon] at stays
  | blocking b =>
    simp only [advance, Blocking.advance] at step
    repeat' split at step
    all_goals first
      | (obtain rfl := Option.some.inj step
         first
           | trivial
           | exact ⟨trivial, replied (by simp) _⟩
           | exact replied (by simp) _)
      | (obtain ⟨_, -, goes⟩ := Option.bind_eq_some_iff.mp step
         obtain rfl := Option.some.inj goes
         trivial)
  | rethrow message =>
    obtain rfl := Option.some.inj step
    trivial
  | _ =>
    simp only [advance, Acquisition.advance, Acquisition.took, Acquisition.gaveUp, Release.advance,
      OwnedLock.advanceNotify, Arrival.advance, Sleeping.advance, Parking.advance, Interruption.advance,
      Enrolment.advance, Withdrawal.advance, Visit.advance, Script.advance, Sequence.advance, Drain.advance,
      Phases.advance, Resuming.advance, Polling.advance, Acquiring.advance, Trial.advance] at step
    repeat' split at step
    all_goals first
      | (obtain rfl := Option.some.inj step
         first
           | exact replied (by simp) _
           | simp [Control.Retains, Retains])
      | (obtain ⟨_, -, goes⟩ := Option.bind_eq_some_iff.mp step
         obtain rfl := Option.some.inj goes
         trivial)
      | simp at step

namespace Retaining

theorem resume {value : Reply} (retaining : Retaining base (parent :: below))
    (replies : (Control.reply value).Retains (parent :: below)) :
    Retaining base (parent.resume value :: below) := by
  refine ⟨fun within => ?_, retaining.2⟩
  have here := retaining.1 within
  cases parent with
  | foreign f =>
    unfold Frame.resume
    dsimp only
    split
    · exact fun _ => by simp
    · rename_i added _
      cases added with
      | false => rfl
      | true => exact absurd rfl (replies rfl)
    · exact here
  | discard | word | keepGuard => cases value <;> simp [Frame.resume, Frame.Retains]
  | _ => cases value <;> exact here

theorem unwind (retaining : Retaining base stack) (message : String) :
    Retaining base (Frame.unwind message stack) := by
  induction stack with
  | nil => trivial
  | cons parent below ih =>
    unfold Frame.unwind
    split
    · rename_i handler caught
      refine ⟨fun within => ?_, retaining.2⟩
      have here := retaining.1 within
      unfold Frame.catch? at caught
      repeat' split at caught
      all_goals first
        | (obtain rfl := Option.some.inj caught
           exact here)
        | simp at caught
    · exact ih retaining.2

theorem step {control : Control} (retaining : Retaining base (frame :: rest))
    (retains : control.Retains rest) : Retaining base (control.stack rest) := by
  cases control with
  | goto frame' => exact ⟨fun _ => retains, retaining.2⟩
  | call child back => exact ⟨fun _ => retains.1, fun _ => retains.2, retaining.2⟩
  | reply value =>
    cases rest with
    | nil => trivial
    | cons parent below => exact retaining.2.resume retains
  | unwind message => exact retaining.2.unwind message

end Retaining

/-- A stack that is no higher than `base` has nothing standing on it. -/
theorem Retaining.of_length (low : stack.length ≤ base.length) : Retaining base stack := by
  induction stack with
  | nil => trivial
  | cons frame rest ih =>
    rw [List.length_cons] at low
    exact ⟨fun within => absurd within.length_le (by omega), ih (by omega)⟩

namespace Frame

theorem isVisit_resume (value : Reply) (visit : frame.isVisit) : (frame.resume value).isVisit := by
  cases frame with
  | foreign f =>
    unfold resume
    dsimp only
    split <;> trivial
  | answer => exact trivial
  | _ => exact visit.elim

theorem isVisit_catch {message : String} {handler : Frame} (visit : frame.isVisit)
    (caught : frame.catch? message = some handler) : handler.isVisit := by
  cases frame with
  | foreign f =>
    simp only [catch?, Option.ite_none_right_eq_some] at caught
    obtain rfl := Option.some.inj caught.2
    trivial
  | answer => simp [catch?] at caught
  | _ => exact visit.elim

/-- The call goes on with the next of its procedures, or replies. -/
theorem isVisit_step (visit : frame.isVisit) (fits : frame.Fits m self rest) (retains : frame.Retains rest)
    (step : frame.advance self w = some effect) :
    (∃ child back, effect.control = .call child back ∧ back.isVisit) ∨
      ∃ value, effect.control = .reply value := by
  cases frame with
  | answer reply =>
    obtain rfl := Option.some.inj step
    exact .inr ⟨reply, rfl⟩
  | foreign f =>
    have stays : f.added = false := retains
    simp only [advance, Foreign.advance, stays] at step
    split at step
    · obtain rfl := Option.some.inj step
      exact .inl ⟨_, _, rfl, trivial⟩
    · obtain rfl := Option.some.inj step
      exact .inl ⟨_, _, rfl, trivial⟩
    · obtain rfl := Option.some.inj step
      exact .inr ⟨_, rfl⟩
    · rename_i abandon
      simp [fits.2.2.2 abandon] at stays
  | _ => exact visit.elim

end Frame

namespace Resident

theorem begins {action : List Op}
    (stack : w.stack thread = .foreign { manager := m, action := action } :: base)
    (listed : (w.core m).lookup thread = some entry) : Resident m thread base entry w := by
  refine ⟨⟨[], _, stack, trivial⟩, ?_, listed⟩
  rw [stack]
  exact ⟨fun _ => rfl, .of_length (Nat.le_refl _)⟩

variable (resident : Resident m thread base entry w) (coherent : w.Coherent m)

include resident in
theorem within (stack : w.stack thread = frame :: rest) : base <:+ rest ∧ frame.Retains rest := by
  obtain ⟨above, bottom, shape, -⟩ := resident.upon
  have within : base <:+ rest := by
    rw [stack] at shape
    cases above with
    | nil => exact (List.cons.inj shape).2 ▸ List.suffix_refl base
    | cons first above =>
      rw [(List.cons.inj (shape.trans (List.cons_append ..))).2]
      exact ⟨above ++ [bottom], by simp⟩
  have retaining := resident.retaining
  rw [stack] at retaining
  exact ⟨within, retaining.1 within⟩

include resident coherent in
/-- The thread does not deregister with the next step. -/
theorem not_removes (stack : w.stack thread = frame :: rest)
    (step : frame.advance thread w = some effect) : .removed (.manager m) thread ∉ effect.notes := by
  intro removed
  have sound := coherent.sound thread
  obtain ⟨x, rfl, registry⟩ : ∃ x, frame = .withdrawal x ∧ x.registry = .manager m := by
    cases Frame.enrols (.manager m) step with
    | keeps _ quiet | departs _ _ _ _ quiet => exact absurd removed (quiet thread)
    | claims _ _ _ _ notes | inserts _ _ notes => simp [notes] at removed
    | removes top => exact ⟨_, top, rfl⟩
  rw [stack] at sound
  obtain ⟨l, below, rfl, announce⟩ := sound.below_withdrawal registry
  obtain ⟨above, bottom, shape, visit⟩ := resident.upon
  have retaining := resident.retaining
  rw [stack] at shape retaining
  -- The call waits below the procedure that leaves, which is past its gate.
  rcases above with - | ⟨first, - | ⟨second, above⟩⟩
  · obtain ⟨rfl, -⟩ := List.cons.inj shape
    exact visit
  · obtain ⟨rfl, -⟩ := List.cons.inj (List.cons.inj shape).2
    exact visit
  · obtain rfl := (List.cons.inj (List.cons.inj shape).2).2
    have gate := (retaining.2.1 ⟨above ++ [bottom], by simp⟩).1
    simp [announce] at gate

include resident coherent in
/-- A thread that is about to leave is in the phases of a pause, unless a deferred action of it is what
leaves. -/
theorem marked_of_leave {n : ManagerId} (laid : w.IsLaid) (orderly : Orderly m w thread)
    (stays : ∀ above, w.stack thread = .start (.leave m) :: (above ++ base) →
      above.any (·.isDrain) = false)
    (stack : w.stack thread = .start (.leave n) :: rest) : isMarked rest = true := by
  have placed := laid thread
  have sound := coherent.sound thread
  obtain rfl : n = m := by simpa [Op.calls?] using orderly.single stack
  have free : inCallback rest = false := by
    refine Bool.eq_false_of_not_eq_true fun inside => ?_
    simpa [Op.calls?] using orderly.callbacks stack inside
  obtain ⟨above, bottom, shape, visit⟩ := resident.upon
  rw [stack] at shape placed sound
  cases above with
  | nil => exact ((List.cons.inj shape).1 ▸ visit : (Frame.start (.leave n)).isVisit).elim
  | cons first above =>
    obtain ⟨-, rfl⟩ := List.cons.inj (shape.trans (List.cons_append ..))
    have undrained := stays (above ++ [bottom]) (by simpa using stack)
    refine sound.tail.marked ?_
    obtain phases | callback | drain := placed.within_visit rfl visit
    · simp [phases]
    · have outside : inCallback above = false := by
        rw [inCallback, List.any_append, Bool.or_eq_false_iff] at free
        exact free.1
      simp [outside] at callback
    · simp [drain] at undrained

include resident coherent in
/-- The thread keeps its entry with every step of the call, as long as no deferred action of it leaves. -/
theorem step (laid : w.IsLaid) (orderly : Orderly m w thread)
    (stays : ∀ above, w.stack thread = .start (.leave m) :: (above ++ base) →
      above.any (·.isDrain) = false)
    (step : w.step thread = some (v, notes)) :
    (v.core m).lookup thread = some entry ∧
      (Resident m thread base entry v ∨ (v.stack thread).length ≤ base.length) := by
  obtain ⟨-, deed, moves, told⟩ := coherent.step orderly step
  have upon := resident.upon.step step Frame.isVisit_resume Frame.isVisit_catch
  obtain ⟨frame, rest, effect, stack, advance, rfl, rfl⟩ := World.step_eq_some step
  have keeps : deed ≠ .remove := by
    rintro rfl
    have mem : Note.removed (.manager m) thread ∈ (w.core m).notes m thread .remove := by
      simp [Core.notes]
    rw [← told] at mem
    exact resident.not_removes coherent stack advance (Effect.told (List.mem_filter.mp mem).1 (by simp))
  have entered : ((effect.world.setStack thread (effect.control.stack rest)).core m).lookup thread =
      some entry := by
    rw [show World.core m _ = (w.core m).after thread deed from moves.core]
    exact Core.lookup_after_of_some moves.advances resident.entry keeps
  refine ⟨entered, ?_⟩
  obtain ⟨within, retains⟩ := resident.within stack
  have placed := laid thread
  have sound := coherent.sound thread
  have mark := coherent.mark thread
  have retaining := resident.retaining
  rw [stack] at placed sound mark retaining
  have listed : w.isRegistered m thread = true := by
    rw [World.isRegistered, Registry.contains_eq_isSome]
    exact Option.isSome_iff_exists.mpr ⟨entry, resident.entry⟩
  have retains' := Frame.retains placed.1 sound.1 mark listed retains
    (fun n leaves => resident.marked_of_leave coherent laid orderly stays (leaves ▸ stack)) advance
  have retaining' := retaining.step retains'
  rw [World.stack_setStack, if_pos rfl] at upon
  have stacked : (effect.world.setStack thread (effect.control.stack rest)).stack thread =
      effect.control.stack rest := by simp
  have goes (upon : Upon Frame.isVisit base (effect.control.stack rest)) :
      Resident m thread base entry (effect.world.setStack thread (effect.control.stack rest)) :=
    ⟨by rwa [stacked], by rwa [stacked], entered⟩
  rw [stacked]
  obtain upon | ⟨bottom, effect', stack', visit, advance', same⟩ | ⟨message, same⟩ := upon
  · exact .inl (goes upon)
  · obtain ⟨rfl, rfl⟩ := List.cons.inj (stack.symm.trans stack')
    obtain rfl := Option.some.inj (advance.symm.trans advance')
    obtain ⟨child, back, calls, visit⟩ | ⟨value, replies⟩ := 
      Frame.isVisit_step visit sound.1 retains advance
    · exact .inl (goes ⟨[child], back, by rw [calls]; rfl, visit⟩)
    · rw [replies]
      exact .inr (Control.length_stack_le_reply value rest)
  · rw [same]
    exact .inr (Frame.length_unwind_le message base)

include resident coherent in
theorem move {move : Move} (laid : w.IsLaid)
    (orderly : ∀ thread, move = .run thread → Orderly m w thread)
    (stays : ∀ above, w.stack thread = .start (.leave m) :: (above ++ base) →
      above.any (·.isDrain) = false)
    (moves : w.move move = some (v, notes)) :
    (v.core m).lookup thread = some entry ∧
      (Resident m thread base entry v ∨ (v.stack thread).length ≤ base.length) := by
  by_cases own : move = .run thread
  · subst own
    exact resident.step coherent laid (orderly thread rfl) stays moves
  · have entered := (coherent.lookup_other orderly moves own).trans resident.entry
    refine ⟨entered, .inl ⟨resident.upon.other moves own ?_, ?_, entered⟩⟩
    · rintro _ _ visit ⟨⟩ <;> exact visit
    · have retaining := resident.retaining
      obtain ⟨-, same | ⟨op, -, told⟩ | ⟨frame, frame', rest, before, after, rouses⟩⟩ :=
        World.move_other moves own
      · exact same ▸ retaining
      · rw [told]
        exact ⟨fun _ => trivial, trivial⟩
      · rw [before] at retaining
        rw [after]
        refine ⟨fun _ => ?_, retaining.2⟩
        cases rouses <;> trivial

end Resident

/-- A thread that is registered keeps its entry for as long as such a call lasts. -/
theorem Course.resident {moments : List Moment} (course : Course (Orderly m) w moments v)
    (resident : Resident m thread base entry w) (coherent : w.Coherent m) (laid : w.IsLaid)
    (within : ∀ moment ∈ moments, base.length < (moment.world.stack thread).length)
    (stays : ∀ moment ∈ moments, ∀ above,
      moment.world.stack thread = .start (.leave m) :: (above ++ base) → above.any (·.isDrain) = false) :
    (v.core m).lookup thread = some entry ∧
      (Resident m thread base entry v ∨ (v.stack thread).length ≤ base.length) := by
  induction course with
  | nil => exact ⟨resident.entry, .inl resident⟩
  | @snoc moments x y move notes before orderly moves ih =>
    have now : (⟨x, move, notes⟩ : Moment) ∈ moments ++ [⟨x, move, notes⟩] := by simp
    obtain ⟨-, resident | ended⟩ := ih (fun moment mem => within moment (List.mem_append_left _ mem))
      (fun moment mem => stays moment (List.mem_append_left _ mem))
    · exact resident.move (before.coherent coherent) (before.isLaid laid) orderly (stays _ now) moves
    · exact absurd (within _ now) (Nat.not_lt.mpr ended)

end

end StopTheWorld
