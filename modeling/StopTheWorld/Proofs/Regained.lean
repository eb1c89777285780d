import StopTheWorld.Proofs.Conservation
import StopTheWorld.Proofs.Passages

namespace StopTheWorld

/-! Blocking outside the global lock: a thread that gives the lock up for the time of a blocking action
owns it again when the call returns, whatever pauses it has joined meanwhile; when the call unwinds, it
does not. -/

/-- The step that a thread is about to take handles global locks on its own behalf only. -/
def Personal (w : World) (thread : ThreadId) : Prop :=
  ∀ {frame rest g owner}, w.stack thread = frame :: rest →
    frame.handles? thread w = some (g, owner) → owner = thread

/-- Decides whether a step handles global locks on the thread's own behalf only. -/
def World.isPersonal (w : World) (thread : ThreadId) : Bool :=
  match w.stack thread with
  | [] => true
  | frame :: _ => (frame.handles? thread w).all (·.2 = thread)

/-- Whether the frame drops the guard of a global lock. -/
def Frame.dropsGlobal : Frame → Bool
  | release (.global _) _ => true
  | _ => false

/-- There are no guards of global locks, so that nobody drops one. -/
def World.IsUnguarded (w : World) : Prop := ∀ thread, w.isAt Frame.dropsGlobal thread = false

/-- The frame is that of a procedure which leaves global locks alone, user code apart. -/
def Frame.isHandsOff : Frame → Bool
  | trial _ | sleeping _ | parking _ | word _ | answer _ | interruption _ | notify _ | arrival _
  | phases _ | drain _ | script _ => true
  | polling p => !p.holdsGlobal && p.point ≠ .leaveGlobal
  | resuming r => !r.holdsGlobal
  | _ => false

/-- What such a frame comes to is such a frame again, or an operation of the script that it is. -/
def Control.IsHandsOff : Control → Prop
  | goto frame => frame.isHandsOff = true
  | call child back =>
    back.isHandsOff = true ∧ (child.isHandsOff = true ∨ back.isScript = true)
  | _ => True

/-- Only user code on this stack can have to do with global locks. -/
def isBare : List Frame → Bool
  | [] => true
  | frame :: rest => isBare rest && (frame.isHandsOff || rest.any (·.isScript))

/-- User code that the thread runs within the call on this stack leaves the lock alone. -/
def Moment.LeavesAlone (g : GlobalId) (thread : ThreadId) (base : List Frame)
    (moment : Moment) : Prop :=
  ∀ frame above, moment.move = .run thread →
    moment.world.stack thread = frame :: (above ++ base) → above.any (·.isScript) = true →
      ∀ owner, frame.handles? thread moment.world ≠ some (g, owner)

/-- The step unwinds out of the call on this stack. -/
structure Moment.Throws (thread : ThreadId) (base : List Frame) (moment : Moment) : Prop where
  runs : moment.move = .run thread
  unwinds : ∃ frame above effect message,
    moment.world.stack thread = frame :: (above ++ base) ∧
    frame.advance thread moment.world = some effect ∧ effect.control = .unwind message ∧
    effect.control.stack (above ++ base) = Frame.unwind message base

/-- A call that leaves the lock for a blocking action and is to take it again, stage by stage. `away`
tells whether user code has left the lock alone so far. -/
inductive Regains (m : ManagerId) (g : GlobalId) (thread : ThreadId) (base : List Frame) (away : Prop)
    (holds : Bool) : List Frame → Prop
  | begins {b : Blocking} (manager : b.manager = m) (asked : b.holdsGlobal = true)
      (point : b.point = .release) : Regains m g thread base away holds (.blocking b :: base)
  | tries {above : List Frame} {b : Blocking} (manager : b.manager = m) (asked : b.holdsGlobal = true)
      (bare : away → holds = false ∧ isBare above = true) :
      Regains m g thread base away holds (above ++ .blocking b :: base)
  | seeks {above : List Frame} {a : Acquiring} {value : Reply} (manager : a.manager = m)
      (point : a.point ≠ .done) (bare : away → holds = false ∧ isBare above = true) :
      Regains m g thread base away holds (above ++ .acquiring a :: .answer value :: base)
  | waits {x : Acquisition} {a : Acquiring} {value : Reply} (manager : a.manager = m)
      (point : a.point = .done) (lock : x.lock = .global g) (own : x.owner = thread)
      (before : x.point ≠ .restore true) (free : away → holds = false) :
      Regains m g thread base away holds (.acquisition x :: .acquiring a :: .answer value :: base)
  | restores {x : Acquisition} {a : Acquiring} {value : Reply} (point : a.point = .done)
      (after : x.point = .restore true) (held : holds = true) :
      Regains m g thread base away holds (.acquisition x :: .acquiring a :: .answer value :: base)
  | took {a : Acquiring} {value : Reply} (point : a.point = .done) (held : holds = true) :
      Regains m g thread base away holds (.acquiring a :: .answer value :: base)
  | answers {value : Reply} (held : holds = true) :
      Regains m g thread base away holds (.answer value :: base)

section

variable {m : ManagerId} {g : GlobalId} {w v : World} {self thread : ThreadId} {frame parent : Frame}
  {rest above base : List Frame} {effect : Effect} {control : Control} {notes : List Note}
  {moments : List Moment} {away away' : Prop} {holds : Bool}

theorem World.personal_of_isPersonal (w : World) (thread : ThreadId)
    (personal : w.isPersonal thread = true) : Personal w thread := by
  intro frame rest g owner stack handles
  simpa [isPersonal, stack, handles] using personal

section Guards

theorem Frame.isLeaf_of_dropsGlobal (drops : frame.dropsGlobal = true) : frame.isLeaf = true := by
  cases frame <;> first | rfl | simp [dropsGlobal] at drops

/-- Only guards of pause locks and of the locks of user code are dropped. -/
theorem Frame.enters_dropsGlobal (none : frame.dropsGlobal = false)
    (step : frame.advance self w = some effect) :
    effect.control.enters Frame.dropsGlobal = false := by
  cases frame with
  | start op =>
    cases op with
    | access a =>
      obtain ⟨-, -, ⟨value, control⟩ | ⟨message, control⟩⟩ := Access.agrees (m := 0) step <;>
        exact control ▸ rfl
    | release n =>
      obtain ⟨_, -, replies⟩ := Option.bind_eq_some_iff.mp step
      obtain rfl := Option.some.inj replies
      rfl
    | deferLookup | unlock =>
      simp only [advance, Op.advance] at step
      split at step <;> obtain rfl := Option.some.inj step <;> rfl
    | _ =>
      obtain rfl := Option.some.inj step
      rfl
  | release lock point =>
    simp only [advance, Release.advance] at step
    repeat' split at step
    all_goals first
      | (obtain rfl := Option.some.inj step
         cases lock <;> first | rfl | exact none)
      | simp at step
  | _ =>
    simp only [advance, Acquisition.advance, Acquisition.took, Acquisition.gaveUp,
      OwnedLock.advanceNotify, Arrival.advance, Sleeping.advance, Parking.advance,
      Interruption.advance, Enrolment.advance, Withdrawal.advance, Visit.advance, Script.advance,
      Sequence.advance, Drain.advance, Phases.advance, Resuming.advance, Polling.advance,
      Entering.advance, Leaving.advance, Pausing.advance, Foreign.advance, Acquiring.advance,
      Blocking.advance, Trial.advance] at step
    repeat' split at step
    all_goals first
      | (obtain rfl := Option.some.inj step
         rfl)
      | (obtain ⟨_, -, goes⟩ := Option.bind_eq_some_iff.mp step
         obtain rfl := Option.some.inj goes
         rfl)
      | simp at step

theorem World.IsUnguarded.move {move : Move} (unguarded : w.IsUnguarded) (laid : w.IsLaid)
    (moves : w.move move = some (v, notes)) : v.IsUnguarded := by
  intro thread
  have before := unguarded thread
  by_cases own : move = .run thread
  · subst own
    obtain ⟨frame, rest, effect, stack, step, rfl, -⟩ := World.step_eq_some moves
    have here : frame.dropsGlobal = false := by simpa [World.isAt, stack] using before
    rw [World.isAt_step Frame.isLeaf_of_dropsGlobal (stack ▸ laid thread) step, if_pos rfl]
    exact Frame.enters_dropsGlobal here step
  · rw [World.isAt_other (fun _ => rfl) (fun rouses => by cases rouses <;> rfl) moves own]
    exact before

/-- Nobody but the thread itself makes it own a lock, or lose it. -/
theorem World.IsUnguarded.holds_other {move : Move} (unguarded : w.IsUnguarded)
    (personal : ∀ thread, move = .run thread → Personal w thread)
    (moves : w.move move = some (v, notes)) (other : move ≠ .run thread) :
    v.holds g thread = w.holds g thread := by
  by_cases runs : ∃ self, move = .run self
  · obtain ⟨self, rfl⟩ := runs
    have ne : thread ≠ self := fun same => other (same ▸ rfl)
    obtain ⟨frame, rest, effect, stack, step, rfl, -⟩ := World.step_eq_some moves
    have here : frame.dropsGlobal = false := by
      simpa [World.isAt, stack] using unguarded self
    rw [World.holds_setStack]
    refine Frame.holds_other step (fun owner => personal self rfl stack) (fun drops => ?_) ne
    simp [drops, Frame.dropsGlobal] at here
  · obtain same | ⟨roused, same⟩ :=
        World.lock_other (.global g) moves fun self runs' => runs ⟨self, runs'⟩ <;>
      rw [World.holds, same] <;> rfl

end Guards

section Bare

theorem Frame.handles_of_isHandsOff (hands : frame.isHandsOff = true) :
    frame.handles? self w = none := by
  cases frame with
  | polling p =>
    simp only [isHandsOff, Bool.and_eq_true, decide_eq_true_eq] at hands
    simp [handles?, gives?, hands.2]
  | _ => first | rfl | simp [isHandsOff] at hands

theorem Frame.isHandsOff_step (hands : frame.isHandsOff = true)
    (step : frame.advance self w = some effect) : effect.control.IsHandsOff := by
  cases frame with
  | trial | sleeping | parking | word | answer | interruption | notify | arrival | phases | drain
  | script | polling | resuming =>
    simp only [advance, Trial.advance, Sleeping.advance, Parking.advance, Interruption.advance,
      OwnedLock.advanceNotify, Arrival.advance, Phases.advance, Drain.advance, Script.advance,
      Polling.advance, Resuming.advance] at step
    repeat' split at step
    all_goals first
      | (obtain rfl := Option.some.inj step
         first
           | trivial
           | exact ⟨rfl, .inl rfl⟩
           | exact ⟨rfl, .inr rfl⟩
           | simp_all [Control.IsHandsOff, isHandsOff])
      | (obtain ⟨_, -, goes⟩ := Option.bind_eq_some_iff.mp step
         obtain rfl := Option.some.inj goes
         simp_all [isHandsOff])
      | simp at step
  | _ => simp [isHandsOff] at hands

theorem Frame.isHandsOff_resume (hands : frame.isHandsOff = true) (value : Reply) :
    (frame.resume value).isHandsOff = true := by
  cases frame <;> cases value <;> first | exact hands | simp [isHandsOff] at hands

theorem Frame.isHandsOff_catch {message : String} {handler : Frame} (hands : frame.isHandsOff = true)
    (caught : frame.catch? message = some handler) : handler.isHandsOff = true := by
  unfold Frame.catch? at caught
  repeat' split at caught
  all_goals first
    | (obtain rfl := Option.some.inj caught
       first
         | rfl
         | simp [isHandsOff] at hands)
    | simp at caught

theorem isBare_unwind (message : String) (bare : isBare above = true) :
    isBare (Frame.unwind message above) = true := by
  induction above with
  | nil => rfl
  | cons next above ih =>
    simp only [isBare, Bool.and_eq_true, Bool.or_eq_true] at bare
    rw [Frame.unwind]
    split
    · rename_i handler caught
      simp only [isBare, Bool.and_eq_true, Bool.or_eq_true]
      exact ⟨bare.1, bare.2.imp_left (Frame.isHandsOff_catch · caught)⟩
    · exact ih bare.1

/-- Only user code on top has to do with the lock after a step, if it was so before. -/
theorem isBare_stack (bare : isBare (frame :: above) = true)
    (hands : frame.isHandsOff = true → control.IsHandsOff) :
    isBare (control.stack above) = true := by
  simp only [isBare, Bool.and_eq_true, Bool.or_eq_true] at bare
  obtain ⟨beneath, free⟩ := bare
  cases control with
  | goto next =>
    simp only [Control.stack, isBare, Bool.and_eq_true, Bool.or_eq_true]
    exact ⟨beneath, free.imp_left hands⟩
  | call child back =>
    simp only [Control.stack, isBare, Bool.and_eq_true, Bool.or_eq_true, List.any_cons]
    obtain free | script := free
    · obtain ⟨back, child⟩ := hands free
      exact ⟨⟨beneath, .inl back⟩, child.imp_right .inl⟩
    · exact ⟨⟨beneath, .inr script⟩, .inr (.inr script)⟩
  | reply value =>
    cases above with
    | nil => rfl
    | cons next above =>
      simp only [Control.stack, isBare, Bool.and_eq_true, Bool.or_eq_true] at beneath ⊢
      exact ⟨beneath.1, beneath.2.imp_left (Frame.isHandsOff_resume · value)⟩
  | unwind message => exact isBare_unwind message beneath

end Bare

section Steps

theorem World.holds_modifyLock (w : World) (ref : LockRef) {f : OwnedLock → OwnedLock}
    (keeps : ∀ lock, (f lock).owner = lock.owner) :
    (w.modifyLock ref f).holds g thread = w.holds g thread := by
  rw [holds, holds, lock_modifyLock]
  split
  · rename_i same
    rw [OwnedLock.isHeldBy, keeps, same]
    rfl
  · rfl

theorem World.holds_modifyInterrupter (w : World) (target : ThreadId)
    (f : Interrupter Wake → Interrupter Wake) :
    (w.modifyInterrupter target f).holds g thread = w.holds g thread := by
  rw [holds, holds, lock_modifyInterrupter]

theorem World.holds_take (w : World) (thread : ThreadId) :
    (w.modifyLock (.global g) (·.take thread)).holds g thread = true := by
  rw [holds, lock_modifyLock, if_pos rfl]
  simp [OwnedLock.isHeldBy]

/-- A step of a thread above a frame of the call does not change whether it owns the lock, if only user
code on top has to do with locks and leaves this one alone. -/
theorem isBare_holds (bare : isBare (frame :: above) = true)
    (leaves : above.any (·.isScript) = true → ∀ owner, frame.handles? self w ≠ some (g, owner))
    (step : frame.advance self w = some effect) :
    effect.world.holds g thread = w.holds g thread := by
  simp only [isBare, Bool.and_eq_true, Bool.or_eq_true] at bare
  refine Frame.holds_of_step step fun owner => ?_
  obtain hands | script := bare.2
  · simp [Frame.handles_of_isHandsOff hands]
  · exact leaves script owner

/-- What a step of the thread makes of the call: it goes on, or it returns with the lock, or it is left
by an unwinding without it. -/
inductive Regains.Lands (m : ManagerId) (g : GlobalId) (thread : ThreadId) (base : List Frame)
    (away : Prop) (rest : List Frame) (effect : Effect) : Prop
  | stays (stage : Regains m g thread base away (effect.world.holds g thread)
      (effect.control.stack rest))
  | returns {value : Reply} (here : rest = base) (replies : effect.control = .reply value)
      (held : effect.world.holds g thread = true)
  | throws {above : List Frame} {message : String} (parts : rest = above ++ base)
      (unwinds : effect.control = .unwind message)
      (same : effect.control.stack rest = Frame.unwind message base)
      (lost : away → effect.world.holds g thread = false)

variable (lock : (w.manager m).globalLock = g)

include lock

/-- The loop of attempts goes on, or is over. -/
theorem Regains.blocking {b : Blocking} (manager : b.manager = m) (asked : b.holdsGlobal = true)
    (lost : b.point = .release ∨ (away → w.holds g thread = false))
    (step : b.advance thread w = some effect) :
    Regains m g thread base away (effect.world.holds g thread) (effect.control.stack base) := by
  cases point : b.point with
  | release =>
    simp only [Blocking.advance, point, asked, if_true] at step
    obtain ⟨v, notes, leaves, rfl⟩ := World.leaves_of_bind step
    rw [manager, lock] at leaves
    have free := World.holds_leaveGlobal leaves
    show Regains m g thread base away (v.holds g thread) ([] ++ .blocking _ :: base)
    exact .tries manager rfl fun _ => ⟨free, rfl⟩
  | attempt =>
    have lost := lost.resolve_left (by simp [point])
    simp only [Blocking.advance, point] at step
    obtain rfl := Option.some.inj step
    show Regains m g thread base away (w.holds g thread) ([.trial _] ++ .blocking _ :: base)
    exact .tries manager asked fun alone => ⟨lost alone, rfl⟩
  | judge =>
    have lost := lost.resolve_left (by simp [point])
    simp only [Blocking.advance, point] at step
    split at step <;> obtain rfl := Option.some.inj step
    · show Regains m g thread base away (w.holds g thread) ([.polling _] ++ .blocking _ :: base)
      exact .tries manager asked fun alone => ⟨lost alone, rfl⟩
    · show Regains m g thread base away (w.holds g thread) ([] ++ .blocking _ :: base)
      exact .tries manager asked fun alone => ⟨lost alone, rfl⟩
  | reacquire =>
    have lost := lost.resolve_left (by simp [point])
    simp only [Blocking.advance, point, asked, if_true] at step
    obtain rfl := Option.some.inj step
    show Regains m g thread base away (w.holds g thread)
      ([] ++ .acquiring _ :: .answer b.reply :: base)
    exact .seeks manager (by simp) fun alone => ⟨lost alone, rfl⟩

/-- The thread goes to wait for the lock, or joins a pause before it does. -/
theorem Regains.acquiring {a : Acquiring} {value : Reply} (manager : a.manager = m)
    (seeks : a.point ≠ .done) (lost : away → w.holds g thread = false)
    (step : a.advance thread w = some effect) :
    Regains m g thread base away (effect.world.holds g thread)
      (effect.control.stack (.answer value :: base)) := by
  cases point : a.point with
  | enter =>
    simp only [Acquiring.advance, point] at step
    obtain rfl := Option.some.inj step
    refine .waits manager rfl (by rw [manager, lock]; rfl) rfl ?_ lost
    unfold Acquisition.begin
    split <;> simp
  | poll =>
    simp only [Acquiring.advance, point] at step
    obtain rfl := Option.some.inj step
    show Regains m g thread base away (w.holds g thread)
      ([.polling _] ++ .acquiring _ :: .answer value :: base)
    exact .seeks manager (by simp) fun alone => ⟨lost alone, rfl⟩
  | done => exact absurd point seeks

omit lock in
/-- The thread takes the lock, or goes on waiting for it, or gives up for now. -/
theorem Regains.acquisition {x : Acquisition} {a : Acquiring} {value : Reply} (manager : a.manager = m)
    (point : a.point = .done) (ref : x.lock = .global g) (own : x.owner = thread)
    (before : x.point ≠ .restore true) (free : away → w.holds g thread = false)
    (step : x.advance thread w = some effect) :
    Regains m g thread base away (effect.world.holds g thread)
      (effect.control.stack (.acquiring a :: .answer value :: base)) := by
  have waiting {y : Acquisition} {u : World} (same : u.holds g thread = w.holds g thread)
      (ref : y.lock = .global g) (own : y.owner = thread) (before : y.point ≠ .restore true) :
      Regains m g thread base away (u.holds g thread)
        (.acquisition y :: .acquiring a :: .answer value :: base) :=
    .waits manager point ref own before fun alone => same.trans (free alone)
  cases Acquisition.goes step with
  | takes _ _ _ _ done =>
    have held : (w.modifyLock x.lock (·.take x.owner)).holds g thread = true := by
      rw [ref, own]
      exact World.holds_take w thread
    obtain ⟨-, rfl⟩ | ⟨-, rfl⟩ := done
    · exact .took point held
    · exact .restores point rfl held
  | installs => exact waiting (World.holds_modifyInterrupter ..) ref own (by simp)
  | sleeps => exact waiting (World.holds_modifyLock _ _ fun _ => rfl) ref own before
  | enters => exact waiting (World.holds_modifyLock _ _ fun _ => rfl) ref own (by simp)
  | obeys =>
    refine waiting ?_ ref own (by simp)
    exact (World.holds_modifyLock _ x.lock (f := (·.exit)) fun _ => rfl).trans
      (World.holds_modifyInterrupter ..)
  | looks | stays => exact waiting rfl ref own (by simp)
  | yields => exact waiting (World.holds_modifyLock _ _ fun _ => rfl) ref own (by simp)
  | awaits => exact waiting (World.holds_modifyLock _ _ fun _ => rfl) ref own (by simp)
  | @restores _ _ acquired _ restored =>
    obtain rfl : acquired = false := by
      cases acquired with
      | false => rfl
      | true => exact absurd restored before
    show Regains m g thread base away _ ([] ++ .acquiring { a with point := .poll } :: .answer value :: base)
    exact .seeks manager (by simp) fun alone =>
      ⟨(World.holds_modifyInterrupter ..).trans (free alone), rfl⟩

omit lock in
/-- Once it has the lock, the thread puts the callback back. -/
theorem Regains.restored {x : Acquisition} {a : Acquiring} {value : Reply} (point : a.point = .done)
    (after : x.point = .restore true) (held : w.holds g thread = true)
    (step : x.advance thread w = some effect) :
    Regains m g thread base away (effect.world.holds g thread)
      (effect.control.stack (.acquiring a :: .answer value :: base)) := by
  cases Acquisition.goes step with
  | @restores _ _ acquired _ restored =>
    obtain rfl : acquired = true := Acquisition.Point.restore.inj (restored.symm.trans after)
    exact .took point ((World.holds_modifyInterrupter ..).trans held)
  | installs _ early | takes early | sleeps _ early | enters _ early | obeys _ early | looks _ early
  | yields _ early | stays _ early | awaits _ early => simp [after] at early

omit lock in
/-- A step above a waiting frame of the call leaves the frame where it is, or replies to it, or unwinds
past it. -/
theorem Regains.Lands.of_waiting {above tail : List Frame} {parent : Frame}
    (parts : rest = above ++ parent :: tail) (stands : ∃ below, tail = below ++ base)
    (leaves : away' → away ∧ ∀ above, rest = above ++ base → above.any (·.isScript) = true →
      ∀ owner, frame.handles? thread w ≠ some (g, owner))
    (bare : away → w.holds g thread = false ∧ isBare (frame :: above) = true)
    (drops : ∀ message, Frame.unwind message (parent :: tail) = Frame.unwind message base)
    (stays : ∀ above', (away' → effect.world.holds g thread = false ∧ isBare above' = true) →
      Regains m g thread base away' (effect.world.holds g thread) (above' ++ parent :: tail))
    (replied : ∀ value, (away' → effect.world.holds g thread = false) →
      Regains m g thread base away' (effect.world.holds g thread)
        ([] ++ parent.resume value :: tail))
    (step : frame.advance thread w = some effect) : Regains.Lands m g thread base away' rest effect := by
  obtain ⟨below, rfl⟩ := stands
  have parts : rest = (above ++ parent :: below) ++ base := by simp [parts]
  have lost (alone : away') : effect.world.holds g thread = false := by
    obtain ⟨earlier, now⟩ := leaves alone
    obtain ⟨free, bare⟩ := bare earlier
    rw [isBare_holds bare (fun script => now _ parts (by simp [script])) step, free]
  obtain ⟨top, above', on, same⟩ | ⟨rfl, value, replies⟩ | ⟨message, unwinds, same⟩ :=
    effect.control.stack_cut above
  · have same := same (parent :: (below ++ base))
    refine .stays ?_
    rw [parts, List.append_assoc, List.cons_append, same]
    refine stays (top :: above') fun alone => ⟨lost alone, ?_⟩
    exact on ▸ isBare_stack (bare (leaves alone).1).2 (Frame.isHandsOff_step · step)
  · refine .stays ?_
    rw [parts, replies]
    exact replied value lost
  · refine .throws parts unwinds ?_ lost
    rw [parts, List.append_assoc, List.cons_append, same, drops]

/-- A step of the thread takes the call on, or ends it. -/
theorem Regains.own (stage : Regains m g thread base away (w.holds g thread) (frame :: rest))
    (leaves : away' → away ∧ ∀ above, rest = above ++ base → above.any (·.isScript) = true →
      ∀ owner, frame.handles? thread w ≠ some (g, owner))
    (step : frame.advance thread w = some effect) :
    Regains.Lands m g thread base away' rest effect := by
  have before (alone : away') : away := (leaves alone).1
  generalize shape : frame :: rest = stack at stage
  cases stage with
  | begins manager asked point =>
    obtain ⟨rfl, rfl⟩ := List.cons.inj shape
    exact .stays (.blocking lock manager asked (.inl point) step)
  | @tries above b manager asked bare =>
    cases above with
    | nil =>
      obtain ⟨rfl, rfl⟩ := List.cons.inj shape
      exact .stays (.blocking lock manager asked (.inr fun alone => (bare (before alone)).1) step)
    | cons top above =>
      obtain ⟨rfl, rfl⟩ := List.cons.inj shape
      have replied (value : Reply) (lost : away' → effect.world.holds g thread = false) :
          Regains m g thread base away' (effect.world.holds g thread)
            ([] ++ (Frame.blocking b).resume value :: base) := by
        have same : (Frame.blocking b).resume value = .blocking { b with reply := value } := by
          cases value <;> rfl
        rw [same]
        exact .tries manager asked fun alone => ⟨lost alone, rfl⟩
      exact .of_waiting rfl ⟨[], rfl⟩ leaves bare (fun _ => rfl)
        (fun above' bare => .tries manager asked bare) replied step
  | @seeks above a value manager point bare =>
    cases above with
    | nil =>
      obtain ⟨rfl, rfl⟩ := List.cons.inj shape
      exact .stays (.acquiring lock manager point (fun alone => (bare (before alone)).1) step)
    | cons top above =>
      obtain ⟨rfl, rfl⟩ := List.cons.inj shape
      have replied (v : Reply) (lost : away' → effect.world.holds g thread = false) :
          Regains m g thread base away' (effect.world.holds g thread)
            ([] ++ (Frame.acquiring a).resume v :: .answer value :: base) := by
        cases v with
        | failed => exact .seeks manager (by simp) fun alone => ⟨lost alone, rfl⟩
        | _ => exact .seeks manager point fun alone => ⟨lost alone, rfl⟩
      exact .of_waiting rfl ⟨[.answer value], rfl⟩ leaves bare (fun _ => rfl)
        (fun above' bare => .seeks manager point bare) replied step
  | waits manager point ref own early free =>
    obtain ⟨rfl, rfl⟩ := List.cons.inj shape
    exact .stays (.acquisition manager point ref own early (fun alone => free (before alone)) step)
  | @restores x a value point after held =>
    obtain ⟨rfl, rfl⟩ := List.cons.inj shape
    exact .stays (.restored point after held step)
  | took point held =>
    obtain ⟨rfl, rfl⟩ := List.cons.inj shape
    simp only [Frame.advance, Acquiring.advance, point] at step
    obtain rfl := Option.some.inj step
    exact .stays (.answers held)
  | answers held =>
    obtain ⟨rfl, rfl⟩ := List.cons.inj shape
    obtain rfl := Option.some.inj step
    exact .returns rfl rfl held

end Steps

theorem Regains.weaken {stack : List Frame} (stage : Regains m g thread base away holds stack)
    (weaker : away' → away) : Regains m g thread base away' holds stack := by
  cases stage with
  | begins manager asked point => exact .begins manager asked point
  | tries manager asked bare => exact .tries manager asked (bare ∘ weaker)
  | seeks manager point bare => exact .seeks manager point (bare ∘ weaker)
  | waits manager point ref own early free => exact .waits manager point ref own early (free ∘ weaker)
  | restores point after held => exact .restores point after held
  | took point held => exact .took point held
  | answers held => exact .answers held

theorem Frame.Rouses.isHandsOff {frame' : Frame} (rouses : frame.Rouses frame') :
    frame.isHandsOff = true ∧ frame'.isHandsOff = true := by
  cases rouses <;> exact ⟨rfl, rfl⟩

/-- Being roused leaves the thread where it is in the call. -/
theorem Regains.rouse {frame' : Frame} (stage : Regains m g thread base away holds (frame :: rest))
    (rouses : frame.Rouses frame') : Regains m g thread base away holds (frame' :: rest) := by
  have hands := rouses.isHandsOff
  generalize shape : frame :: rest = stack at stage
  have bare {above : List Frame} : isBare (frame :: above) = true → isBare (frame' :: above) = true := by
    simp [isBare, hands.1, hands.2]
  cases stage with
  | @tries above b manager asked kept =>
    cases above with
    | nil => obtain ⟨rfl, -⟩ := List.cons.inj shape; cases rouses
    | cons top above =>
      obtain ⟨rfl, rfl⟩ := List.cons.inj shape
      have stage : Regains m g thread base away holds ((frame' :: above) ++ .blocking b :: base) :=
        .tries manager asked fun alone => (kept alone).imp_right bare
      exact stage
  | @seeks above a value manager point kept =>
    cases above with
    | nil => obtain ⟨rfl, -⟩ := List.cons.inj shape; cases rouses
    | cons top above =>
      obtain ⟨rfl, rfl⟩ := List.cons.inj shape
      have stage : Regains m g thread base away holds
          ((frame' :: above) ++ .acquiring a :: .answer value :: base) :=
        .seeks manager point fun alone => (kept alone).imp_right bare
      exact stage
  | _ => obtain ⟨rfl, -⟩ := List.cons.inj shape; cases rouses

/-- What others do leaves the call as it is. -/
theorem Regains.other {move : Move}
    (stage : Regains m g thread base away (w.holds g thread) (w.stack thread))
    (same : v.holds g thread = w.holds g thread)
    (moves : w.move move = some (v, notes)) (other : move ≠ .run thread) :
    Regains m g thread base away (v.holds g thread) (v.stack thread) := by
  rw [same]
  obtain ⟨-, still | ⟨op, idle, -⟩ | ⟨top, top', rest, before, after, rouses⟩⟩ :=
    World.move_other moves other
  · exact still ▸ stage
  · rw [idle] at stage
    generalize none : ([] : List Frame) = stack at stage
    cases stage <;> simp at none
  · rw [before] at stage
    exact after ▸ stage.rouse rouses

/-- A move takes the call on, or is a step of the thread that ends it: with a reply and the lock, or with
an unwinding and without it. -/
theorem Regains.move {move : Move}
    (stage : Regains m g thread base away (w.holds g thread) (w.stack thread))
    (unguarded : w.IsUnguarded) (lock : (w.manager m).globalLock = g)
    (personal : ∀ thread, move = .run thread → Personal w thread)
    (weaker : away' → away ∧ Moment.LeavesAlone g thread base ⟨w, move, notes⟩)
    (moves : w.move move = some (v, notes)) :
    Regains m g thread base away' (v.holds g thread) (v.stack thread) ∨
      (v.stack thread).length ≤ base.length ∧
        ((∃ value, Moment.Replies thread base value ⟨w, move, notes⟩) ∧ v.holds g thread = true ∨
          Moment.Throws thread base ⟨w, move, notes⟩ ∧ (away' → v.holds g thread = false)) := by
  by_cases own : move = .run thread
  · subst own
    obtain ⟨frame, rest, effect, stack, step, rfl, -⟩ := World.step_eq_some moves
    rw [stack] at stage
    rw [World.holds_setStack, World.stack_setStack, if_pos rfl]
    have leaves (alone : away') : away ∧ ∀ above, rest = above ++ base →
        above.any (·.isScript) = true → ∀ owner, frame.handles? thread w ≠ some (g, owner) :=
      (weaker alone).imp_right fun leaves above parts script owner =>
        leaves frame above rfl (stack.trans (parts ▸ rfl)) script owner
    cases stage.own lock leaves step with
    | stays stage => exact .inl stage
    | @returns value here replies held =>
      refine .inr ⟨?_, .inl ⟨⟨value, rfl, frame, effect, here ▸ stack, step, replies⟩, held⟩⟩
      rw [here, replies]
      exact Control.length_stack_le_reply value base
    | @throws above message parts unwinds same lost =>
      refine .inr ⟨same ▸ Frame.length_unwind_le message base, .inr ⟨⟨rfl, frame, above, effect, message,
        parts ▸ stack, step, unwinds, parts ▸ same⟩, lost⟩⟩
  · exact .inl ((stage.other (unguarded.holds_other personal moves own) moves own).weaken
      fun alone => (weaker alone).1)

theorem Regains.deep (stage : Regains m g thread base away holds above) :
    base.length < above.length := by
  cases stage <;> simp only [List.length_append, List.length_cons] <;> omega

theorem World.IsFresh.isUnguarded (fresh : w.IsFresh m) : w.IsUnguarded := fun thread => by
  simp [World.isAt, fresh.idle]

theorem Course.isUnguarded {custom : World → ThreadId → Prop} (course : Course custom w moments v)
    (unguarded : w.IsUnguarded) (laid : w.IsLaid) : v.IsUnguarded :=
  (course.keeps (P := fun w => w.IsUnguarded ∧ w.IsLaid)
    (fun holds _ moves => ⟨holds.1.move holds.2 moves, holds.2.move moves⟩) ⟨unguarded, laid⟩).1

/-- What a course leaves of the call, as long as it lasts. -/
theorem Course.regains (course : Course Personal w moments v) (unguarded : w.IsUnguarded)
    (laid : w.IsLaid) (lock : (w.manager m).globalLock = g)
    (stage : Regains m g thread base True (w.holds g thread) (w.stack thread))
    (within : ∀ moment ∈ moments, base.length < (moment.world.stack thread).length)
    (on : base.length < (v.stack thread).length) :
    Regains m g thread base (∀ moment ∈ moments, moment.LeavesAlone g thread base)
      (v.holds g thread) (v.stack thread) := by
  refine course.lasting
    (P := fun moments v => Regains m g thread base
      (∀ moment ∈ moments, moment.LeavesAlone g thread base) (v.holds g thread) (v.stack thread))
    (stage.weaken fun _ => trivial) (fun before stage personal moves on => ?_) within on
  refine (stage.move (before.isUnguarded unguarded laid) (before.globalLock_eq.trans lock) personal
    (fun alone => ?_) moves).resolve_right fun ended => absurd on (Nat.not_lt.mpr ended.1)
  exact ⟨fun moment mem => alone moment (List.mem_append_left _ mem),
    alone _ (List.mem_append_right _ List.mem_cons_self)⟩

/-- A call that gives the global lock up for a blocking action ends in one of two ways, whatever becomes
of its attempts, and whatever pauses its thread joins meanwhile. It replies, and then its thread owns the
lock again; or something unwinds out of it, an attempt, the action of a pause or a deferred one, and then
its thread does not own the lock, unless user code that ran within the call took it. -/
theorem lock_regained (fresh : w.IsFresh m) (course : Course Personal w moments v)
    {pre mid post : List Moment} {first last : Moment} {attempts : List Attempt} {next : World}
    (parts : moments = pre ++ first :: (mid ++ last :: post))
    (lasts : Op.Lasts (.runBlocking m true attempts) thread base first mid last next) :
    (∃ value, last.Replies thread base value) ∧
        next.holds (w.manager m).globalLock thread = true ∨
      last.Throws thread base ∧
        ((∀ moment ∈ mid ++ [last], moment.LeavesAlone (w.manager m).globalLock thread base) →
          next.holds (w.manager m).globalLock thread = false) := by
  obtain ⟨w₁, before, personal₁, moved₁, after⟩ := course.split parts
  obtain ⟨w₂, during, personal₂, moved₂, -⟩ := after.split rfl
  obtain rfl : w₂ = next := congrArg Prod.fst (Option.some.inj (moved₂.symm.trans lasts.moves))
  have unguarded := before.isUnguarded fresh.isUnguarded fresh.isLaid
  have laid := before.isLaid fresh.isLaid
  have lock : (first.world.manager m).globalLock = (w.manager m).globalLock := before.globalLock_eq
  -- the call sets out to give the lock up
  have stage : Regains m (w.manager m).globalLock thread base True
      (w₁.holds (w.manager m).globalLock thread) (w₁.stack thread) := by
    rw [lasts.runs] at moved₁
    obtain ⟨frame, rest, effect, stack, step, rfl, -⟩ := World.step_eq_some moved₁
    obtain ⟨rfl, rfl⟩ := List.cons.inj (stack.symm.trans lasts.stack)
    obtain rfl := Option.some.inj step
    rw [World.stack_setStack, if_pos rfl]
    exact .begins rfl rfl rfl
  have kept := during.regains (unguarded.move laid moved₁) (laid.move moved₁)
    ((World.globalLock_move moved₁).trans lock) stage
    (fun moment mem => lasts.within moment (List.mem_append_left _ mem))
    (lasts.within last (by simp))
  have reached := (Course.single personal₁ moved₁).trans during
  have splits (alone : ∀ moment ∈ mid ++ [last],
      moment.LeavesAlone (w.manager m).globalLock thread base) :=
    (List.forall_mem_append.mp alone).imp_right fun late => late last List.mem_cons_self
  obtain stage | ⟨-, ended⟩ := kept.move (reached.isUnguarded unguarded laid)
    (reached.globalLock_eq.trans lock) personal₂ splits moved₂
  · exact absurd stage.deep (Nat.not_lt.mpr lasts.ends)
  · exact ended

/-- Whether the operation gives the global lock up for these attempts. -/
def Op.blocksFor (m : ManagerId) (attempts : List Attempt) : Op → Bool
  | runBlocking n holdsGlobal tries => n = m && holdsGlobal && tries = attempts
  | _ => false

/-- Decides whether a thread makes such a call and is about it from the one moment to the other. -/
def blocks (m : ManagerId) (attempts : List Attempt) (thread : ThreadId) (first : Moment)
    (mid : List Moment) (last : Moment) : Bool :=
  first.move.isOf thread && (soleOp? (first.world.stack thread)).any (·.blocksFor m attempts) &&
    (mid ++ [last]).all (fun moment => !(moment.world.stack thread).isEmpty) &&
    (last.world.move last.move).any fun moved => (moved.1.stack thread).isEmpty

theorem lasts_of_blocks {first last : Moment} {mid : List Moment} {attempts : List Attempt}
    (passes : blocks m attempts thread first mid last = true)
    (moved : last.world.move last.move = some (v, last.notes)) :
    Op.Lasts (.runBlocking m true attempts) thread [] first mid last v := by
  simp only [blocks, Bool.and_eq_true, Option.any_eq_true, List.all_eq_true, Bool.not_eq_true',
    List.isEmpty_eq_false_iff, moved, Option.some.injEq, exists_eq_left', List.isEmpty_iff] at passes
  obtain ⟨⟨⟨runs, op, sole, blocks⟩, within⟩, ended⟩ := passes
  obtain rfl : op = .runBlocking m true attempts := by
    cases op <;> simp_all [Op.blocksFor]
  exact ⟨Move.isOf_iff.mp runs, soleOp?_eq_some sole,
    fun moment mem => List.length_pos_iff.mpr (within moment mem), moved, by simp [ended]⟩

/-- The second of two threads gives the global lock up to sleep. A pause that the first one drives
interrupts it; it joins the pause, and its second attempt fails. -/
def interruptedSleep : List Move :=
  Move.repeated [
    (1, .submit 0 (.enter 0)), (14, .run 0), (1, .submit 1 (.enter 0)), (14, .run 1),
    (1, .submit 1 (.acquire 0)), (6, .run 1),
    (1, .submit 1 (.runBlocking 0 true [.sleep, .notRegistered])), (8, .run 1),
    (1, .submit 0 (.pauseWith 0 false [.log "a"])), (25, .run 0), (12, .run 1), (9, .run 0), (8, .run 1),
    (2, .run 0), (19, .run 1)]

/-- The second thread has been in the pause, without the lock, and replies with the lock. -/
theorem lock_regained_interruptedSleep : ∃ pre first mid last post v next, World.pair.IsFresh 0 ∧
    Course Personal World.pair (pre ++ first :: (mid ++ last :: post)) v ∧
    Op.Lasts (.runBlocking 0 true [.sleep, .notRegistered]) 1 [] first mid last next ∧
    (1, .joined 0 false) ∈ observations mid ∧
    (∃ moment ∈ mid, moment.world.holds (World.pair.manager 0).globalLock 1 = false) ∧
    (∃ value, last.Replies 1 [] value) ∧
    next.holds (World.pair.manager 0).globalLock 1 = true := by
  have made : (World.pair.follow World.isPersonal interruptedSleep).any (fun made =>
      made.1[38]?.any fun first => (made.1.drop 39)[82]?.any fun last =>
        blocks 0 [.sleep, .notRegistered] 1 first ((made.1.drop 39).take 82) last &&
        shows 1 (·.isJoining 0 false) (observations ((made.1.drop 39).take 82)) &&
        ((made.1.drop 39).take 82).any (fun moment =>
          !moment.world.holds (World.pair.manager 0).globalLock 1) &&
        !last.unwinds 1) = true := by
    decide +kernel
  obtain ⟨⟨moments, v⟩, follows, state⟩ := (Option.any_eq_true _ _).mp made
  simp only [Bool.and_eq_true, Option.any_eq_true, List.any_eq_true, Bool.not_eq_true'] at state
  obtain ⟨first, found, last, found', ⟨⟨passes, joins⟩, moment, mem, free⟩, steady⟩ := state
  have course := World.course_of_follow World.personal_of_isPersonal follows
  rw [eq_take_cons_drop found, eq_take_cons_drop found'] at course
  obtain ⟨_, -, -, -, after⟩ := course.split rfl
  obtain ⟨next, -, -, moved, -⟩ := after.split rfl
  have lasts := lasts_of_blocks passes moved
  obtain ⟨replies, held⟩ | ⟨throws, -⟩ := lock_regained World.pair_isFresh course rfl lasts
  · exact ⟨_, first, _, last, _, v, next, World.pair_isFresh, course, lasts,
      (shows_iff Note.isJoining_iff).mp joins, ⟨moment, mem, free⟩, replies, held⟩
  · obtain ⟨frame, above, effect, message, stack, step, unwinds, -⟩ := throws.unwinds
    rw [Moment.unwinds_of_step stack step unwinds] at steady
    simp at steady

/-- A thread takes the global lock, and gives it up for an attempt that unwinds. -/
def unwindingAttempt : List Move :=
  Move.repeated [
    (1, .submit 0 (.acquire 0)), (6, .run 0), (1, .submit 0 (.runBlocking 0 true [.unwind])),
    (5, .run 0)]

/-- A thread that owned the lock at the call does not own it when an attempt has unwound. -/
theorem lock_lost_unwindingAttempt : ∃ pre first mid last post v next, World.solo.IsFresh 0 ∧
    Course Personal World.solo (pre ++ first :: (mid ++ last :: post)) v ∧
    Op.Lasts (.runBlocking 0 true [.unwind]) 0 [] first mid last next ∧
    first.world.holds (World.solo.manager 0).globalLock 0 = true ∧
    next.holds (World.solo.manager 0).globalLock 0 = false := by
  have made : (World.solo.follow World.isPersonal unwindingAttempt).any (fun made =>
      made.1[8]?.any fun first => (made.1.drop 9)[3]?.any fun last =>
        blocks 0 [.unwind] 0 first ((made.1.drop 9).take 3) last &&
        first.world.holds (World.solo.manager 0).globalLock 0 &&
        (last.world.move last.move).any fun moved =>
          !moved.1.holds (World.solo.manager 0).globalLock 0) = true := by
    decide +kernel
  obtain ⟨⟨moments, v⟩, follows, state⟩ := (Option.any_eq_true _ _).mp made
  simp only [Bool.and_eq_true, Option.any_eq_true, Bool.not_eq_true'] at state
  obtain ⟨first, found, last, found', ⟨passes, held⟩, moved, ended, lost⟩ := state
  have course := World.course_of_follow World.personal_of_isPersonal follows
  rw [eq_take_cons_drop found, eq_take_cons_drop found'] at course
  obtain ⟨_, -, -, -, after⟩ := course.split rfl
  obtain ⟨next, -, -, moves, -⟩ := after.split rfl
  obtain rfl := Option.some.inj (moves.symm.trans ended)
  exact ⟨_, first, _, last, _, v, next, World.solo_isFresh 0, course, lasts_of_blocks passes moves, held,
    lost⟩

end

end StopTheWorld
