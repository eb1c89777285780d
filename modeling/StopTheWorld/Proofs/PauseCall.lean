import StopTheWorld.Proofs.Coherent

namespace StopTheWorld

/-! A call that drives a pause, from its beginning until it replies. A thread can be in several such
calls at once, since what it runs while it waits for the pause lock may call again; the calls are told
apart by their depth in the stack. -/

/-- The notes of a step that is taken at this depth of a thread's stack. -/
def Moment.notesAt (thread : ThreadId) (depth : Nat) (moment : Moment) : List Note :=
  match moment.move with
  | .run self =>
    if self = thread ∧ (moment.world.stack thread).length = depth then moment.notes else []
  | _ => []

/-- The note tells of what a driver does to conduct its pause. -/
def Note.conducts (m : ManagerId) : Note → Bool
  | invalidated n _ => n = m
  | joined n drives | finished n drives => n = m ∧ drives = true
  | _ => false

/-- What a thread tells of conducting pauses at this depth of its stack. -/
def conducted (m : ManagerId) (thread : ThreadId) (depth : Nat) (moments : List Moment) : List Note :=
  moments.flatMap fun moment => (moment.notesAt thread depth).filter (·.conducts m)

/-- What the driver of a pause tells of conducting it. -/
def conduct (m : ManagerId) (k : Nat) : List Note :=
  [.invalidated m k, .joined m true, .finished m true]

/-- How much of that has been told at a point. -/
def Pausing.Point.stage : Pausing.Point → Nat
  | wakeWaiters | interrupt | leaveGlobal | enterPhases => 1
  | exitPhases => 2
  | clear | account | unlock | announceEnd | resume | abandon => 3
  | _ => 0

/-- The frame is that of a call to drive a pause with this action, at this stage of it. -/
inductive Frame.IsCall (m : ManagerId) (action : List Op) : Frame → Nat → Prop
  | drives {p : Pausing} (manager : p.manager = m) (own : p.action = action) :
      IsCall m action (pausing p) p.point.stage
  | returns : IsCall m action (answer (.succeeded .nothing)) 3

/-- The call on top of this stack begins its pause, whose action is its own. -/
structure Moment.Begins (m : ManagerId) (thread : ThreadId) (action : List Op) (rest : List Frame)
    (k : Nat) (moment : Moment) : Prop where
  stands : ∃ p, moment.world.stack thread = .pausing p :: rest ∧ p.action = action
  slot : (moment.world.manager m).action = some action
  invalidates : (moment.notesAt thread (rest.length + 1)).filter (·.conducts m) = [.invalidated m k]

/-- What a move makes of the stage of a call. -/
inductive Moment.Takes (m : ManagerId) (thread : ThreadId) (action : List Op) (rest : List Frame)
    (moment : Moment) : Nat → Nat → Prop
  | on {stage : Nat} (none : (moment.notesAt thread (rest.length + 1)).filter (·.conducts m) = []) :
      Takes m thread action rest moment stage stage
  | begins {k : Nat} (begins : moment.Begins m thread action rest k) :
      Takes m thread action rest moment 0 1
  | joins (joins : (moment.notesAt thread (rest.length + 1)).filter (·.conducts m) =
      [.joined m true]) : Takes m thread action rest moment 1 2
  | ends (ends : (moment.notesAt thread (rest.length + 1)).filter (·.conducts m) =
      [.finished m true]) : Takes m thread action rest moment 2 3

/-- The step by which the call on top of this stack replies. -/
structure Moment.Replies (thread : ThreadId) (rest : List Frame) (value : Reply)
    (moment : Moment) : Prop where
  runs : moment.move = .run thread
  stands : ∃ frame effect, moment.world.stack thread = frame :: rest ∧
    frame.advance thread moment.world = some effect ∧ effect.control = .reply value

/-- The call is at some stage of a pause, and has told what there is to tell of it so far. -/
def Calling (m : ManagerId) (thread : ThreadId) (action : List Op) (rest : List Frame)
    (moments : List Moment) (w : World) : Prop :=
  ∃ above frame stage k, w.stack thread = above ++ frame :: rest ∧ frame.IsCall m action stage ∧
    conducted m thread (rest.length + 1) moments = (conduct m k).take stage ∧
    (stage ≠ 0 → ∃ moment ∈ moments, moment.Begins m thread action rest k)

section Stacks

/-! What becomes of a frame when something above it takes a step. -/

variable {frame : Frame} {above rest : List Frame}

namespace Frame

theorem length_unwind_le (message : String) (stack : List Frame) :
    (unwind message stack).length ≤ stack.length := by
  induction stack with
  | nil => exact Nat.le_refl _
  | cons frame rest ih =>
    unfold unwind
    split
    · simp
    · exact Nat.le_succ_of_le ih

theorem unwind_append (message : String) (above : List Frame) (frame : Frame) (rest : List Frame) :
    (∃ above', unwind message (above ++ frame :: rest) = above' ++ frame :: rest) ∨
      unwind message (above ++ frame :: rest) = unwind message (frame :: rest) := by
  induction above with
  | nil => exact .inr rfl
  | cons top above ih =>
    rw [List.cons_append, unwind]
    split
    · rename_i handler _
      exact .inl ⟨handler :: above, rfl⟩
    · exact ih

theorem length_unwind_lt {message : String} (drops : frame.catch? message = none) :
    (unwind message (frame :: rest)).length ≤ rest.length := by
  simp only [unwind, drops]
  exact length_unwind_le message rest

end Frame

theorem Control.length_stack_le_reply (value : Reply) (rest : List Frame) :
    ((Control.reply value).stack rest).length ≤ rest.length := by
  cases rest <;> simp [stack]

/-- A frame below the one that takes the step stays as it is, unless it is replied to or an unwinding
comes to it. -/
theorem Control.stack_append (control : Control) (above : List Frame) (frame : Frame)
    (rest : List Frame) :
    (∃ above', control.stack (above ++ frame :: rest) = above' ++ frame :: rest) ∨
      (above = [] ∧ ∃ value, control = .reply value ∧
        control.stack (above ++ frame :: rest) = frame.resume value :: rest) ∨
      ∃ message, control = .unwind message ∧
        control.stack (above ++ frame :: rest) = Frame.unwind message (frame :: rest) := by
  cases control with
  | goto top => exact .inl ⟨top :: above, rfl⟩
  | call top back => exact .inl ⟨top :: back :: above, rfl⟩
  | reply value =>
    cases above with
    | nil => exact .inr (.inl ⟨rfl, value, rfl, rfl⟩)
    | cons next above => exact .inl ⟨next.resume value :: above, rfl⟩
  | unwind message =>
    exact (Frame.unwind_append message above frame rest).imp_right fun same =>
      .inr ⟨message, rfl, same⟩

end Stacks

section

variable {m : ManagerId} {thread : ThreadId} {action : List Op} {above rest : List Frame}
  {w v : World} {frame : Frame} {stage : Nat} {notes : List Note} {effect : Effect}

/-- What a driver calls does not fail, once its pause has begun. -/
theorem Frame.Awaits.not_failed {p : Pausing} {child : Frame} {below : List Frame}
    (awaits : (Frame.pausing p).Awaits m child below) (begun : p.point.stage ≠ 0)
    (step : child.advance thread w = some effect) (failure : Failure) :
    effect.control ≠ .reply (.failed failure) := by
  cases child with
  | polling | resuming =>
    have lock : p.point = .lock := awaits
    exact absurd (by rw [lock]; rfl) begun
  | acquisition a => exact absurd (by rw [awaits.1]; rfl) begun
  | notify lock =>
    simp only [advance, OwnedLock.advanceNotify] at step
    split at step
    · obtain rfl := Option.some.inj step
      simp
    · simp at step
  | visit v =>
    simp only [advance, Visit.advance] at step
    repeat' split at step
    all_goals
      obtain rfl := Option.some.inj step
      simp
  | phases q =>
    simp only [advance, Phases.advance] at step
    repeat' split at step
    all_goals
      obtain rfl := Option.some.inj step
    case h_6 => cases q.outcome <;> simp
    all_goals simp
  | release lock point =>
    simp only [advance, Release.advance] at step
    repeat' split at step
    all_goals first
      | simp at step
      | obtain rfl := Option.some.inj step
        simp
  | _ => exact awaits.elim

/-- What a call waits for leaves it at its stage. -/
theorem Frame.IsCall.waits {top : Frame} (call : frame.IsCall m action stage)
    (sound : Sound m thread (top :: (above ++ frame :: rest)))
    (step : top.advance thread w = some effect)
    (next : Sound m thread (effect.control.stack (above ++ frame :: rest)))
    (on : rest.length < (effect.control.stack (above ++ frame :: rest)).length) :
    ∃ above' frame', effect.control.stack (above ++ frame :: rest) = above' ++ frame' :: rest ∧
      frame'.IsCall m action stage := by
  obtain ⟨above', same⟩ | ⟨rfl, value, replies, same⟩ | ⟨message, -, same⟩ :=
    effect.control.stack_append above frame rest
  · exact ⟨above', frame, same, call⟩
  · refine ⟨[], _, same, ?_⟩
    cases call with
    | returns => exact .returns
    | @drives p manager own =>
      cases value with
      | failed failure =>
        -- Only the wait for the pause lock fails, which is before the pause.
        by_cases begun : p.point.stage = 0
        · rw [begun]
          exact .drives (p := { p with point := .poll }) manager own
        · have awaits : (Frame.pausing p).Awaits m top rest := sound.2.1
          exact absurd replies (awaits.not_failed begun step failure)
      | unwound message => exact .drives (p := { p with outcome := some message }) manager own
      | _ => exact .drives manager own
  · rw [same] at next on
    cases call with
    | returns => exact absurd (Frame.length_unwind_lt rfl) (Nat.not_le.mpr on)
    | @drives p manager own =>
      by_cases leaves : p.point = .leaveGlobal
      -- The handler would be a frame that gives the lock up, which stands on no sound stack.
      · simp only [Frame.unwind, Frame.catch?, leaves, if_true] at next
        exact absurd rfl next.1.2.1
      · exact absurd (Frame.length_unwind_lt (by simp [Frame.catch?, leaves])) (Nat.not_le.mpr on)

namespace Moment

theorem notesAt_own (stack : w.stack thread = frame :: rest) :
    (⟨w, .run thread, notes⟩ : Moment).notesAt thread (rest.length + 1) = notes := by
  simp [notesAt, stack]

theorem notesAt_waiting {top : Frame} (stack : w.stack thread = top :: (above ++ frame :: rest)) :
    (⟨w, .run thread, notes⟩ : Moment).notesAt thread (rest.length + 1) = [] := by
  simp [notesAt, stack]
  omega

theorem notesAt_other {move : Move} (depth : Nat) (other : move ≠ .run thread) :
    (⟨w, move, notes⟩ : Moment).notesAt thread depth = [] := by
  cases move with
  | run self =>
    have ne : self ≠ thread := fun same => other (same ▸ rfl)
    simp [notesAt, ne]
  | _ => rfl

end Moment

theorem Silent.filter_conducts (silent : Silent m notes) : notes.filter (·.conducts m) = [] := by
  refine List.filter_eq_nil_iff.mpr fun note mem conducts => ?_
  have tells : note.tellsOf m = true := by
    cases note <;> simp_all [Note.conducts, Note.tellsOf]
  simp [silent note mem] at tells

/-- A driver that invalidates the epoch has stored its action. -/
theorem World.Coherent.call_begins {p : Pausing} (coherent : w.Coherent m)
    (stack : w.stack thread = .pausing p :: rest) (manager : p.manager = m)
    (own : p.action = action) (point : p.point = .invalidate)
    (step : p.advance thread w = some effect) :
    (⟨w, .run thread, effect.notes ++ effect.control.completion rest⟩ : Moment).Begins m thread
      action rest (w.manager m).epoch.generation := by
  have drives : (w.scene m).posture thread = .driving p.action .invalidate := by
    show StopTheWorld.posture m (w.stack thread) = _
    simp [stack, Frame.posture, point, Pausing.Point.drives]
  have admits := coherent.lawful.admits thread
  rw [drives] at admits
  have stands : (w.core m).Stands true 0 (some p.action) 0 := admits.demands rfl
  simp only [Pausing.advance, point] at step
  obtain rfl := Option.some.inj step
  refine ⟨⟨p, stack, own⟩, own ▸ stands.action, ?_⟩
  rw [Moment.notesAt_own stack, Control.completion, List.append_nil]
  simp only [List.filter_cons, Note.conducts, manager, decide_true, if_true, List.filter_nil]

/-- A call goes on with its pause from step to step, or is over. -/
theorem World.Coherent.call_step {p : Pausing} (coherent : w.Coherent m)
    (stack : w.stack thread = .pausing p :: rest) (manager : p.manager = m)
    (own : p.action = action) (step : p.advance thread w = some effect)
    (on : rest.length < (effect.control.stack rest).length) :
    ∃ above frame stage, effect.control.stack rest = above ++ frame :: rest ∧
      frame.IsCall m action stage ∧
      (⟨w, .run thread, effect.notes ++ effect.control.completion rest⟩ : Moment).Takes m thread
        action rest p.point.stage stage := by
  have ended (value : Reply) : ¬ rest.length < ((Control.reply value).stack rest).length :=
    Nat.not_lt.mpr (Control.length_stack_le_reply value rest)
  have goes (control : Control) (above : List Frame) {p' : Pausing} {noted : List Note}
      (shape : control.stack rest = above ++ .pausing p' :: rest)
      (runs : control.completion rest = []) (same : p'.manager = p.manager)
      (owned : p'.action = p.action) (stage : p'.point.stage = p.point.stage)
      (silent : noted.filter (·.conducts m) = []) :
      ∃ above frame stage, control.stack rest = above ++ frame :: rest ∧
        frame.IsCall m action stage ∧
        (⟨w, .run thread, noted ++ control.completion rest⟩ : Moment).Takes m thread action rest
          p.point.stage stage := by
    refine ⟨above, _, _, shape, .drives (same.trans manager) (owned.trans own), ?_⟩
    rw [stage, runs, List.append_nil]
    exact .on (by rw [Moment.notesAt_own stack, silent])
  have told {move : List Note} : (⟨w, .run thread, move ++ []⟩ : Moment).notesAt thread
      (rest.length + 1) = move := by
    rw [Moment.notesAt_own stack, List.append_nil]
  cases point : p.point with
  | gate =>
    simp only [Pausing.advance, point] at step
    split at step <;> obtain rfl := Option.some.inj step
    · exact absurd on (ended _)
    · exact point ▸ goes _ [] rfl rfl rfl rfl (by rw [point]; rfl) rfl
  | lookup =>
    simp only [Pausing.advance, point] at step
    split at step <;> obtain rfl := Option.some.inj step
    · exact absurd on (ended _)
    · exact point ▸ goes _ [] rfl rfl rfl rfl (by rw [point]; rfl) rfl
  | lock | poll | unlock =>
    simp only [Pausing.advance, point] at step
    obtain rfl := Option.some.inj step
    exact point ▸ goes _ [_] rfl rfl rfl rfl (by rw [point]; rfl) rfl
  | «open» | announceStart | store | clear | announceEnd =>
    simp only [Pausing.advance, point] at step
    obtain rfl := Option.some.inj step
    exact point ▸ goes _ [] rfl rfl rfl rfl (by rw [point]; rfl) rfl
  | invalidate =>
    have begins := coherent.call_begins stack manager own point step
    simp only [Pausing.advance, point] at step
    obtain rfl := Option.some.inj step
    exact ⟨[], _, _, rfl, .drives (p := { p with point := .wakeWaiters }) manager own, .begins begins⟩
  | wakeWaiters =>
    simp only [Pausing.advance, point] at step
    obtain rfl := Option.some.inj step
    refine point ▸ goes _ [_] rfl rfl rfl rfl ?_ rfl
    rw [point]
    dsimp only
    split <;> rfl
  | interrupt =>
    simp only [Pausing.advance, point] at step
    obtain rfl := Option.some.inj step
    exact point ▸ goes _ [_] rfl rfl rfl rfl (by rw [point]; rfl) rfl
  | leaveGlobal =>
    simp only [Pausing.advance, point] at step
    split at step
    · obtain ⟨⟨v, noted⟩, leaves, goto⟩ := Option.bind_eq_some_iff.mp step
      obtain rfl := Option.some.inj goto
      have silent : Silent m noted := (World.Agrees.leaveGlobal leaves).2
      exact point ▸ goes _ [] rfl rfl rfl rfl (by rw [point]; rfl) silent.filter_conducts
    · obtain rfl := Option.some.inj step
      exact point ▸ goes _ [] rfl rfl rfl rfl (by rw [point]; rfl) rfl
  | enterPhases =>
    simp only [Pausing.advance, point] at step
    obtain rfl := Option.some.inj step
    exact ⟨[_], _, _, rfl, .drives (p := { p with point := .exitPhases }) manager own, .joins (by
      rw [Control.completion, told]
      simp [Note.conducts, manager])⟩
  | exitPhases =>
    simp only [Pausing.advance, point] at step
    obtain rfl := Option.some.inj step
    exact ⟨[], _, _, rfl, .drives (p := { p with point := .clear }) manager own, .ends (by
      rw [Control.completion, told]
      simp [Note.conducts, manager])⟩
  | account =>
    simp only [Pausing.advance, point] at step
    obtain rfl := Option.some.inj step
    refine point ▸ goes _ [] rfl rfl rfl rfl (by rw [point]; rfl) ?_
    dsimp only
    split <;> rfl
  | resume =>
    simp only [Pausing.advance, point] at step
    obtain rfl := Option.some.inj step
    exact ⟨[_], _, _, rfl, .returns, .on (by rw [Control.completion, told]; rfl)⟩
  | abandon =>
    have sound := coherent.sound thread
    rw [stack] at sound
    exact absurd point sound.1.2.1

theorem Frame.IsCall.rouse (call : frame.IsCall m action stage)
    (stack : w.stack thread = above ++ frame :: rest) (other : ThreadId) :
    ∃ above', (w.rouse other).stack thread = above' ++ frame :: rest := by
  have unchanged {top top' : Frame} {below : List Frame} (roused : w.stack other = top :: below)
      (waits : ∀ stage, ¬ top.IsCall m action stage) :
      ∃ above', (w.setStack other (top' :: below)).stack thread = above' ++ frame :: rest := by
    rw [World.stack_setStack]
    split
    · rename_i same
      rw [← same, stack] at roused
      cases above with
      | nil =>
        obtain ⟨rfl, -⟩ := List.cons.inj roused
        exact absurd call (waits stage)
      | cons first above =>
        obtain ⟨-, rfl⟩ := List.cons.inj roused
        exact ⟨top' :: above, rfl⟩
    · exact ⟨above, stack⟩
  unfold World.rouse
  split
  · rename_i a below _
    have agrees : w.Agrees m (w.modifyLock a.lock (·.rouse other)) := .modifyLock w _ fun _ => rfl
    exact ⟨above, (agrees.stack thread).trans stack⟩
  · rename_i below roused
    exact unchanged roused fun _ call => nomatch call
  · rename_i s below roused
    split
    · exact unchanged roused fun _ call => nomatch call
    · exact ⟨above, stack⟩
  · exact ⟨above, stack⟩

/-- Every move leaves a call at its stage or takes it to the next one, unless the call is over. -/
theorem World.Coherent.call_move {move : Move} (coherent : w.Coherent m)
    (orderly : ∀ thread, move = .run thread → Orderly m w thread)
    (moves : w.move move = some (v, notes)) (stack : w.stack thread = above ++ frame :: rest)
    (call : frame.IsCall m action stage) (on : rest.length < (v.stack thread).length) :
    ∃ above' frame' stage', v.stack thread = above' ++ frame' :: rest ∧
      frame'.IsCall m action stage' ∧
      (⟨w, move, notes⟩ : Moment).Takes m thread action rest stage stage' := by
  have untouched (kept : ∃ above', v.stack thread = above' ++ frame :: rest)
      (other : move ≠ .run thread) : ∃ above' frame' stage',
        v.stack thread = above' ++ frame' :: rest ∧ frame'.IsCall m action stage' ∧
          (⟨w, move, notes⟩ : Moment).Takes m thread action rest stage stage' := by
    obtain ⟨above', kept⟩ := kept
    exact ⟨above', frame, stage, kept, call, .on (by rw [Moment.notesAt_other _ other]; rfl)⟩
  cases move with
  | run self =>
    by_cases same : thread = self
    · subst same
      have next := (coherent.step (orderly thread rfl) moves).1.sound thread
      have sound := coherent.sound thread
      obtain ⟨top, below, effect, top_stack, advance, rfl, rfl⟩ := World.step_eq_some moves
      rw [World.stack_setStack, if_pos rfl] at next on ⊢
      rw [top_stack] at sound stack
      cases above with
      | nil =>
        obtain ⟨rfl, rfl⟩ := List.cons.inj stack
        cases call with
        | drives manager own => exact coherent.call_step top_stack manager own advance on
        | returns =>
          obtain rfl := Option.some.inj advance
          exact absurd on (Nat.not_lt.mpr (Control.length_stack_le_reply _ _))
      | cons first above =>
        obtain ⟨rfl, rfl⟩ := List.cons.inj stack
        obtain ⟨above', frame', kept, call⟩ := call.waits sound advance next on
        exact ⟨above', frame', stage, kept, call,
          .on (by rw [Moment.notesAt_waiting top_stack]; rfl)⟩
    · refine untouched ⟨above, ?_⟩ (by simpa using Ne.symm same)
      rw [coherent.stack_other (orderly self rfl) moves same, stack]
  | submit self op =>
    refine untouched ⟨above, ?_⟩ (by simp)
    obtain ⟨u, submit, same⟩ := Option.map_eq_some_iff.mp moves
    obtain ⟨rfl, rfl⟩ := Prod.mk.inj same
    unfold World.submit at submit
    split at submit
    · rename_i idle
      obtain rfl := Option.some.inj submit
      have empty : w.stack self = [] := List.isEmpty_iff.mp idle
      have ne : thread ≠ self := by
        intro same
        subst same
        simp [stack] at empty
      rw [World.stack_setStack, if_neg ne, stack]
    · simp at submit
  | elapse span =>
    obtain ⟨rfl, rfl⟩ := Prod.mk.inj (Option.some.inj moves)
    exact untouched ⟨above, stack⟩ (by simp)
  | rouse self =>
    obtain ⟨rfl, rfl⟩ := Prod.mk.inj (Option.some.inj moves)
    exact untouched (call.rouse stack self) (by simp)

@[simp] theorem conducted_concat (depth : Nat) (moments : List Moment) (moment : Moment) :
    conducted m thread depth (moments ++ [moment]) =
      conducted m thread depth moments ++
        (moment.notesAt thread depth).filter (·.conducts m) := by
  simp [conducted]

theorem Calling.concat {moments : List Moment} {moment : Moment} {stage' : Nat}
    {k : Nat} (told : conducted m thread (rest.length + 1) moments = (conduct m k).take stage)
    (begun : stage ≠ 0 → ∃ moment ∈ moments, moment.Begins m thread action rest k)
    (takes : moment.Takes m thread action rest stage stage')
    (stack : w.stack thread = above ++ frame :: rest) (call : frame.IsCall m action stage') :
    Calling m thread action rest (moments ++ [moment]) w := by
  have earlier : stage ≠ 0 → ∃ first ∈ moments ++ [moment], first.Begins m thread action rest k := by
    intro late
    obtain ⟨first, mem, begins⟩ := begun late
    exact ⟨first, List.mem_append_left _ mem, begins⟩
  cases takes with
  | on none =>
    refine ⟨above, frame, stage, k, stack, call, ?_, earlier⟩
    rw [conducted_concat, told, none, List.append_nil]
  | @begins k' begins =>
    refine ⟨above, frame, 1, k', stack, call, ?_, fun _ =>
      ⟨moment, List.mem_append_right _ List.mem_cons_self, begins⟩⟩
    rw [conducted_concat, told, begins.invalidates]
    rfl
  | joins joins =>
    refine ⟨above, frame, 2, k, stack, call, ?_, fun _ => earlier (by simp)⟩
    rw [conducted_concat, told, joins]
    rfl
  | ends ends =>
    refine ⟨above, frame, 3, k, stack, call, ?_, fun _ => earlier (by simp)⟩
    rw [conducted_concat, told, ends]
    rfl

/-- As long as it lasts, a call that has not begun its pause yet conducts that, and no other. -/
theorem Course.calls {moments : List Moment} {p : Pausing}
    (course : Course (Orderly m) w moments v) (coherent : w.Coherent m)
    (stack : w.stack thread = .pausing p :: rest) (manager : p.manager = m)
    (early : p.point.stage = 0)
    (within : ∀ moment ∈ moments, rest.length < (moment.world.stack thread).length)
    (on : rest.length < (v.stack thread).length) :
    Calling m thread p.action rest moments v := by
  induction course with
  | nil =>
    have call : (Frame.pausing p).IsCall m p.action p.point.stage := .drives manager rfl
    rw [early] at call
    exact ⟨[], _, 0, 0, stack, call, rfl, fun begun => absurd rfl begun⟩
  | @snoc moments v u move notes before orderly moves ih =>
    obtain ⟨above, frame, stage, k, stack, call, told, begun⟩ :=
      ih (fun moment mem => within moment (List.mem_append_left _ mem))
        (within ⟨v, move, notes⟩ (List.mem_append_right _ List.mem_cons_self))
    obtain ⟨above', frame', stage', stack', call', takes⟩ :=
      (before.coherent coherent).call_move orderly moves stack call on
    exact .concat told begun takes stack' call'

theorem Course.calling {moments : List Moment} {p : Pausing}
    (course : Course (Orderly m) w moments v) (coherent : w.Coherent m)
    (stack : w.stack thread = .pausing p :: rest) (manager : p.manager = m)
    (gate : p.point = .gate)
    (within : ∀ moment ∈ moments, rest.length < (moment.world.stack thread).length)
    (on : rest.length < (v.stack thread).length) :
    Calling m thread p.action rest moments v :=
  course.calls coherent stack manager (gate ▸ rfl) within on

/-- A call that replies without having begun a pause fails. -/
theorem Pausing.replies {p : Pausing} {value : Reply} (step : p.advance thread w = some effect)
    (replies : effect.control = .reply value) :
    p.point.stage = 0 ∧ ∃ failure, value = .failed failure := by
  cases point : p.point with
  | gate | lookup =>
    simp only [advance, point] at step
    split at step <;> obtain rfl := Option.some.inj step
    · exact ⟨rfl, _, (Control.reply.inj replies).symm⟩
    · simp at replies
  | leaveGlobal =>
    simp only [advance, point] at step
    split at step
    · obtain ⟨_, _, goto⟩ := Option.bind_eq_some_iff.mp step
      obtain rfl := Option.some.inj goto
      simp at replies
    · obtain rfl := Option.some.inj step
      simp at replies
  | _ =>
    simp only [advance, point] at step
    obtain rfl := Option.some.inj step
    simp at replies

/-- A call that replies has failed and conducted nothing, or has succeeded and conducted one pause,
with its own action. -/
theorem Calling.replies {moments : List Moment} {moment : Moment} {value : Reply}
    (calling : Calling m thread action rest moments moment.world)
    (replies : moment.Replies thread rest value) :
    (∃ failure, value = .failed failure) ∧ conducted m thread (rest.length + 1) moments = [] ∨
      value = .succeeded .nothing ∧ ∃ k,
        conducted m thread (rest.length + 1) moments = conduct m k ∧
          ∃ first ∈ moments, first.Begins m thread action rest k := by
  obtain ⟨above, frame, stage, k, stack, call, told, begun⟩ := calling
  obtain ⟨top, effect, stack', step, control⟩ := replies.stands
  obtain rfl : above = [] := by
    have same := congrArg List.length (stack.symm.trans stack')
    simpa using same
  obtain ⟨rfl, -⟩ := List.cons.inj (stack.symm.trans stack')
  cases call with
  | @drives p manager own =>
    obtain ⟨early, failed⟩ := Pausing.replies step control
    rw [early] at told
    exact .inl ⟨failed, told⟩
  | returns =>
    obtain rfl := Option.some.inj step
    exact .inr ⟨(Control.reply.inj control).symm, k, told, begun (by simp)⟩

end

end StopTheWorld
